import Mathlib.Tactic.IntervalCases
import Graphite.BigEndian

/-! Byte strings in which one bit is flipped. A flip changes the number that the bytes
encode, and where it falls within one field it leaves the other fields alone. -/

namespace BitFlip
open BigEndian

/-- Flip bit `bit` of the byte at `pos`. -/
def flipBit (bs : Bytes) (pos bit : Nat) : Bytes :=
  bs.modify pos fun b => b ^^^ (1 <<< UInt8.ofNat bit)

@[simp] theorem length_flipBit (bs : Bytes) (pos bit : Nat) :
    (flipBit bs pos bit).length = bs.length := by
  simp [flipBit]

theorem flipBit_append_left {as : Bytes} {pos : Nat} (h : pos < as.length) (bs : Bytes)
    (bit : Nat) : flipBit (as ++ bs) pos bit = flipBit as pos bit ++ bs := by
  induction as generalizing pos with
  | nil => simp at h
  | cons a as ih =>
    cases pos with
    | zero => rfl
    | succ pos =>
      have htail := ih (Nat.lt_of_succ_lt_succ h)
      simp only [flipBit, List.cons_append, List.modify_succ_cons] at htail ⊢
      rw [htail]

theorem flipBit_append_right {as : Bytes} {pos : Nat} (h : as.length ≤ pos) (bs : Bytes)
    (bit : Nat) : flipBit (as ++ bs) pos bit = as ++ flipBit bs (pos - as.length) bit := by
  induction as generalizing pos with
  | nil => rfl
  | cons a as ih =>
    cases pos with
    | zero => simp at h
    | succ pos =>
      have htail := ih (Nat.le_of_succ_le_succ h)
      simp only [flipBit, List.cons_append, List.modify_succ_cons, List.length_cons,
        Nat.add_sub_add_right] at htail ⊢
      rw [htail]

theorem xor_shift_ne (b : UInt8) {bit : Nat} (h : bit < 8) :
    b ^^^ (1 <<< UInt8.ofNat bit) ≠ b := by
  intro heq
  have hzero : (1 : UInt8) <<< UInt8.ofNat bit = 0 := by
    have := congrArg (b ^^^ ·) heq
    simpa [← UInt8.xor_assoc] using this
  interval_cases bit <;> exact absurd hzero (by decide)

theorem flipBit_ne {bs : Bytes} {pos bit : Nat} (hpos : pos < bs.length) (hbit : bit < 8) :
    flipBit bs pos bit ≠ bs := by
  induction bs generalizing pos with
  | nil => simp at hpos
  | cons b bs ih =>
    cases pos with
    | zero =>
      intro h
      exact xor_shift_ne b hbit (List.cons.inj h).1
    | succ pos =>
      intro h
      exact ih (by simpa using hpos) (List.cons.inj h).2

theorem decode_flipBit_ne {bs : Bytes} {pos bit : Nat} (hpos : pos < bs.length) (hbit : bit < 8) :
    decode (flipBit bs pos bit) ≠ decode bs := by
  intro h
  exact flipBit_ne hpos hbit (decode_injective (length_flipBit bs pos bit) h)

end BitFlip
