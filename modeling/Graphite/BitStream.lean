import Mathlib.Data.Nat.Bitwise
import Mathlib.Data.List.Induction
import Graphite.BigEndian

/-! Byte strings read as bit streams, least significant bit of each byte first,
and the bit-level effect of word operations on a machine word of `size` bits. -/

namespace BitStream
open BigEndian

/-- Bit `i` of a byte string; positions past its end read as false. -/
def bitAt : Bytes → Nat → Bool
  | [], _ => false
  | b :: bs, i => if i < 8 then b.toNat.testBit i else bitAt bs (i - 8)

@[simp] theorem bitAt_nil (i : Nat) : bitAt [] i = false := rfl

theorem bitAt_cons (b : UInt8) (bs : Bytes) (i : Nat) :
    bitAt (b :: bs) i = if i < 8 then b.toNat.testBit i else bitAt bs (i - 8) := rfl

theorem bitAt_append (as bs : Bytes) (i : Nat) :
    bitAt (as ++ bs) i =
      if i < 8 * as.length then bitAt as i else bitAt bs (i - 8 * as.length) := by
  induction as generalizing i with
  | nil => simp
  | cons a as ih =>
    rw [List.cons_append, bitAt_cons, bitAt_cons, ih, List.length_cons]
    by_cases h : i < 8
    · have h' : i < 8 * (as.length + 1) := by omega
      rw [if_pos h, if_pos h', if_pos h]
    · by_cases h' : i < 8 * (as.length + 1)
      · have h'' : i - 8 < 8 * as.length := by omega
        rw [if_neg h, if_pos h', if_pos h'', if_neg h]
      · have h'' : ¬ i - 8 < 8 * as.length := by omega
        have e : i - 8 - 8 * as.length = i - 8 * (as.length + 1) := by omega
        rw [if_neg h, if_neg h', if_neg h'', e]

theorem bitAt_of_length_le {bs : Bytes} {i : Nat} (h : 8 * bs.length ≤ i) : bitAt bs i = false := by
  induction bs generalizing i with
  | nil => rfl
  | cons b bs ih =>
    rw [List.length_cons] at h
    rw [bitAt_cons, if_neg (by omega), ih (by omega)]

/-- The low byte of a word holds its first eight bits. -/
theorem testBit_toNat_ofNat (n i : Nat) :
    (UInt8.ofNat n).toNat.testBit i = (decide (i < 8) && n.testBit i) := by
  rw [UInt8.toNat_ofNat', Nat.testBit_mod_two_pow]

theorem testBit_byte_of_le (b : UInt8) {i : Nat} (h : 8 ≤ i) : b.toNat.testBit i = false :=
  Nat.testBit_eq_false_of_lt (lt_of_lt_of_le b.toNat_lt (Nat.pow_le_pow_right (by omega) h))

/-- Numbers are equal when their bits below a common bound are. -/
theorem eq_of_testBit_lt {m n w : Nat} (hm : m < 2 ^ w) (hn : n < 2 ^ w)
    (h : ∀ i < w, m.testBit i = n.testBit i) : m = n := by
  apply Nat.eq_of_testBit_eq
  intro i
  by_cases hi : i < w
  · exact h i hi
  · have hw := Nat.pow_le_pow_right (show 0 < 2 by omega) (not_lt.mp hi)
    rw [Nat.testBit_eq_false_of_lt (lt_of_lt_of_le hm hw),
      Nat.testBit_eq_false_of_lt (lt_of_lt_of_le hn hw)]

/-- The pending bits of a reader: `count` bits of a buffer, then the unread bytes. -/
def pending (buffer count : Nat) (bs : Bytes) (i : Nat) : Bool :=
  if i < count then buffer.testBit i else bitAt bs (i - count)

end BitStream
