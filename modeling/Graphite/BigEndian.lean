import Mathlib.Data.Nat.Basic
import Mathlib.Data.List.Induction
import Mathlib.Tactic.Ring

/-! Fixed-width big-endian byte encodings of natural numbers.
`encode w n` is what a `to_be_bytes` of a `w`-byte word writes, and bits of `n`
above `8 * w` are dropped; `decode` reads any byte string back. -/

namespace BigEndian

abbrev Bytes := List UInt8

def encode : (w n : Nat) → Bytes
  | 0, _ => []
  | w + 1, n => encode w (n / 256) ++ [UInt8.ofNat n]

def decode (bs : Bytes) : Nat :=
  bs.foldl (fun acc b => acc * 256 + b.toNat) 0

@[simp] theorem length_encode (w n : Nat) : (encode w n).length = w := by
  induction w generalizing n with
  | zero => rfl
  | succ w ih => simp [encode, ih]

@[simp] theorem decode_nil : decode [] = 0 := rfl

@[simp] theorem decode_concat (bs : Bytes) (b : UInt8) :
    decode (bs ++ [b]) = decode bs * 256 + b.toNat := by
  simp [decode]

theorem decode_append (as bs : Bytes) :
    decode (as ++ bs) = decode as * 256 ^ bs.length + decode bs := by
  induction bs using List.reverseRecOn with
  | nil => simp
  | append_singleton bs b ih =>
    rw [← List.append_assoc, decode_concat, ih, decode_concat, List.length_append,
      List.length_singleton, pow_succ]
    ring

theorem decode_lt (bs : Bytes) : decode bs < 256 ^ bs.length := by
  induction bs using List.reverseRecOn with
  | nil => simp
  | append_singleton bs b ih =>
    have hb := b.toNat_lt
    rw [decode_concat, List.length_append, List.length_singleton, pow_succ]
    omega

/-- Reading back what was written gives the number modulo the word size. -/
theorem decode_encode (w n : Nat) : decode (encode w n) = n % 256 ^ w := by
  induction w generalizing n with
  | zero => simp [encode, Nat.mod_one]
  | succ w ih =>
    have hb : (UInt8.ofNat n).toNat = n % 256 := UInt8.toNat_ofNat'
    rw [encode, decode_concat, ih, hb, pow_succ, Nat.mul_comm (256 ^ w), Nat.mod_mul]
    ring

theorem decode_encode_of_lt {w n : Nat} (h : n < 256 ^ w) : decode (encode w n) = n := by
  rw [decode_encode, Nat.mod_eq_of_lt h]

theorem encode_injective {w m n : Nat} (hm : m < 256 ^ w) (hn : n < 256 ^ w)
    (h : encode w m = encode w n) : m = n := by
  have := congrArg decode h
  rwa [decode_encode_of_lt hm, decode_encode_of_lt hn] at this

/-- Bytes of the same number are told apart by what they decode to. -/
theorem decode_injective {as bs : Bytes} (hlen : as.length = bs.length)
    (h : decode as = decode bs) : as = bs := by
  induction as using List.reverseRecOn generalizing bs with
  | nil => exact (List.length_eq_zero_iff.mp hlen.symm).symm
  | append_singleton as a ih =>
    cases bs using List.reverseRecOn with
    | nil => simp at hlen
    | append_singleton bs b =>
      have ha := a.toNat_lt
      have hb := b.toNat_lt
      rw [decode_concat, decode_concat] at h
      have hlast : a = b := UInt8.toNat_inj.mp (by omega)
      rw [hlast, ih (by simpa using hlen) (by omega)]

/-- A wide word is its high part followed by its low part. -/
theorem encode_add (a b n : Nat) : encode (a + b) n = encode a (n / 256 ^ b) ++ encode b n := by
  induction b generalizing n with
  | zero => simp [encode]
  | succ b ih =>
    rw [← Nat.add_assoc, encode, ih, encode, ← List.append_assoc, Nat.div_div_eq_div_mul,
      pow_succ, Nat.mul_comm (256 ^ b)]

/-- Cutting one number out of a row of numbers of the same width. -/
theorem take_drop_flatMap_encode (w : Nat) (ns : List Nat) (i : Nat) (h : i < ns.length) :
    ((ns.flatMap (encode w)).drop (w * i)).take w = encode w ns[i] := by
  induction ns generalizing i with
  | nil => simp at h
  | cons n ns ih =>
    cases i with
    | zero => simp [length_encode]
    | succ i =>
      have hdrop : (encode w n ++ ns.flatMap (encode w)).drop (w * (i + 1)) =
          (ns.flatMap (encode w)).drop (w * i) := by
        rw [Nat.mul_succ, Nat.add_comm, ← List.drop_drop, List.drop_left' (length_encode w n)]
      rw [List.flatMap_cons, hdrop, ih i (by simpa using h), List.getElem_cons_succ]

theorem encode_zero (w : Nat) : encode w 0 = List.replicate w 0 := by
  induction w with
  | zero => rfl
  | succ w ih => rw [encode, Nat.zero_div, ih, List.replicate_succ']; rfl

/-- Only zero bytes decode to zero. -/
theorem decode_eq_zero_iff (bs : Bytes) : decode bs = 0 ↔ ∀ b ∈ bs, b = 0 := by
  induction bs using List.reverseRecOn with
  | nil => simp
  | append_singleton bs b ih =>
    rw [decode_concat]
    constructor
    · intro h
      have hb : b = 0 := UInt8.toNat_inj.mp (by simpa using (by omega : b.toNat = 0))
      have hbs := ih.mp (by omega)
      intro c hc
      rcases List.mem_append.mp hc with hc | hc
      · exact hbs c hc
      · rw [List.mem_singleton.mp hc, hb]
    · intro h
      have hb : b = 0 := h b (by simp)
      have hbs : decode bs = 0 := ih.mpr fun c hc => h c (by simp [hc])
      simp [hb, hbs]

end BigEndian
