import Graphite.Platform
import Graphite.RoundToEven

/-! Addition and subtraction of doubles: the exact result, rounded to 53 significant bits.
Finite doubles are whole multiples of 2^-1074, so that values are integers in that unit. -/

namespace Graphite.F64
open RoundToEven

/-- The bits without the sign. -/
def magnitudeBits (x : F64) : Nat := x.bits.toNat % 2 ^ 63

def negative (x : F64) : Bool := decide (2 ^ 63 ≤ x.bits.toNat)

def IsFinite (x : F64) : Prop := x.magnitudeBits < 2047 * 2 ^ 52

def IsNan (x : F64) : Prop := 2047 * 2 ^ 52 < x.magnitudeBits

instance (x : F64) : Decidable x.IsFinite := inferInstanceAs (Decidable (_ < _))

instance (x : F64) : Decidable x.IsNan := inferInstanceAs (Decidable (_ < _))

/-- The absolute value of a finite double in units of 2^-1074. -/
def unpack (b : Nat) : Nat :=
  if b / 2 ^ 52 = 0 then b else (2 ^ 52 + b % 2 ^ 52) * 2 ^ (b / 2 ^ 52 - 1)

def pack (n : Nat) : Nat := (n.log2 + 1 - 53) * 2 ^ 52 + n / ulp 53 n

def toInt (x : F64) : Int :=
  if x.negative then -(unpack x.magnitudeBits : Int) else unpack x.magnitudeBits

def ofParts (negative : Bool) (b : Nat) : F64 :=
  ⟨UInt64.ofNat (if negative then 2 ^ 63 + b else b)⟩

def infinity (negative : Bool) : F64 := ofParts negative (2047 * 2 ^ 52)

def nan : F64 := ⟨0x7FF8000000000000⟩

def negZero : F64 := ⟨0x8000000000000000⟩

/-- Two to the 1024, in units of 2^-1074. -/
def overflowLimit : Nat := 2 ^ 2098

/-- The double for an exact result; a result of zero is given its sign. -/
def ofExact (negativeZero : Bool) (n : Int) : F64 :=
  if n = 0 then ofParts negativeZero 0
  else if roundNat 53 n.natAbs < overflowLimit then
    ofParts (decide (n < 0)) (pack (roundNat 53 n.natAbs))
  else infinity (decide (n < 0))

def neg (x : F64) : F64 := ofParts (!x.negative) x.magnitudeBits

def add (x y : F64) : F64 :=
  if x.IsFinite ∧ y.IsFinite then ofExact (x.negative && y.negative) (x.toInt + y.toInt)
  else if x.IsNan ∨ y.IsNan then nan
  else if x.IsFinite then y
  else if y.IsFinite ∨ x = y then x
  else nan

def sub (x y : F64) : F64 := add x (neg y)

/-- A split with 53 bits, packed and unpacked. -/
theorem pack_of_split {n q k : Nat} (h : Split 53 n q k 0) : pack n = k * 2 ^ 52 + q := by
  have hk : n.log2 + 1 - 53 = k := by
    have hulp := h.ulp_eq (by omega)
    rw [ulp] at hulp
    exact Nat.pow_right_injective (Nat.le_refl 2) hulp
  rw [pack, h.div_ulp (by omega), hk]

theorem unpack_of_split {n q k : Nat} (h : Split 53 n q k 0) : unpack (k * 2 ^ 52 + q) = n := by
  have hshort := h.short
  have heq := h.eq
  rw [Nat.add_zero] at heq
  rw [unpack]
  by_cases hq : q < 2 ^ 52
  · have hk : k = 0 := h.full.resolve_right (by omega)
    subst hk
    rw [if_pos (by omega), heq]
    omega
  · have hdiv : (k * 2 ^ 52 + q) / 2 ^ 52 = k + 1 := by omega
    have hmod : (k * 2 ^ 52 + q) % 2 ^ 52 = q - 2 ^ 52 := by omega
    rw [hdiv, hmod, if_neg (Nat.succ_ne_zero k), Nat.add_sub_cancel, heq,
      show 2 ^ 52 + (q - 2 ^ 52) = q by omega]

theorem unpack_pack {n : Nat} (h : ulp 53 n ∣ n) : unpack (pack n) = n := by
  obtain ⟨q, k, hsplit⟩ := Split.of_dvd (by omega) h
  rw [pack_of_split hsplit, unpack_of_split hsplit]

/-- The significand and the unit of any bits. -/
theorem exists_split_unpack (b : Nat) :
    ∃ q k, Split 53 (unpack b) q k 0 ∧ b = k * 2 ^ 52 + q := by
  rw [unpack]
  split_ifs with hsub
  · exact ⟨b, 0, ⟨by omega, by omega, by omega, Or.inl rfl⟩, by omega⟩
  · refine ⟨2 ^ 52 + b % 2 ^ 52, b / 2 ^ 52 - 1, ⟨rfl, Nat.two_pow_pos _, ?_, Or.inr ?_⟩, ?_⟩
    · omega
    · omega
    · omega

theorem pack_unpack (b : Nat) : pack (unpack b) = b := by
  obtain ⟨q, k, hsplit, rfl⟩ := exists_split_unpack b
  rw [pack_of_split (unpack_of_split hsplit ▸ hsplit)]

theorem ulp_dvd_unpack (b : Nat) : ulp 53 (unpack b) ∣ unpack b := by
  obtain ⟨q, k, hsplit, -⟩ := exists_split_unpack b
  exact Nat.dvd_of_mod_eq_zero (hsplit.mod_ulp (by omega))

theorem two_pow_lt_overflowLimit_iff (k : Nat) : 2 ^ k < overflowLimit ↔ k < 2098 := by
  rw [overflowLimit, Nat.pow_lt_pow_iff_right (Nat.lt_succ_self 1)]

theorem overflowLimit_pos : 0 < overflowLimit := by
  have := (two_pow_lt_overflowLimit_iff 0).mpr (by omega)
  omega

theorem two_pow_le_overflowLimit_iff (k : Nat) : 2 ^ k ≤ overflowLimit ↔ k ≤ 2098 := by
  rw [overflowLimit, Nat.pow_le_pow_iff_right (Nat.lt_succ_self 1)]

/-- The finite bits are those of numbers below 2^1024. -/
theorem lt_iff_of_split {n q k : Nat} (h : Split 53 n q k 0) :
    n < overflowLimit ↔ k * 2 ^ 52 + q < 2047 * 2 ^ 52 := by
  have hshort := h.short
  have heq : n = q * 2 ^ k := h.eq
  constructor
  · intro hn
    rcases h.full with rfl | hfull
    · omega
    · have hle : 2 ^ (52 + k) ≤ n := by
        rw [heq, Nat.pow_add]
        exact Nat.mul_le_mul_right _ hfull
      have hk : 52 + k < 2098 := (two_pow_lt_overflowLimit_iff _).mp (lt_of_le_of_lt hle hn)
      omega
  · intro hb
    have hk : k ≤ 2045 := by
      rcases h.full with rfl | hfull
      · omega
      · have : 2 ^ (53 - 1) = 2 ^ 52 := rfl
        omega
    have hlt : q * 2 ^ k < 2 ^ 53 * 2 ^ k := Nat.mul_lt_mul_of_pos_right hshort (Nat.two_pow_pos k)
    have hle : 2 ^ (53 + k) ≤ overflowLimit := (two_pow_le_overflowLimit_iff _).mpr (by omega)
    rw [Nat.pow_add] at hle
    rw [heq]
    exact lt_of_lt_of_le hlt hle

theorem magnitudeBits_ofParts (s : Bool) {b : Nat} (hb : b < 2 ^ 63) :
    (ofParts s b).magnitudeBits = b := by
  rw [magnitudeBits, ofParts, UInt64.toNat_ofNat']
  cases s <;> simp <;> omega

theorem negative_ofParts (s : Bool) {b : Nat} (hb : b < 2 ^ 63) : (ofParts s b).negative = s := by
  rw [negative, ofParts, UInt64.toNat_ofNat']
  cases s <;> simp <;> omega

theorem ofParts_eq (x : F64) : ofParts x.negative x.magnitudeBits = x := by
  have hlt := x.bits.toNat_lt
  have hparts : (if x.negative then 2 ^ 63 + x.magnitudeBits else x.magnitudeBits) =
      x.bits.toNat := by
    rw [negative, magnitudeBits]
    split_ifs with h
    · rw [decide_eq_true_eq] at h
      omega
    · rw [decide_eq_true_eq] at h
      omega
  rw [ofParts, hparts, UInt64.ofNat_toNat]

theorem isFinite_ofParts (s : Bool) {b : Nat} (hb : b < 2047 * 2 ^ 52) : (ofParts s b).IsFinite := by
  rw [IsFinite, magnitudeBits_ofParts s (by omega)]
  exact hb

theorem toInt_ofParts (s : Bool) {b : Nat} (hb : b < 2 ^ 63) :
    (ofParts s b).toInt = if s then -(unpack b : Int) else unpack b := by
  rw [toInt, negative_ofParts s hb, magnitudeBits_ofParts s hb]

theorem natAbs_toInt (x : F64) : x.toInt.natAbs = unpack x.magnitudeBits := by
  rw [toInt]
  split_ifs
  · rw [Int.natAbs_neg, Int.natAbs_natCast]
  · rw [Int.natAbs_natCast]

theorem ulp_dvd_toInt (x : F64) : ulp 53 x.toInt.natAbs ∣ x.toInt.natAbs := by
  rw [natAbs_toInt]
  exact ulp_dvd_unpack _

theorem unpack_eq_zero_iff (b : Nat) : unpack b = 0 ↔ b = 0 := by
  constructor
  · intro h
    rw [← pack_unpack b, h]
    decide
  · rintro rfl
    rfl

/-- Doubles with the same value are the same, but for the two zeros. -/
theorem eq_of_toInt {x y : F64} (hx : x ≠ negZero) (hy : y ≠ negZero) (h : x.toInt = y.toInt) :
    x = y := by
  have hzero : ∀ z : F64, z ≠ negZero → z.negative = true → unpack z.magnitudeBits ≠ 0 := by
    intro z hz hneg hunpack
    refine hz ?_
    rw [← ofParts_eq z, hneg, (unpack_eq_zero_iff _).mp hunpack]
    rfl
  have hbits : x.magnitudeBits = y.magnitudeBits := by
    rw [← pack_unpack x.magnitudeBits, ← natAbs_toInt, h, natAbs_toInt, pack_unpack]
  have hsign : x.negative = y.negative := by
    have hx' := hzero x hx
    have hy' := hzero y hy
    rw [toInt, toInt, hbits] at h
    rw [hbits] at hx'
    cases hnx : x.negative <;> cases hny : y.negative
    · rfl
    · have := hy' hny
      simp [hnx, hny] at h
      omega
    · have := hx' hnx
      simp [hnx, hny] at h
      omega
    · rfl
  rw [← ofParts_eq x, hbits, hsign, ofParts_eq]

/-- Values that a rounded result may have. -/
def Fits (n : Int) : Prop := n.natAbs < overflowLimit

instance (n : Int) : Decidable (Fits n) := inferInstanceAs (Decidable (_ < _))

theorem natAbs_roundInt (n : Int) : (roundInt 53 n).natAbs = roundNat 53 n.natAbs := by
  by_cases hn : n = 0
  · subst hn
    rw [roundInt, Int.sign_zero, zero_mul, Int.natAbs_zero, eq_comm, roundNat_eq_zero_iff (by omega)]
  · rw [roundInt, Int.natAbs_mul, Int.natAbs_sign_of_ne_zero hn, one_mul, Int.natAbs_natCast]

theorem isFinite_ofExact_iff (s : Bool) (n : Int) :
    (ofExact s n).IsFinite ↔ Fits (roundInt 53 n) := by
  rw [Fits, natAbs_roundInt, ofExact]
  obtain ⟨q, k, hsplit⟩ := Split.of_dvd (p := 53) (by omega) (ulp_dvd_roundNat (by omega) n.natAbs)
  split_ifs with hzero hfits
  · subst hzero
    refine iff_of_true (by cases s <;> decide) ?_
    rw [Int.natAbs_zero, (roundNat_eq_zero_iff (by omega) 0).mpr rfl]
    exact overflowLimit_pos
  · refine iff_of_true ?_ hfits
    rw [pack_of_split hsplit]
    exact isFinite_ofParts _ ((lt_iff_of_split hsplit).mp hfits)
  · refine iff_of_false ?_ hfits
    cases decide (n < 0) <;> decide

theorem toInt_ofExact (s : Bool) {n : Int} (h : Fits (roundInt 53 n)) :
    (ofExact s n).toInt = roundInt 53 n := by
  rw [Fits, natAbs_roundInt] at h
  obtain ⟨q, k, hsplit⟩ := Split.of_dvd (p := 53) (by omega) (ulp_dvd_roundNat (by omega) n.natAbs)
  rw [ofExact]
  split_ifs with hzero
  · subst hzero
    cases s <;> decide
  · have hpack : pack (roundNat 53 n.natAbs) < 2 ^ 63 := by
      rw [pack_of_split hsplit]
      have := (lt_iff_of_split hsplit).mp h
      omega
    rw [toInt_ofParts _ hpack, unpack_pack (ulp_dvd_roundNat (by omega) _), roundInt]
    by_cases hneg : n < 0
    · rw [decide_eq_true hneg, if_pos rfl, Int.sign_eq_neg_one_of_neg hneg, neg_one_mul]
    · rw [decide_eq_false hneg, if_neg Bool.false_ne_true, Int.sign_eq_one_of_pos (by omega), one_mul]

theorem ofExact_ne_negZero {s : Bool} {n : Int} (h : s = false ∨ n ≠ 0) :
    ofExact s n ≠ negZero := by
  intro heq
  by_cases hn : n = 0
  · rw [ofExact, if_pos hn, h.resolve_right (not_not.mpr hn)] at heq
    exact absurd heq (by decide)
  · have hfinite : (ofExact s n).IsFinite := heq ▸ (by decide : negZero.IsFinite)
    have hvalue := toInt_ofExact s ((isFinite_ofExact_iff s n).mp hfinite)
    rw [heq, show negZero.toInt = 0 by decide] at hvalue
    have hround := natAbs_roundInt n
    rw [← hvalue, Int.natAbs_zero, eq_comm, roundNat_eq_zero_iff (by omega)] at hround
    exact hn (Int.natAbs_eq_zero.mp hround)

/-- A sum of finite doubles. -/
theorem add_of_finite {x y : F64} (hx : x.IsFinite) (hy : y.IsFinite) :
    add x y = ofExact (x.negative && y.negative) (x.toInt + y.toInt) := if_pos ⟨hx, hy⟩

/-- No sum is finite with an operand that is not. -/
theorem finite_of_add {x y : F64} (h : (add x y).IsFinite) : x.IsFinite ∧ y.IsFinite := by
  by_contra hnot
  rw [add, if_neg hnot] at h
  split_ifs at h with hnan hx hy
  · exact absurd h (by decide)
  · exact hnot ⟨hx, h⟩
  · exact hx h
  · exact absurd h (by decide)

theorem magnitudeBits_lt (x : F64) : x.magnitudeBits < 2 ^ 63 := Nat.mod_lt _ (Nat.two_pow_pos 63)

theorem magnitudeBits_neg (x : F64) : (neg x).magnitudeBits = x.magnitudeBits :=
  magnitudeBits_ofParts _ x.magnitudeBits_lt

theorem negative_neg (x : F64) : (neg x).negative = !x.negative :=
  negative_ofParts _ x.magnitudeBits_lt

theorem isFinite_neg_iff (x : F64) : (neg x).IsFinite ↔ x.IsFinite := by
  rw [IsFinite, magnitudeBits_neg, IsFinite]

theorem toInt_neg (x : F64) : (neg x).toInt = -x.toInt := by
  rw [toInt, toInt, magnitudeBits_neg, negative_neg]
  cases x.negative <;> simp

theorem fits_toInt {x : F64} (h : x.IsFinite) : Fits x.toInt := by
  obtain ⟨q, k, hsplit, hbits⟩ := exists_split_unpack x.magnitudeBits
  rw [Fits, natAbs_toInt, lt_iff_of_split hsplit, ← hbits]
  exact h

section Finite
variable {x y : F64} (hx : x.IsFinite) (hy : y.IsFinite)
include hx hy

theorem isFinite_add_iff : (add x y).IsFinite ↔ Fits (roundInt 53 (x.toInt + y.toInt)) := by
  rw [add_of_finite hx hy, isFinite_ofExact_iff]

theorem toInt_add (h : (add x y).IsFinite) : (add x y).toInt = roundInt 53 (x.toInt + y.toInt) := by
  rw [add_of_finite hx hy, toInt_ofExact _ ((isFinite_add_iff hx hy).mp h)]

/-- Only two negative zeros add up to one. -/
theorem add_ne_negZero (h : x ≠ negZero ∨ y ≠ negZero) : add x y ≠ negZero := by
  have hzero : ∀ z : F64, z.negative = true → z.toInt = 0 → z = negZero := by
    intro z hneg hvalue
    have hunpack := natAbs_toInt z
    rw [hvalue, Int.natAbs_zero, eq_comm, unpack_eq_zero_iff] at hunpack
    rw [← ofParts_eq z, hneg, hunpack]
    rfl
  have hsign : ∀ z : F64, z.negative = true → z.toInt ≤ 0 := by
    intro z hneg
    rw [toInt, if_pos hneg]
    omega
  rw [add_of_finite hx hy]
  refine ofExact_ne_negZero ?_
  by_contra hboth
  obtain ⟨hnegs, hsum⟩ := not_or.mp hboth
  rw [Bool.not_eq_false, Bool.and_eq_true] at hnegs
  have hx0 := hsign x hnegs.1
  have hy0 := hsign y hnegs.2
  rw [not_not] at hsum
  rcases h with h | h
  · exact h (hzero x hnegs.1 (by omega))
  · exact h (hzero y hnegs.2 (by omega))

theorem isFinite_sub_iff : (sub x y).IsFinite ↔ Fits (roundInt 53 (x.toInt - y.toInt)) := by
  rw [sub, isFinite_add_iff hx ((isFinite_neg_iff y).mpr hy), toInt_neg, ← sub_eq_add_neg]

theorem toInt_sub (h : (sub x y).IsFinite) : (sub x y).toInt = roundInt 53 (x.toInt - y.toInt) := by
  rw [sub] at h ⊢
  rw [toInt_add hx ((isFinite_neg_iff y).mpr hy) h, toInt_neg, ← sub_eq_add_neg]

end Finite

theorem finite_of_sub {x y : F64} (h : (sub x y).IsFinite) : x.IsFinite ∧ y.IsFinite := by
  obtain ⟨hx, hy⟩ := finite_of_add h
  exact ⟨hx, (isFinite_neg_iff y).mp hy⟩

theorem sub_negZero_ne_negZero {x : F64} (hx : x.IsFinite) : sub x negZero ≠ negZero :=
  add_ne_negZero hx (by decide) (Or.inr (by decide))

end Graphite.F64

namespace Graphite.Platform

/-- The platform with the arithmetic of IEEE 754. -/
def binary64 (p : Platform) : Platform := { p with sub := F64.sub, add := F64.add }

end Graphite.Platform
