import Graphite.Binary64
import Mathlib.Data.List.TakeWhile

/-! Doubles as the query language meets them: read from decimal text with the nearest
double as the result, compared, and cast from and to 64-bit integers. -/

namespace RoundToEven

/-- The quotient of two numbers, rounded to `p` significant bits. -/
def roundQuotient (p n m : Nat) : Nat :=
  let u := m * ulp p (n / m)
  (if 2 * (n % u) < u ∨ 2 * (n % u) = u ∧ n / u % 2 = 0 then n / u else n / u + 1) * ulp p (n / m)

variable {p : Nat}

@[simp] theorem roundQuotient_one (p n : Nat) : roundQuotient p n 1 = roundNat p n := by
  rw [roundQuotient, roundNat, Nat.div_one, Nat.one_mul]
  split_ifs <;> rfl

/-- Rounding does not leave the binade downwards. -/
theorem two_pow_log2_le_roundNat (hp : 1 ≤ p) {n : Nat} (hn : n ≠ 0) :
    2 ^ n.log2 ≤ roundNat p n := by
  have hlog := Nat.log2_self_le hn
  have hdvd : ulp p n ∣ 2 ^ n.log2 := Nat.pow_dvd_pow 2 (by omega)
  have hle : 2 ^ n.log2 ≤ n / ulp p n * ulp p n := by
    obtain ⟨q, hq⟩ := hdvd
    rw [hq, Nat.mul_comm] at hlog ⊢
    exact Nat.mul_le_mul_right _ ((Nat.le_div_iff_mul_le (ulp_pos p n)).mpr hlog)
  rw [roundNat]
  split_ifs
  · exact hle
  · exact le_trans hle (Nat.mul_le_mul_right _ (Nat.le_succ _))

theorem le_roundNat (hp : 1 ≤ p) {m n : Nat} (hm : ulp p m ∣ m) (h : m ≤ n) : m ≤ roundNat p n := by
  by_cases hzero : n = 0
  · subst hzero
    exact le_trans h (Nat.zero_le _)
  by_cases hlow : m < 2 ^ n.log2
  · exact le_trans hlow.le (two_pow_log2_le_roundNat hp hzero)
  · have hm0 : m ≠ 0 := by
      have := Nat.two_pow_pos n.log2
      omega
    have hlog : m.log2 = n.log2 := (Nat.log2_eq_iff hm0).mpr
      ⟨Nat.le_of_not_lt hlow, lt_of_le_of_lt h Nat.lt_log2_self⟩
    obtain ⟨q, hq⟩ : ulp p n ∣ m := by
      rw [ulp, ← hlog]
      exact hm
    have hle : m ≤ n / ulp p n * ulp p n := by
      rw [hq, Nat.mul_comm] at h ⊢
      exact Nat.mul_le_mul_right _ ((Nat.le_div_iff_mul_le (ulp_pos p n)).mpr h)
    rw [roundNat]
    split_ifs
    · exact hle
    · exact le_trans hle (Nat.mul_le_mul_right _ (Nat.le_succ _))

theorem dvd_of_split (hp : 1 ≤ p) {n q k : Nat} (h : Split p n q k 0) : ulp p n ∣ n :=
  Nat.dvd_of_mod_eq_zero (h.mod_ulp hp)

/-- The next significand fits the precision as well. -/
theorem ulp_dvd_succ (hp : 2 ≤ p) {n q k r : Nat} (h : Split p n q k r) :
    ulp p ((q + 1) * 2 ^ k) ∣ (q + 1) * 2 ^ k := by
  by_cases hk : k = 0
  · subst hk
    rw [Nat.pow_zero, Nat.mul_one]
    rcases Nat.lt_or_ge (q + 1) (2 ^ p) with hlt | hge
    · have hsplit : Split p (q + 1) (q + 1) 0 0 := ⟨by simp, by simp, hlt, Or.inl rfl⟩
      exact dvd_of_split (by omega) hsplit
    · have hq : q + 1 = 2 ^ (p - 1) * 2 ^ 1 := by
        rw [← Nat.pow_add, show p - 1 + 1 = p by omega]
        have := h.short
        omega
      have hsplit : Split p (q + 1) (2 ^ (p - 1)) 1 0 :=
        ⟨hq, by simp, Nat.pow_lt_pow_right (by omega) (by omega), Or.inr le_rfl⟩
      exact dvd_of_split (by omega) hsplit
  · obtain ⟨q', k', hnext, -⟩ := h.next hp hk
    exact dvd_of_split (by omega) hnext

theorem ulp_dvd_roundQuotient (hp : 2 ≤ p) (n m : Nat) :
    ulp p (roundQuotient p n m) ∣ roundQuotient p n m := by
  obtain ⟨q, k, r, h⟩ := exists_split (p := p) (by omega) (n / m)
  have hq : n / (m * ulp p (n / m)) = q := by rw [← Nat.div_div_eq_div_mul, h.div_ulp (by omega)]
  rw [roundQuotient, hq, h.ulp_eq (by omega)]
  split_ifs
  · exact dvd_of_split (by omega) ⟨rfl, Nat.two_pow_pos k, h.short, h.full⟩
  · exact ulp_dvd_succ hp h

end RoundToEven

namespace Graphite.F64
open RoundToEven

/-- One, in units of 2^-1074. -/
def one : Nat := 2 ^ 1074

theorem one_pos : 0 < one := by decide +kernel

/-- The double nearest to a quotient, whose unit is that of the doubles. -/
def ofQuotient (negative : Bool) (n m : Nat) : F64 :=
  if roundQuotient 53 n m < overflowLimit then ofParts negative (pack (roundQuotient 53 n m))
  else infinity negative

/-- `f64::from_str` of a number without an exponent: a sign, digits and one point. -/
def fromStr (s : List Char) : Option F64 :=
  let negative := s.head? = some '-'
  let digits := if negative then s.tail else s
  let whole := digits.takeWhile Char.isDigit
  let rest := digits.dropWhile Char.isDigit
  let places := rest.tail
  if whole = [] ∧ places = [] then none
  else if rest = [] ∨ rest.head? = some '.' ∧ places.all Char.isDigit then
    some (ofQuotient negative (Nat.ofDigitChars 10 (whole ++ places) 0 * one) (10 ^ places.length))
  else none

/-- `n as f64` for an `i64`. -/
def ofI64 (n : Int64) : F64 := ofExact false (n.toInt * one)

/-- `x as i64`: the fraction is cut off, and values out of range give the bound. -/
def toI64 (x : F64) : Int64 :=
  if x.IsNan then 0
  else if x.toInt.tdiv one < Int64.minValue.toInt then Int64.minValue
  else if Int64.maxValue.toInt < x.toInt.tdiv one then Int64.maxValue
  else Int64.ofInt (x.toInt.tdiv one)

/-- `f64::fract` -/
def fract (x : F64) : F64 := if x.IsFinite then ofExact false (x.toInt.tmod one) else nan

/-- `f64::abs` -/
def abs (x : F64) : F64 := ofParts false x.magnitudeBits

/-- The order of the bits, both zeros in one place. -/
def rank (x : F64) : Int := if x.negative then -(x.magnitudeBits : Int) else x.magnitudeBits

/-- The comparisons of `f64`; none of them holds of a NaN. -/
def eq (x y : F64) : Bool := !decide x.IsNan && !decide y.IsNan && decide (x.rank = y.rank)

def lt (x y : F64) : Bool := !decide x.IsNan && !decide y.IsNan && decide (x.rank < y.rank)

def le (x y : F64) : Bool := !decide x.IsNan && !decide y.IsNan && decide (x.rank ≤ y.rank)

/-- The product of values in units of 2^-1074, rounded. -/
def mul (x y : F64) : F64 :=
  if x.IsNan ∨ y.IsNan then nan
  else if x.IsFinite ∧ y.IsFinite then
    ofQuotient (x.negative != y.negative) (x.toInt.natAbs * y.toInt.natAbs) one
  else if x.magnitudeBits = 0 ∨ y.magnitudeBits = 0 then nan
  else infinity (x.negative != y.negative)

def div (x y : F64) : F64 :=
  if x.IsNan ∨ y.IsNan ∨ ¬ x.IsFinite ∧ ¬ y.IsFinite ∨ x.magnitudeBits = 0 ∧ y.magnitudeBits = 0 then
    nan
  else if ¬ x.IsFinite ∨ y.magnitudeBits = 0 then infinity (x.negative != y.negative)
  else if ¬ y.IsFinite then ofParts (x.negative != y.negative) 0
  else ofQuotient (x.negative != y.negative) (x.toInt.natAbs * one) y.toInt.natAbs

/-- `f64::max` and `f64::min` give the other operand for a NaN. -/
def max (x y : F64) : F64 := if x.IsNan then y else if lt x y then y else x

def min (x y : F64) : F64 := if x.IsNan then y else if lt y x then y else x

/-- `n as f64` for a `u64`. -/
def ofU64 (n : UInt64) : F64 := ofExact false (n.toNat * one)

def zero : F64 := ⟨0⟩

/-- `1e15` -/
def tenTo15 : F64 := ⟨0x430C6BF526340000⟩

theorem unpack_lt_succ (b : Nat) : unpack b < unpack (b + 1) := by
  rw [unpack, unpack]
  have hpow := Nat.two_pow_pos (b / 2 ^ 52 - 1)
  by_cases hlast : b % 2 ^ 52 + 1 < 2 ^ 52
  · rw [show (b + 1) / 2 ^ 52 = b / 2 ^ 52 by omega, show (b + 1) % 2 ^ 52 = b % 2 ^ 52 + 1 by omega]
    split_ifs with hsub
    · omega
    · exact Nat.mul_lt_mul_of_pos_right (by omega) hpow
  · rw [show (b + 1) / 2 ^ 52 = b / 2 ^ 52 + 1 by omega, show (b + 1) % 2 ^ 52 = 0 by omega,
      if_neg (Nat.succ_ne_zero _), Nat.add_sub_cancel]
    split_ifs with hsub
    · rw [hsub]
      omega
    · have hexp : 2 ^ (b / 2 ^ 52) = 2 ^ (b / 2 ^ 52 - 1) * 2 := by
        rw [← Nat.pow_succ]
        congr 1
        omega
      rw [hexp]
      generalize 2 ^ (b / 2 ^ 52 - 1) = u at *
      calc (2 ^ 52 + b % 2 ^ 52) * u < 2 ^ 53 * u := Nat.mul_lt_mul_of_pos_right (by omega) hpow
        _ = (2 ^ 52 + 0) * (u * 2) := by ring

/-- Bits and values are in the same order. -/
theorem unpack_lt_unpack_iff (a b : Nat) : unpack a < unpack b ↔ a < b :=
  (strictMono_nat_of_lt_succ unpack_lt_succ).lt_iff_lt

theorem rank_ofParts_false {b : Nat} (hb : b < 2 ^ 63) : (ofParts false b).rank = b := by
  rw [rank, negative_ofParts _ hb, magnitudeBits_ofParts _ hb]
  rfl

theorem rank_eq_zero_iff (x : F64) : x.rank = 0 ↔ x.magnitudeBits = 0 := by
  rw [rank]
  split_ifs <;> omega

theorem eq_zero_iff (x : F64) : eq x zero = true ↔ x.magnitudeBits = 0 := by
  have hzero : zero.rank = 0 := by decide
  have hnan : ¬ zero.IsNan := by decide
  rw [eq, hzero, decide_eq_false hnan, Bool.not_false, Bool.and_true, Bool.and_eq_true,
    Bool.not_eq_true', decide_eq_false_iff_not, decide_eq_true_eq, rank_eq_zero_iff]
  refine ⟨And.right, fun h => ⟨?_, h⟩⟩
  rw [IsNan, h]
  omega

/-- Only an exact zero is rounded to one. -/
theorem eq_zero_ofExact_iff (s : Bool) (n : Int) : eq (ofExact s n) zero = true ↔ n = 0 := by
  rw [eq_zero_iff]
  constructor
  · intro h
    have hfinite : (ofExact s n).IsFinite := by
      rw [IsFinite, h]
      omega
    have hvalue := toInt_ofExact s ((isFinite_ofExact_iff s n).mp hfinite)
    have hround := natAbs_roundInt n
    rw [← hvalue, natAbs_toInt, h, eq_comm, show unpack 0 = 0 by rfl,
      roundNat_eq_zero_iff (by omega)] at hround
    exact Int.natAbs_eq_zero.mp hround
  · rintro rfl
    cases s <;> decide

theorem eq_fract_zero_iff (x : F64) :
    eq (fract x) zero = true ↔ x.IsFinite ∧ (one : Int) ∣ x.toInt := by
  rw [fract]
  split_ifs with hfinite
  · rw [eq_zero_ofExact_iff, and_iff_right hfinite, Int.dvd_iff_tmod_eq_zero]
  · exact iff_of_false (by decide) fun h => hfinite h.1

theorem unpack_tenTo15 : unpack tenTo15.magnitudeBits = 10 ^ 15 * one := by decide +kernel

theorem lt_abs_tenTo15_iff (x : F64) :
    lt (abs x) tenTo15 = true ↔ x.toInt.natAbs < 10 ^ 15 * one := by
  have hrank : tenTo15.rank = tenTo15.magnitudeBits := by decide
  have hten : ¬ tenTo15.IsNan := by decide
  have hbound : tenTo15.magnitudeBits < 2047 * 2 ^ 52 := by decide
  rw [natAbs_toInt, ← unpack_tenTo15, unpack_lt_unpack_iff, lt, abs,
    rank_ofParts_false x.magnitudeBits_lt, hrank, decide_eq_false hten, Bool.not_false,
    Bool.and_true, Bool.and_eq_true, Bool.not_eq_true', decide_eq_false_iff_not, decide_eq_true_eq,
    Int.ofNat_lt]
  refine ⟨And.right, fun h => ⟨?_, h⟩⟩
  rw [IsNan, magnitudeBits_ofParts _ x.magnitudeBits_lt]
  omega

/-- A whole number below 10^15. -/
def IsWhole (x : F64) : Prop := (one : Int) ∣ x.toInt ∧ x.toInt.natAbs < 10 ^ 15 * one

theorem isWhole_iff (x : F64) :
    (eq (fract x) zero && lt (abs x) tenTo15) = true ↔ x.IsWhole := by
  rw [Bool.and_eq_true, eq_fract_zero_iff, lt_abs_tenTo15_iff, IsWhole, and_assoc, and_iff_right_iff_imp]
  rintro ⟨-, hlt⟩
  rw [natAbs_toInt, ← unpack_tenTo15, unpack_lt_unpack_iff] at hlt
  exact lt_trans hlt (by decide)

/-- A whole quotient is a number of its own. -/
theorem ofQuotient_one (s : Bool) (n : Nat) :
    ofQuotient s n 1 = ofExact s (if s then -(n : Int) else n) := by
  have habs : (if s then -(n : Int) else n).natAbs = n := by cases s <;> simp
  rw [ofQuotient, roundQuotient_one, ofExact, habs]
  by_cases hzero : n = 0
  · have hround : roundNat 53 0 = 0 := (roundNat_eq_zero_iff (by omega) 0).mpr rfl
    subst hzero
    rw [hround, if_pos overflowLimit_pos, if_pos (by cases s <;> rfl)]
    rfl
  · have hsign : decide ((if s then -(n : Int) else n) < 0) = s := by
      cases s
      · simp
      · simp [Nat.pos_of_ne_zero hzero]
    have hne : (if s then -(n : Int) else n) ≠ 0 := by cases s <;> simp <;> omega
    rw [if_neg hne, hsign]

theorem one_mul_lt_overflowLimit : 2 ^ 53 * one < overflowLimit := by decide +kernel

theorem roundInt_mul_one {n : Int} (h : n.natAbs < 2 ^ 53) : roundInt 53 (n * one) = n * one := by
  obtain ⟨k, hk⟩ : ∃ k, one = 2 ^ k := ⟨1074, rfl⟩
  rw [hk]
  refine roundInt_of_common_unit (k := k) (by omega) ?_ ?_
  · rw [Nat.cast_pow]
    exact Int.dvd_mul_left _ _
  · rw [Int.natAbs_mul, Int.natAbs_natCast, Nat.pow_add]
    exact Nat.mul_lt_mul_of_pos_right h (Nat.two_pow_pos _)

/-- Whole numbers below 2^53 are doubles. -/
theorem toInt_ofExact_mul_one (s : Bool) {n : Int} (h : n.natAbs < 2 ^ 53) :
    (ofExact s (n * one)).toInt = n * one := by
  have hround := roundInt_mul_one h
  rw [toInt_ofExact, hround]
  rw [hround, Fits, Int.natAbs_mul, Int.natAbs_natCast]
  exact lt_trans (Nat.mul_lt_mul_of_pos_right h one_pos) one_mul_lt_overflowLimit

/-- A value that is not below 10^15 is not rounded below it. -/
theorem le_natAbs_toInt_ofExact (s : Bool) {n : Int} (h : 10 ^ 15 * one ≤ n.natAbs) :
    10 ^ 15 * one ≤ (ofExact s n).toInt.natAbs := by
  have hdvd : ulp 53 (10 ^ 15 * one) ∣ 10 ^ 15 * one := by
    rw [← unpack_tenTo15]
    exact ulp_dvd_unpack _
  have hround := le_roundNat (by omega) hdvd h
  have hpos : 0 < 10 ^ 15 * one := Nat.mul_pos (by omega) one_pos
  by_cases hfits : Fits (roundInt 53 n)
  · rw [toInt_ofExact s hfits, natAbs_roundInt]
    exact hround
  · rw [Fits, natAbs_roundInt] at hfits
    rw [ofExact, if_neg (by omega), if_neg hfits, natAbs_toInt, infinity,
      magnitudeBits_ofParts _ (by omega), ← unpack_tenTo15]
    exact ((unpack_lt_unpack_iff _ _).mpr (by decide)).le

theorem isWhole_ofExact_iff (s : Bool) (n : Int) :
    (ofExact s (n * one)).IsWhole ↔ n.natAbs < 10 ^ 15 := by
  constructor
  · rintro ⟨-, hlt⟩
    by_contra hle
    refine absurd hlt (Nat.not_lt.mpr (le_natAbs_toInt_ofExact s ?_))
    rw [Int.natAbs_mul, Int.natAbs_natCast]
    exact Nat.mul_le_mul_right _ (Nat.le_of_not_lt hle)
  · intro h
    rw [IsWhole, toInt_ofExact_mul_one s (by omega), Int.natAbs_mul, Int.natAbs_natCast]
    exact ⟨Int.dvd_mul_left _ _, Nat.mul_lt_mul_of_pos_right h one_pos⟩

theorem IsWhole.not_isNan {x : F64} (h : x.IsWhole) : ¬ x.IsNan := by
  have hlt := h.2
  rw [natAbs_toInt, ← unpack_tenTo15, unpack_lt_unpack_iff] at hlt
  exact Nat.not_lt.mpr (lt_trans hlt (by decide)).le

theorem toI64_of_toInt {x : F64} (hnan : ¬ x.IsNan) {n : Int64} (h : x.toInt = n.toInt * one) :
    toI64 x = n := by
  have hdiv : x.toInt.tdiv one = n.toInt := by
    rw [h, Int.mul_tdiv_cancel _ (Int.ofNat_ne_zero.mpr one_pos.ne')]
  rw [toI64, if_neg hnan, hdiv, if_neg (Int.not_lt.mpr (Int64.minValue_le_toInt n)),
    if_neg (Int.not_lt.mpr (Int64.toInt_le n)), Int64.ofInt_toInt]

/-- The cast of a whole number and back. -/
theorem toInt_toI64 {x : F64} (h : x.IsWhole) : (toI64 x).toInt * one = x.toInt := by
  have hnan := h.not_isNan
  obtain ⟨⟨q, hq⟩, hlt⟩ := h
  rw [hq, Int.natAbs_mul, Int.natAbs_natCast, Nat.mul_comm] at hlt
  have hsmall : q.natAbs < 10 ^ 15 := Nat.lt_of_mul_lt_mul_right hlt
  have hcast : (Int64.ofInt q).toInt = q := Int64.toInt_ofInt_of_le (by omega) (by omega)
  rw [toI64_of_toInt hnan (by rw [hq, hcast, Int.mul_comm]), hcast, hq, Int.mul_comm]

theorem rank_eq_of_toInt {x y : F64} (h : x.toInt = y.toInt) : x.rank = y.rank := by
  have hbits : x.magnitudeBits = y.magnitudeBits := by
    rw [← pack_unpack x.magnitudeBits, ← natAbs_toInt, h, natAbs_toInt, pack_unpack]
  have hzero := unpack_eq_zero_iff y.magnitudeBits
  rw [toInt, toInt, hbits] at h
  rw [rank, rank, hbits]
  split_ifs at h ⊢ <;> omega

/-- A whole number is equal to its integer as a double; only the sign of a zero is lost. -/
theorem eq_ofI64_toI64 {x : F64} (h : x.IsWhole) : eq (ofI64 (toI64 x)) x = true := by
  have hvalue : (ofI64 (toI64 x)).toInt = x.toInt := by
    have hsmall : (toI64 x).toInt.natAbs < 10 ^ 15 := by
      have hlt := h.2
      rw [← toInt_toI64 h, Int.natAbs_mul, Int.natAbs_natCast] at hlt
      exact Nat.lt_of_mul_lt_mul_right hlt
    rw [ofI64, toInt_ofExact_mul_one _ (by omega), toInt_toI64 h]
  have hwhole : (ofI64 (toI64 x)).IsWhole := by
    rw [IsWhole, hvalue]
    exact h
  rw [eq, decide_eq_false hwhole.not_isNan, decide_eq_false h.not_isNan,
    decide_eq_true (rank_eq_of_toInt hvalue)]
  rfl

/-- `Display` of an integer. -/
theorem toList_toString (n : Int) : (toString n).toList =
    if n < 0 then '-' :: Nat.toDigits 10 n.natAbs else Nat.toDigits 10 n.natAbs := by
  rw [Int.toString_eq_repr, Int.repr_eq_if]
  split_ifs with h h' h'
  · omega
  · rw [Nat.toList_repr, show n.toNat = n.natAbs by omega]
  · rw [String.toList_append, Nat.toList_repr, show (-n).toNat = n.natAbs by omega]
    rfl
  · omega

theorem isDigit_of_mem_toDigits {n : Nat} {c : Char} (h : c ∈ Nat.toDigits 10 n) : c.isDigit :=
  Nat.isDigit_of_mem_toDigits (by omega) (by omega) h

theorem head?_toDigits_ne (n : Nat) : (Nat.toDigits 10 n).head? ≠ some '-' := by
  intro h
  exact absurd (isDigit_of_mem_toDigits (List.mem_of_mem_head? h)) (by decide)

theorem fromStr_toString (n : Int) :
    fromStr (toString n).toList = some (ofExact (decide (n < 0)) (n * one)) := by
  have hdigits : (toString n).toList.head? = some '-' ↔ n < 0 := by
    rw [toList_toString]
    split_ifs with h
    · exact iff_of_true rfl h
    · exact iff_of_false (head?_toDigits_ne _) h
  have htail : (if n < 0 then (toString n).toList.tail else (toString n).toList) =
      Nat.toDigits 10 n.natAbs := by
    rw [toList_toString]
    split_ifs <;> rfl
  have htake : (Nat.toDigits 10 n.natAbs).takeWhile Char.isDigit = Nat.toDigits 10 n.natAbs :=
    List.takeWhile_eq_self_iff.mpr fun c hc => isDigit_of_mem_toDigits hc
  have hdrop : (Nat.toDigits 10 n.natAbs).dropWhile Char.isDigit = [] :=
    List.dropWhile_eq_nil_iff.mpr fun c hc => isDigit_of_mem_toDigits hc
  have hvalue : (if decide (n < 0) = true then -((n.natAbs * one : Nat) : Int)
      else ((n.natAbs * one : Nat) : Int)) = n * one := by
    rw [Nat.cast_mul]
    by_cases h : n < 0
    · rw [if_pos (decide_eq_true h), show ((n.natAbs : Nat) : Int) = -n by omega]
      ring
    · rw [if_neg (by simpa using h), show ((n.natAbs : Nat) : Int) = n by omega]
  simp only [fromStr, hdigits, htail, htake, hdrop, Nat.toDigits_ne_nil, false_and, if_false,
    true_or, if_true, List.tail_nil, List.append_nil, List.length_nil, Nat.pow_zero,
    Nat.ofDigitChars_ten_toDigits, ofQuotient_one, hvalue]

theorem not_isNan_ofQuotient (s : Bool) (n m : Nat) : ¬ (ofQuotient s n m).IsNan := by
  obtain ⟨q, k, hsplit⟩ := Split.of_dvd (by omega) (ulp_dvd_roundQuotient (p := 53) (by omega) n m)
  rw [ofQuotient]
  split_ifs with hfits
  · have hlt := (lt_iff_of_split hsplit).mp hfits
    rw [pack_of_split hsplit, IsNan, magnitudeBits_ofParts _ (by omega)]
    omega
  · rw [infinity, IsNan, magnitudeBits_ofParts _ (by omega)]
    omega

theorem not_isNan_of_fromStr {s : List Char} {x : F64} (h : fromStr s = some x) : ¬ x.IsNan := by
  rw [fromStr] at h
  split_ifs at h
  all_goals
    rw [← Option.some.inj h]
    exact not_isNan_ofQuotient _ _ _

theorem eq_self {x : F64} (h : ¬ x.IsNan) : eq x x = true := by
  rw [eq, decide_eq_false h, decide_eq_true rfl]
  rfl

end Graphite.F64
