import Mathlib.Data.Int.Lemmas
import Mathlib.Tactic.Ring

/-! Rounding of integers to a number of significant bits, to the nearest with ties to the
even significand. Which numbers are rounded to a given one is told by half the distance to
its neighbours. -/

namespace RoundToEven

/-- The unit of the last of `p` significant bits. -/
def ulp (p n : Nat) : Nat := 2 ^ (n.log2 + 1 - p)

def roundNat (p n : Nat) : Nat :=
  let u := ulp p n
  if 2 * (n % u) < u ∨ 2 * (n % u) = u ∧ n / u % 2 = 0 then n / u * u else (n / u + 1) * u

def roundInt (p : Nat) (n : Int) : Int := n.sign * (roundNat p n.natAbs : Int)

/-- Distances that are rounded away: less than half of the gap, or half of it where the
significand is even. -/
def Near (p n gap distance : Nat) : Prop :=
  2 * distance < gap ∨ 2 * distance = gap ∧ n / ulp p n % 2 = 0

instance (p n gap distance : Nat) : Decidable (Near p n gap distance) :=
  inferInstanceAs (Decidable (_ ∨ _))

/-- `y` lies nearer to `x` than to its neighbours, or on a tie that `x` wins. -/
def Within (p x y : Nat) : Prop :=
  if x ≤ y then Near p x (ulp p x) (y - x) else Near p x (ulp p (x - 1)) (x - y)

variable {p : Nat}

theorem ulp_pos (p n : Nat) : 0 < ulp p n := Nat.two_pow_pos _

theorem log2_mul_add {q k r : Nat} (hq : q ≠ 0) (hr : r < 2 ^ k) :
    (q * 2 ^ k + r).log2 = q.log2 + k := by
  have hlow := Nat.log2_self_le hq
  have hhigh : q + 1 ≤ 2 ^ (q.log2 + 1) := Nat.lt_log2_self
  have hpos : 0 < q * 2 ^ k := Nat.mul_pos (Nat.pos_of_ne_zero hq) (Nat.two_pow_pos k)
  rw [Nat.log2_eq_iff (by omega)]
  constructor
  · rw [Nat.pow_add]
    exact le_trans (Nat.mul_le_mul_right _ hlow) (Nat.le_add_right _ _)
  · have hstep : q * 2 ^ k + r < (q + 1) * 2 ^ k := by
      rw [Nat.add_mul, Nat.one_mul]
      omega
    refine lt_of_lt_of_le hstep ?_
    rw [show q.log2 + k + 1 = q.log2 + 1 + k by omega, Nat.pow_add 2 (q.log2 + 1)]
    exact Nat.mul_le_mul_right _ hhigh

/-- A number as a significand of at most `p` bits and a rest below the last unit. -/
structure Split (p n q k r : Nat) : Prop where
  eq : n = q * 2 ^ k + r
  rest : r < 2 ^ k
  short : q < 2 ^ p
  full : k = 0 ∨ 2 ^ (p - 1) ≤ q

theorem exists_split (hp : 1 ≤ p) (n : Nat) : ∃ q k r, Split p n q k r := by
  refine ⟨n / ulp p n, n.log2 + 1 - p, n % ulp p n, ?_, Nat.mod_lt _ (ulp_pos p n), ?_, ?_⟩
  · exact (Nat.div_add_mod' n (ulp p n)).symm
  · rw [ulp, Nat.div_lt_iff_lt_mul (Nat.two_pow_pos _), ← Nat.pow_add]
    exact lt_of_lt_of_le Nat.lt_log2_self (Nat.pow_le_pow_right (by omega) (by omega))
  · by_cases hlog : n.log2 < p
    · exact Or.inl (by omega)
    · have hn : n ≠ 0 := by
        rintro rfl
        rw [Nat.log2_zero] at hlog
        omega
      right
      rw [ulp, Nat.le_div_iff_mul_le (Nat.two_pow_pos _), ← Nat.pow_add,
        show p - 1 + (n.log2 + 1 - p) = n.log2 by omega]
      exact Nat.log2_self_le hn

namespace Split
variable {n q k r : Nat}

theorem ulp_eq (hp : 1 ≤ p) (h : Split p n q k r) : ulp p n = 2 ^ k := by
  have hshort : q ≠ 0 → q.log2 < p := fun hq => (Nat.log2_lt hq).mpr h.short
  rw [ulp, h.eq]
  congr 1
  rcases h.full with rfl | hfull
  · have hr : r = 0 := by simpa using h.rest
    subst hr
    by_cases hq : q = 0
    · subst hq
      simp
      omega
    · rw [log2_mul_add hq h.rest]
      have := hshort hq
      omega
  · have hq : q ≠ 0 := by
      have := Nat.two_pow_pos (p - 1)
      omega
    have hlog : p - 1 ≤ q.log2 := (Nat.le_log2 hq).mpr hfull
    have := hshort hq
    rw [log2_mul_add hq h.rest]
    omega

theorem div_ulp (hp : 1 ≤ p) (h : Split p n q k r) : n / ulp p n = q := by
  rw [h.ulp_eq hp, h.eq, Nat.mul_comm, Nat.mul_add_div (Nat.two_pow_pos k),
    Nat.div_eq_of_lt h.rest, Nat.add_zero]

theorem mod_ulp (hp : 1 ≤ p) (h : Split p n q k r) : n % ulp p n = r := by
  rw [h.ulp_eq hp, h.eq, Nat.mul_comm, Nat.mul_add_mod, Nat.mod_eq_of_lt h.rest]

theorem roundNat_eq (hp : 1 ≤ p) (h : Split p n q k r) : roundNat p n =
    if 2 * r < 2 ^ k ∨ 2 * r = 2 ^ k ∧ q % 2 = 0 then q * 2 ^ k else (q + 1) * 2 ^ k := by
  rw [roundNat, h.div_ulp hp, h.mod_ulp hp, h.ulp_eq hp]

/-- A number without a rest. -/
theorem of_dvd (hp : 1 ≤ p) (hn : ulp p n ∣ n) : ∃ q k, Split p n q k 0 := by
  obtain ⟨q, k, r, h⟩ := exists_split hp n
  have hr : r = 0 := by rw [← h.mod_ulp hp, Nat.mod_eq_zero_of_dvd hn]
  exact ⟨q, k, hr ▸ h⟩

/-- The next number with the same last unit, or the first of the next power of two. -/
theorem next (hp : 2 ≤ p) (h : Split p n q k r) (hk : k ≠ 0) :
    ∃ q' k', Split p ((q + 1) * 2 ^ k) q' k' 0 ∧ (q % 2 = 1 ↔ q' % 2 = 0) := by
  have hfull := h.full.resolve_left hk
  have hpow : 2 ^ p = 2 ^ (p - 1) * 2 := by rw [← Nat.pow_succ]; congr 1; omega
  by_cases hlast : q + 1 < 2 ^ p
  · refine ⟨q + 1, k, ⟨(Nat.add_zero _).symm, Nat.two_pow_pos k, hlast, Or.inr (by omega)⟩, ?_⟩
    omega
  · have hq : q + 1 = 2 ^ (p - 1) * 2 := by
      have := h.short
      omega
    have heven : 2 ^ (p - 1) % 2 = 0 := by
      rw [show p - 1 = p - 2 + 1 by omega, Nat.pow_succ, Nat.mul_mod_left]
    refine ⟨2 ^ (p - 1), k + 1, ⟨?_, Nat.two_pow_pos _, ?_, Or.inr le_rfl⟩, ?_⟩
    · rw [hq, Nat.pow_succ, Nat.add_zero, Nat.mul_assoc, Nat.mul_comm 2]
    · have := Nat.two_pow_pos (p - 1)
      omega
    · omega

end Split

/-- Rounding down to a number. -/
theorem roundNat_eq_iff_of_le (hp : 2 ≤ p) {x y : Nat} (hx : ulp p x ∣ x) (hle : x ≤ y) :
    roundNat p y = x ↔ Near p x (ulp p x) (y - x) := by
  have hp1 : 1 ≤ p := by omega
  obtain ⟨m, a, hm⟩ := Split.of_dvd hp1 hx
  have hxm : x = m * 2 ^ a := by simpa using hm.eq
  constructor
  · intro hround
    obtain ⟨q, k, r, hy⟩ := exists_split hp1 y
    have hlt := hy.rest
    rw [hy.roundNat_eq hp1] at hround
    split_ifs at hround with hdown
    · have hsplit : Split p x q k 0 :=
        ⟨by rw [← hround, Nat.add_zero], Nat.two_pow_pos k, hy.short, hy.full⟩
      have hrest : y - x = r := by
        have := hy.eq
        omega
      rw [Near, hsplit.ulp_eq hp1, ← hsplit.ulp_eq hp1, hsplit.div_ulp hp1, hsplit.ulp_eq hp1, hrest]
      exact hdown
    · have hup : (q + 1) * 2 ^ k = q * 2 ^ k + 2 ^ k := by rw [Nat.add_mul, Nat.one_mul]
      have := hy.eq
      omega
  · intro hnear
    rw [Near, hm.div_ulp hp1, hm.ulp_eq hp1] at hnear
    have hpos := Nat.two_pow_pos a
    have hy : Split p y m a (y - x) := ⟨by omega, by omega, hm.short, hm.full⟩
    rw [hy.roundNat_eq hp1, if_pos hnear, hxm]

/-- Rounding up to a number. -/
theorem roundNat_eq_iff_of_lt (hp : 2 ≤ p) {x y : Nat} (hx : ulp p x ∣ x) (hlt : y < x) :
    roundNat p y = x ↔ Near p x (ulp p (x - 1)) (x - y) := by
  have hp1 : 1 ≤ p := by omega
  constructor
  · intro hround
    obtain ⟨q, k, r, hy⟩ := exists_split hp1 y
    have hrest := hy.rest
    have heq := hy.eq
    have hstep : (q + 1) * 2 ^ k = q * 2 ^ k + 2 ^ k := by rw [Nat.add_mul, Nat.one_mul]
    rw [hy.roundNat_eq hp1] at hround
    split_ifs at hround with hdown
    · omega
    · have hk : k ≠ 0 := by
        rintro rfl
        rw [Nat.pow_zero] at hrest hdown
        omega
      have hbefore : Split p (x - 1) q k (2 ^ k - 1) := ⟨by omega, by omega, hy.short, hy.full⟩
      obtain ⟨q', k', hsplit, heven⟩ := hy.next hp hk
      rw [hround] at hsplit
      rw [Near, hbefore.ulp_eq hp1, hsplit.div_ulp hp1]
      omega
  · intro hnear
    obtain ⟨q, k, r, hbefore⟩ := exists_split hp1 (x - 1)
    obtain ⟨m, a, hm⟩ := Split.of_dvd hp1 hx
    have hrest := hbefore.rest
    have heq := hbefore.eq
    have hdvd : 2 ^ k ∣ x := by
      rw [← hbefore.ulp_eq hp1]
      refine Nat.dvd_trans (Nat.pow_dvd_pow 2 ?_) hx
      have : (x - 1).log2 ≤ x.log2 := by
        by_cases hone : x - 1 = 0
        · rw [hone, Nat.log2_zero]
          exact Nat.zero_le _
        · exact (Nat.le_log2 (by omega)).mpr (le_trans (Nat.log2_self_le hone) (Nat.sub_le x 1))
      omega
    have hx : x = q * 2 ^ k + (r + 1) := by omega
    have hr : 2 ^ k ≤ r + 1 := by
      rw [hx] at hdvd
      exact Nat.le_of_dvd (Nat.succ_pos r) ((Nat.dvd_add_right (Nat.dvd_mul_left _ q)).mp hdvd)
    have hstep : (q + 1) * 2 ^ k = q * 2 ^ k + 2 ^ k := by rw [Nat.add_mul, Nat.one_mul]
    rw [Near, hbefore.ulp_eq hp1] at hnear
    have hy : Split p y q k (2 ^ k - (x - y)) :=
      ⟨by omega, by omega, hbefore.short, hbefore.full⟩
    rw [hy.roundNat_eq hp1, if_neg]
    · omega
    · rintro (hlow | ⟨htie, heven⟩)
      · omega
      · have hk : k ≠ 0 := by
          rintro rfl
          rw [Nat.pow_zero] at htie
          omega
        obtain ⟨q', k', hsplit, hparity⟩ := hbefore.next hp hk
        rw [hstep, show q * 2 ^ k + 2 ^ k = x by omega] at hsplit
        rw [hsplit.div_ulp hp1] at hnear
        omega

/-- Rounding up or down to a number from what lies within its reach, and only from there. -/
theorem roundNat_eq_iff (hp : 2 ≤ p) {x y : Nat} (hx : ulp p x ∣ x) :
    roundNat p y = x ↔ Within p x y := by
  rw [Within]
  split_ifs with hle
  · exact roundNat_eq_iff_of_le hp hx hle
  · exact roundNat_eq_iff_of_lt hp hx (Nat.lt_of_not_le hle)

/-- What fits the precision is not changed. -/
theorem roundNat_of_dvd (hp : 2 ≤ p) {n : Nat} (h : ulp p n ∣ n) : roundNat p n = n := by
  rw [roundNat_eq_iff hp h, Within, if_pos le_rfl, Nat.sub_self]
  exact Or.inl (ulp_pos p n)

/-- A rounded number fits the precision. -/
theorem ulp_dvd_roundNat (hp : 2 ≤ p) (n : Nat) : ulp p (roundNat p n) ∣ roundNat p n := by
  have hp1 : 1 ≤ p := by omega
  have hdvd : ∀ {m q k : Nat}, Split p m q k 0 → ulp p m ∣ m := fun h =>
    Nat.dvd_of_mod_eq_zero (h.mod_ulp hp1)
  obtain ⟨q, k, r, h⟩ := exists_split hp1 n
  rw [h.roundNat_eq hp1]
  split_ifs with hdown
  · exact hdvd ⟨(Nat.add_zero _).symm, Nat.two_pow_pos k, h.short, h.full⟩
  · have hk : k ≠ 0 := by
      rintro rfl
      have := h.rest
      rw [Nat.pow_zero] at this hdown
      omega
    obtain ⟨q', k', hnext, -⟩ := h.next hp hk
    exact hdvd hnext

/-- Multiples of a power of two with room for the precision are not changed. -/
theorem roundInt_of_common_unit (hp : 2 ≤ p) {k : Nat} {n : Int} (hdvd : (2 ^ k : Int) ∣ n)
    (hn : n.natAbs < 2 ^ (p + k)) : roundInt p n = n := by
  have hdvd' : ulp p n.natAbs ∣ n.natAbs := by
    by_cases hzero : n.natAbs = 0
    · rw [hzero]
      exact Nat.dvd_zero _
    · have hlog : n.natAbs.log2 < p + k := (Nat.log2_lt hzero).mpr hn
      have hunit : 2 ^ k ∣ n.natAbs := by
        have h := Int.natAbs_dvd_natAbs.mpr hdvd
        rwa [Int.natAbs_pow] at h
      exact Nat.dvd_trans (Nat.pow_dvd_pow 2 (by omega)) hunit
  rw [roundInt, roundNat_of_dvd hp hdvd', Int.sign_mul_natAbs]

theorem ulp_zero (hp : 1 ≤ p) : ulp p 0 = 1 := by
  rw [ulp, Nat.log2_zero, show 0 + 1 - p = 0 by omega, Nat.pow_zero]

theorem ulp_le {n : Nat} (hp : 1 ≤ p) (hn : n ≠ 0) : ulp p n ≤ n :=
  le_trans (Nat.pow_le_pow_right (by omega) (by omega)) (Nat.log2_self_le hn)

theorem roundNat_eq_zero_iff (hp : 2 ≤ p) (n : Nat) : roundNat p n = 0 ↔ n = 0 := by
  rw [roundNat_eq_iff hp (Nat.dvd_zero _), Within, if_pos (Nat.zero_le n), Near,
    ulp_zero (by omega)]
  omega

@[simp] theorem roundInt_neg (n : Int) : roundInt p (-n) = -roundInt p n := by
  rw [roundInt, roundInt, Int.sign_neg, Int.natAbs_neg, Int.neg_mul]

theorem roundInt_natCast (n : Nat) : roundInt p n = roundNat p n := by
  cases n with
  | zero => simp [roundInt, roundNat, ulp_pos]
  | succ n => rw [roundInt, Int.natAbs_natCast, Int.sign_natCast_of_ne_zero (Nat.succ_ne_zero n), one_mul]

/-- The error is too small to move the number. -/
def Absorbs (p : Nat) (x error : Int) : Prop :=
  if x = 0 then error = 0
  else if 0 ≤ x.sign * error then
    Near p x.natAbs (ulp p x.natAbs) error.natAbs
  else Near p x.natAbs (ulp p (x.natAbs - 1)) error.natAbs

instance (p : Nat) (x error : Int) : Decidable (Absorbs p x error) :=
  inferInstanceAs (Decidable (ite _ _ _))

theorem absorbs_zero (x : Int) : Absorbs p x 0 := by
  rw [Absorbs]
  split_ifs with hx hsign
  · rfl
  · exact Or.inl (ulp_pos p _)
  · simp at hsign

theorem absorbs_neg (x error : Int) : Absorbs p (-x) (-error) ↔ Absorbs p x error := by
  simp only [Absorbs, neg_eq_zero, Int.sign_neg, neg_mul_neg, Int.natAbs_neg]

theorem roundInt_add_eq_iff_of_pos (hp : 2 ≤ p) {n : Nat} (hn : ulp p n ∣ n) (hpos : 0 < n)
    (error : Int) : roundInt p (n + error) = n ↔ Absorbs p n error := by
  have hp1 : 1 ≤ p := by omega
  have hsign : (n : Int).sign = 1 := Int.sign_natCast_of_ne_zero (by omega)
  rw [Absorbs, if_neg (by omega), hsign, one_mul, Int.natAbs_natCast]
  by_cases hy : 0 ≤ n + error
  · obtain ⟨y, hy⟩ := Int.eq_ofNat_of_zero_le hy
    rw [hy, roundInt_natCast, Int.natCast_inj, roundNat_eq_iff hp hn, Within]
    split_ifs
    · rw [show y - n = error.natAbs by omega]
    · omega
    · omega
    · rw [show n - y = error.natAbs by omega]
  · obtain ⟨m, hm⟩ := Int.eq_ofNat_of_zero_le (show 0 ≤ -(n + error) by omega)
    have hround : roundInt p (n + error) = -(roundNat p m : Int) := by
      rw [← roundInt_natCast, ← hm, roundInt_neg, neg_neg]
    refine iff_of_false (by omega) ?_
    have hgap : ulp p (n - 1) ≤ n := by
      by_cases hone : n - 1 = 0
      · rw [hone, ulp_zero hp1]
        exact hpos
      · exact le_trans (ulp_le hp1 hone) (Nat.sub_le n 1)
    rw [if_neg (by omega), Near]
    omega

/-- A number with an error added is rounded back exactly if it absorbs the error. -/
theorem roundInt_add_eq_iff (hp : 2 ≤ p) {x : Int} (hx : ulp p x.natAbs ∣ x.natAbs) (error : Int) :
    roundInt p (x + error) = x ↔ Absorbs p x error := by
  by_cases hzero : x = 0
  · subst hzero
    rw [Absorbs, if_pos rfl, zero_add, roundInt, mul_eq_zero, Int.sign_eq_zero_iff_zero,
      Int.natCast_eq_zero, roundNat_eq_zero_iff hp, Int.natAbs_eq_zero, or_self]
  obtain ⟨n, rfl | rfl⟩ := x.eq_nat_or_neg
  · rw [Int.natAbs_natCast] at hx
    exact roundInt_add_eq_iff_of_pos hp hx (by omega) error
  · rw [Int.natAbs_neg, Int.natAbs_natCast] at hx
    have hneg := roundInt_add_eq_iff_of_pos hp hx (by omega) (-error)
    rw [← absorbs_neg, neg_neg, ← hneg, show -(n : Int) + error = -(n + -error) by ring, roundInt_neg,
      neg_inj]

end RoundToEven
