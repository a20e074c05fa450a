import Mathlib.Algebra.Order.Floor.Semifield
import Mathlib.Algebra.Order.Ring.Pow
import Mathlib.Analysis.Complex.ExponentialBounds
import Mathlib.Analysis.SpecialFunctions.Log.Basic
import Graphite.Bloom

/-! How many bits and probes a Bloom filter gets, with the formulas over the reals: about one
bit for nine items, and no less than 64. The error rate that these sizes lead to. -/

namespace Graphite

/-- Target false positive rate. -/
noncomputable def BLOOM_FPR : ℝ := 0.01

namespace Platform

/-- `bits.ceil() as usize`, which saturates. -/
noncomputable def exactBits (numItems : Nat) : Nat :=
  min ⌈-(numItems * Real.log BLOOM_FPR) / (2 * Real.log BLOOM_FPR ^ 2)⌉₊ (2 ^ 64 - 1)

/-- `k.round() as u32`, which saturates; without items `k` is infinite. -/
noncomputable def exactHashes (numBits numItems : Nat) : Nat :=
  if numItems = 0 then 2 ^ 32 - 1
  else min (round ((numBits / numItems : ℝ) * 2 * Real.log (Real.exp 1))).toNat (2 ^ 32 - 1)

/-- A platform whose sizing formulas do not round on the way. -/
noncomputable def exact (p : Platform) : Platform :=
  { p with bloomBits := exactBits, bloomHashes := exactHashes }

theorem four_le_log_hundred : (4 : ℝ) ≤ Real.log 100 := by
  rw [Real.le_log_iff_exp_le (by norm_num)]
  have he := Real.exp_one_lt_d9
  have hpow : Real.exp 4 = Real.exp 1 ^ 4 := by
    rw [← Real.exp_nat_mul]
    norm_num
  calc
    Real.exp 4 = Real.exp 1 ^ 4 := hpow
    _ ≤ 3 ^ 4 := pow_le_pow_left₀ (Real.exp_pos 1).le (by linarith) 4
    _ ≤ 100 := by norm_num

/-- One bit for about nine items. -/
theorem bits_formula (n : Nat) :
    -(n * Real.log BLOOM_FPR) / (2 * Real.log BLOOM_FPR ^ 2) = n / (2 * Real.log 100) := by
  have hlog : Real.log BLOOM_FPR = -Real.log 100 := by
    rw [BLOOM_FPR, ← Real.log_inv]
    norm_num
  have hpos : Real.log 100 ≠ 0 := by
    have := four_le_log_hundred
    positivity
  rw [hlog]
  field_simp

theorem exactBits_le (n : Nat) : exactBits n ≤ (n + 7) / 8 := by
  refine (Nat.min_le_left _ _).trans ?_
  rw [bits_formula, Nat.ceil_le]
  have hlog := four_le_log_hundred
  have hcover : (n : ℝ) ≤ 8 * ((n + 7) / 8 : Nat) := by
    exact_mod_cast (by omega : n ≤ 8 * ((n + 7) / 8))
  rw [div_le_iff₀ (by linarith)]
  have hnonneg : (0 : ℝ) ≤ ((n + 7) / 8 : Nat) := Nat.cast_nonneg _
  have hmul := mul_le_mul_of_nonneg_left hlog hnonneg
  linarith

theorem exactHashes_eq {n : Nat} (hn : 0 < n) (m : Nat) :
    exactHashes m n = min ((4 * m + n) / (2 * n)) (2 ^ 32 - 1) := by
  have hpos : (0 : ℝ) < n := Nat.cast_pos.mpr hn
  have hquot : (m / n : ℝ) * 2 * 1 + 1 / 2 = (4 * m + n : Nat) / (2 * n : Nat) := by
    push_cast
    field_simp
    ring
  rw [exactHashes, if_neg hn.ne', Real.log_exp, round_eq, hquot, Int.floor_toNat,
    Nat.floor_div_eq_div]

end Platform

namespace BloomFilter
open Platform

theorem numBits_exact (p : Platform) (n : Nat) :
    64 ≤ (new p.exact n).numBits ∧ (n ≤ 512 → (new p.exact n).numBits = 64) ∧
      (512 < n → (new p.exact n).numBits ≤ (n + 7) / 8) := by
  have hnew : (new p.exact n).numBits = max (exactBits n) 64 := rfl
  have hle := exactBits_le n
  omega

theorem numHashes_exact (p : Platform) {n : Nat} (hn : 0 < n) :
    (new p.exact n).numHashes = min (max ((4 * (new p.exact n).numBits + n) / (2 * n)) 1) 16 := by
  have hnew : (new p.exact n).numHashes =
      min (max (exactHashes (new p.exact n).numBits n) 1) 16 := rfl
  rw [hnew, exactHashes_eq hn]
  omega

/-- Three probes and more for few items only. -/
theorem numHashes_exact_le_two_iff (p : Platform) {n : Nat} (hn : 0 < n) :
    (new p.exact n).numHashes ≤ 2 ↔ 52 ≤ n := by
  obtain ⟨-, hfew, hmany⟩ := numBits_exact p n
  have hquot : (4 * (new p.exact n).numBits + n) / (2 * n) ≤ 2 ↔
      4 * (new p.exact n).numBits < 5 * n := by
    rw [← Nat.lt_succ_iff, Nat.div_lt_iff_lt_mul (by omega)]
    omega
  rw [numHashes_exact p hn]
  omega

/-- Expected false positive rate after `n` insertions into `m` bits with `k` probes each. -/
noncomputable def errorRate (m k n : Nat) : ℝ := (1 - (1 - 1 / (m : ℝ)) ^ (k * n)) ^ k

theorem clear_mem_unit {m : Nat} (hm : 0 < m) : 0 ≤ 1 - 1 / (m : ℝ) ∧ 1 - 1 / (m : ℝ) ≤ 1 := by
  have hone : (1 : ℝ) ≤ m := by exact_mod_cast hm
  have hle : 1 / (m : ℝ) ≤ 1 := by rwa [div_le_one (by linarith)]
  have hpos : 0 ≤ 1 / (m : ℝ) := by positivity
  exact ⟨by linarith, by linarith⟩

/-- A bit stays clear through `n` probes with a chance of at most `1 / (1 + n / m)`. -/
theorem clear_pow_le {m : Nat} (hm : 0 < m) (n : Nat) :
    (1 - 1 / (m : ℝ)) ^ n ≤ 1 / (1 + n / m) := by
  obtain ⟨hnonneg, -⟩ := clear_mem_unit hm
  have hpos : (0 : ℝ) < m := by exact_mod_cast hm
  have hbernoulli : 1 + n * (1 / (m : ℝ)) ≤ (1 + 1 / m) ^ n :=
    one_add_mul_le_pow (by have : 0 ≤ 1 / (m : ℝ) := by positivity
                           linarith) n
  have hprod : (1 - 1 / (m : ℝ)) * (1 + 1 / m) ≤ 1 := by
    have := sq_nonneg (1 / (m : ℝ))
    nlinarith
  rw [le_div_iff₀ (by positivity)]
  calc
    (1 - 1 / (m : ℝ)) ^ n * (1 + n / m) ≤ (1 - 1 / (m : ℝ)) ^ n * (1 + 1 / m) ^ n := by
      refine mul_le_mul_of_nonneg_left ?_ (pow_nonneg hnonneg n)
      rwa [mul_one_div] at hbernoulli
    _ = ((1 - 1 / (m : ℝ)) * (1 + 1 / m)) ^ n := (mul_pow _ _ n).symm
    _ ≤ 1 := pow_le_one₀ (by positivity) hprod

/-- At least `x` of the bits set, the rate is at least `x ^ K` for no more than `K` probes. -/
theorem pow_le_errorRate {m k n K : Nat} {x : ℝ} (hm : 0 < m) (hx : 0 ≤ x)
    (hset : (1 - 1 / (m : ℝ)) ^ (k * n) ≤ 1 - x) (hk : k ≤ K) : x ^ K ≤ errorRate m k n := by
  obtain ⟨hnonneg, -⟩ := clear_mem_unit hm
  have hclear : 0 ≤ (1 - 1 / (m : ℝ)) ^ (k * n) := pow_nonneg hnonneg _
  have hle : x ≤ 1 - (1 - 1 / (m : ℝ)) ^ (k * n) := by linarith
  calc
    x ^ K ≤ x ^ k := pow_le_pow_of_le_one hx (by linarith) hk
    _ ≤ errorRate m k n := pow_le_pow_left₀ hx hle k

/-- Up to six items 16 probes into 64 bits are few enough. -/
theorem errorRate_le {n : Nat} (hn : n ≤ 6) : errorRate 64 16 n ≤ 0.02 := by
  have hclear : (0.22 : ℝ) ≤ (1 - 1 / (64 : Nat)) ^ (16 * n) := by
    calc
      (0.22 : ℝ) ≤ (1 - 1 / (64 : Nat)) ^ 96 := by norm_num
      _ ≤ (1 - 1 / (64 : Nat)) ^ (16 * n) :=
        pow_le_pow_of_le_one (by norm_num) (by norm_num) (by omega)
  have hone : (1 - 1 / ((64 : Nat) : ℝ)) ^ (16 * n) ≤ 1 := pow_le_one₀ (by norm_num) (by norm_num)
  calc
    errorRate 64 16 n ≤ (0.78 : ℝ) ^ 16 := pow_le_pow_left₀ (by linarith) (by linarith) 16
    _ ≤ 0.02 := by norm_num

/-- From seven to 51 items the probes set four fifths of the 64 bits. -/
theorem lt_errorRate_of_few {k n : Nat} (hk : k ≤ 16) (hkn : 103 ≤ k * n) :
    0.02 < errorRate 64 k n := by
  have hset : (1 - 1 / ((64 : Nat) : ℝ)) ^ (k * n) ≤ 1 - 0.8 := by
    calc
      (1 - 1 / ((64 : Nat) : ℝ)) ^ (k * n) ≤ (1 - 1 / ((64 : Nat) : ℝ)) ^ 103 :=
        pow_le_pow_of_le_one (by norm_num) (by norm_num) hkn
      _ ≤ 1 - 0.8 := by norm_num
  calc
    (0.02 : ℝ) < 0.8 ^ 16 := by norm_num
    _ ≤ errorRate 64 k n := pow_le_errorRate (by omega) (by norm_num) hset hk

/-- From 52 items on the filter has so few bits that nearly half of them are set. -/
theorem lt_errorRate_of_many {m k n : Nat} (hm : 0 < m) (hroom : 13 * m ≤ 16 * n) (hk1 : 1 ≤ k)
    (hk2 : k ≤ 2) : 0.02 < errorRate m k n := by
  obtain ⟨hnonneg, hle⟩ := clear_mem_unit hm
  have hpos : (0 : ℝ) < m := by exact_mod_cast hm
  have hquot : (13 / 16 : ℝ) ≤ n / m := by
    rw [div_le_div_iff₀ (by norm_num) hpos]
    exact_mod_cast (by omega : 13 * m ≤ n * 16)
  have hset : (1 - 1 / (m : ℝ)) ^ (k * n) ≤ 1 - 13 / 29 := by
    calc
      (1 - 1 / (m : ℝ)) ^ (k * n) ≤ (1 - 1 / (m : ℝ)) ^ n :=
        pow_le_pow_of_le_one hnonneg hle (Nat.le_mul_of_pos_left n hk1)
      _ ≤ 1 / (1 + n / m) := clear_pow_le hm n
      _ ≤ 1 / (1 + 13 / 16) := one_div_le_one_div_of_le (by norm_num) (by linarith)
      _ = 1 - 13 / 29 := by norm_num
  calc
    (0.02 : ℝ) < (13 / 29) ^ 2 := by norm_num
    _ ≤ errorRate m k n := pow_le_errorRate hm (by norm_num) hset hk2

/-- The filter that `new` makes meets the advertised rate up to six items and no further. -/
theorem meets_error_rate_iff (p : Platform) (n : Nat) (hn : 1 ≤ n) :
    errorRate (new p.exact n).numBits (new p.exact n).numHashes n ≤ 0.02 ↔ n ≤ 6 := by
  obtain ⟨hbits, hfew, hmany⟩ := numBits_exact p n
  have hhashes := numHashes_exact p hn
  have htwo := numHashes_exact_le_two_iff p hn
  constructor
  · intro hrate
    by_contra hseven
    refine absurd hrate (not_le.mpr ?_)
    by_cases hsmall : n ≤ 51
    · have hquot : 4 * 64 + n < 2 * n * ((4 * 64 + n) / (2 * n) + 1) :=
        Nat.lt_mul_div_succ (4 * 64 + n) (by omega)
      rw [hfew (by omega)] at hhashes ⊢
      generalize (new p.exact n).numHashes = k at hhashes htwo ⊢
      refine lt_errorRate_of_few (by omega) ?_
      by_cases hclamp : (4 * 64 + n) / (2 * n) ≤ 16
      · have hk : k = (4 * 64 + n) / (2 * n) := by omega
        rw [← hk] at hquot
        nlinarith
      · obtain rfl : k = 16 := by omega
        omega
    · exact lt_errorRate_of_many (by omega) (by omega) (by omega) (by omega)
  · intro hsix
    have hquot : 16 ≤ (4 * 64 + n) / (2 * n) := by
      rw [Nat.le_div_iff_mul_le (by omega)]
      omega
    have hk : (new p.exact n).numHashes = 16 := by
      rw [hfew (by omega)] at hhashes
      omega
    rw [hfew (by omega), hk]
    exact errorRate_le hsix

theorem meets_error_rate_iff_six :
    errorRate (new Platform.simple.exact 6).numBits (new Platform.simple.exact 6).numHashes 6 ≤ 0.02 ↔
      6 ≤ 6 :=
  meets_error_rate_iff .simple 6 (by decide)

theorem thousand_items_miss_rate : ¬ ∀ (p : Platform) (n : Nat), 1 ≤ n →
    errorRate (new p.exact n).numBits (new p.exact n).numHashes n ≤ 0.02 := by
  intro h
  obtain ⟨hbits, -, hmany⟩ := numBits_exact .simple 1000
  have hhashes := numHashes_exact .simple (by decide : 0 < 1000)
  have htwo := (numHashes_exact_le_two_iff .simple (by decide : 0 < 1000)).mpr (by decide)
  have hroom := hmany (by decide)
  refine absurd (h .simple 1000 (by decide)) (not_le.mpr ?_)
  exact lt_errorRate_of_many (by omega) (by omega) (by omega) htwo

end BloomFilter

end Graphite
