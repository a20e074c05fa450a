import Graphite.Binary64
import Graphite.PriceColumn

/-! What the double deltas of a price column lose. Two rounds of rounded differences are
undone by two rounds of rounded sums; the decoded deltas carry the errors of all rounds
before, and a price comes back where it absorbs the error of its own delta. -/

namespace Graphite
open BigEndian RoundToEven

namespace Gorilla

/-- What rounding adds to an exact result. -/
def roundingError (n : Int) : Int := roundInt 53 n - n

/-- The error of the decoded delta of `x` before its own: that of the delta before, and those
of the second difference and of the running sum. -/
def carriedError (prev delta carried x : Int) : Int :=
  let d := roundInt 53 (x - prev)
  carried + roundingError (d - delta) + roundingError (delta + carried + roundInt 53 (d - delta))

/-- The differences of `x`, and the decoded delta, do not overflow, and `x` absorbs the error
of its difference together with the errors carried. -/
def RecoversNext (prev delta carried x : Int) : Prop :=
  F64.Fits (roundInt 53 (x - prev)) ∧ F64.Fits (roundInt 53 (roundInt 53 (x - prev) - delta)) ∧
    F64.Fits (roundInt 53 (x - prev) + carriedError prev delta carried x) ∧
    Absorbs 53 x (roundingError (x - prev) + carriedError prev delta carried x)

instance (prev delta carried x : Int) : Decidable (RecoversNext prev delta carried x) :=
  inferInstanceAs (Decidable (_ ∧ _))

/-- Values behind `prev`, in units of 2^-1074; `delta` is the last rounded difference, and
`carried` what the decoded delta differs from it. -/
def Recovers (prev delta carried : Int) : List Int → Prop
  | [] => True
  | x :: xs => RecoversNext prev delta carried x ∧
    Recovers x (roundInt 53 (x - prev)) (carriedError prev delta carried x) xs

instance decidableRecovers : (prev delta carried : Int) → (xs : List Int) →
    Decidable (Recovers prev delta carried xs)
  | _, _, _, [] => isTrue trivial
  | prev, delta, carried, x :: xs =>
    have := decidableRecovers x (roundInt 53 (x - prev)) (carriedError prev delta carried x) xs
    inferInstanceAs (Decidable (RecoversNext prev delta carried x ∧
      Recovers x (roundInt 53 (x - prev)) (carriedError prev delta carried x) xs))

/-- No value behind the first is a negative zero, and the errors are absorbed. -/
def Lossless : List F64 → Prop
  | [] => True
  | first :: rest => F64.negZero ∉ rest ∧
    Recovers first.toInt first.toInt 0 (rest.map F64.toInt)

instance : (values : List F64) → Decidable (Lossless values)
  | [] => isTrue trivial
  | _ :: _ => inferInstanceAs (Decidable (_ ∧ _))

/-- The decoded delta is the rounded difference with the error carried. -/
theorem add_carriedError (prev delta delta' x : Int) :
    roundInt 53 (x - prev) + carriedError prev delta (delta' - delta) x =
      roundInt 53 (delta' + roundInt 53 (roundInt 53 (x - prev) - delta)) := by
  rw [carriedError, roundingError, roundingError, add_sub_cancel]
  ring

section Next
variable {P D D' x : F64} (hP : P.IsFinite) (hD : D.IsFinite) (hD' : D'.IsFinite)

include hD' in
/-- No decoded delta behind the first is a negative zero. -/
theorem decodedDelta_ne_negZero (hzero : D' = F64.negZero → D = F64.negZero)
    (h : (F64.add D' (F64.sub (F64.sub x P) D)).IsFinite) :
    F64.add D' (F64.sub (F64.sub x P) D) ≠ F64.negZero := by
  have hS := (F64.finite_of_add h).2
  refine F64.add_ne_negZero hD' hS ?_
  by_cases hD'zero : D' = F64.negZero
  · right
    rw [hzero hD'zero]
    exact F64.sub_negZero_ne_negZero (F64.finite_of_sub hS).1
  · exact Or.inl hD'zero

variable (hx : x.IsFinite)
include hP hD hD' hx

/-- The decoded delta, where it is finite. -/
theorem toInt_decodedDelta (h : (F64.add D' (F64.sub (F64.sub x P) D)).IsFinite) :
    (F64.sub x P).toInt = roundInt 53 (x.toInt - P.toInt) ∧
      (F64.add D' (F64.sub (F64.sub x P) D)).toInt = roundInt 53 (x.toInt - P.toInt) +
        carriedError P.toInt D.toInt (D'.toInt - D.toInt) x.toInt := by
  have hS := (F64.finite_of_add h).2
  have hD1 := (F64.finite_of_sub hS).1
  have hd := F64.toInt_sub hx hP hD1
  refine ⟨hd, ?_⟩
  rw [F64.toInt_add hD' hS h, F64.toInt_sub hD1 hD hS, hd, add_carriedError]

theorem isFinite_decodedDelta_iff : (F64.add D' (F64.sub (F64.sub x P) D)).IsFinite ↔
    F64.Fits (roundInt 53 (x.toInt - P.toInt)) ∧
    F64.Fits (roundInt 53 (roundInt 53 (x.toInt - P.toInt) - D.toInt)) ∧
    F64.Fits (roundInt 53 (x.toInt - P.toInt) +
      carriedError P.toInt D.toInt (D'.toInt - D.toInt) x.toInt) := by
  rw [add_carriedError]
  constructor
  · intro h
    have hS := (F64.finite_of_add h).2
    have hD1 := (F64.finite_of_sub hS).1
    have hs := (F64.isFinite_sub_iff hD1 hD).mp hS
    have he := (F64.isFinite_add_iff hD' hS).mp h
    rw [F64.toInt_sub hD1 hD hS] at he
    rw [F64.toInt_sub hx hP hD1] at hs he
    exact ⟨(F64.isFinite_sub_iff hx hP).mp hD1, hs, he⟩
  · rintro ⟨hd, hs, he⟩
    have hD1 := (F64.isFinite_sub_iff hx hP).mpr hd
    rw [← F64.toInt_sub hx hP hD1] at hs he
    have hS := (F64.isFinite_sub_iff hD1 hD).mpr hs
    rw [← F64.toInt_sub hD1 hD hS] at he
    exact (F64.isFinite_add_iff hD' hS).mpr he

/-- One value under both rounds. -/
theorem next_eq_iff (hzero : D' = F64.negZero → D = F64.negZero) :
    F64.add P (F64.add D' (F64.sub (F64.sub x P) D)) = x ↔ x ≠ F64.negZero ∧
      RecoversNext P.toInt D.toInt (D'.toInt - D.toInt) x.toInt := by
  have hsum (c : Int) : P.toInt + (roundInt 53 (x.toInt - P.toInt) + c) =
      x.toInt + (roundingError (x.toInt - P.toInt) + c) := by
    rw [roundingError]
    ring
  have habsorbs := roundInt_add_eq_iff (p := 53) (by omega) (F64.ulp_dvd_toInt x)
    (roundingError (x.toInt - P.toInt) + carriedError P.toInt D.toInt (D'.toInt - D.toInt) x.toInt)
  constructor
  · intro heq
    have hsumFinite : (F64.add P (F64.add D' (F64.sub (F64.sub x P) D))).IsFinite := heq.symm ▸ hx
    have hE := (F64.finite_of_add hsumFinite).2
    obtain ⟨hd, hs, he⟩ := (isFinite_decodedDelta_iff hP hD hD' hx).mp hE
    have hvalue := F64.toInt_add hP hE hsumFinite
    rw [heq, (toInt_decodedDelta hP hD hD' hx hE).2, hsum] at hvalue
    refine ⟨?_, hd, hs, he, habsorbs.mp hvalue.symm⟩
    rw [← heq]
    exact F64.add_ne_negZero hP hE (Or.inr (decodedDelta_ne_negZero hD' hzero hE))
  · rintro ⟨hxzero, hd, hs, he, habsorbed⟩
    have hE := (isFinite_decodedDelta_iff hP hD hD' hx).mpr ⟨hd, hs, he⟩
    have hvalue : roundInt 53 (P.toInt + (F64.add D' (F64.sub (F64.sub x P) D)).toInt) = x.toInt := by
      rw [(toInt_decodedDelta hP hD hD' hx hE).2, hsum]
      exact habsorbs.mpr habsorbed
    have hfinite := (F64.isFinite_add_iff hP hE).mpr (hvalue ▸ F64.fits_toInt hx)
    refine F64.eq_of_toInt ?_ hxzero ((F64.toInt_add hP hE hfinite).trans hvalue)
    exact F64.add_ne_negZero hP hE (Or.inr (decodedDelta_ne_negZero hD' hzero hE))

end Next

/-- The values behind the first under both rounds. -/
theorem sums_differences_iff (p : Platform) (xs : List F64) (hxs : ∀ x ∈ xs, x.IsFinite)
    {P D D' : F64} (hP : P.IsFinite) (hD : D.IsFinite) (hD' : D'.IsFinite)
    (hzero : D' = F64.negZero → D = F64.negZero) :
    sums p.binary64 P (sums p.binary64 D' (differences p.binary64 D (differences p.binary64 P xs))) =
        xs ↔
      F64.negZero ∉ xs ∧ Recovers P.toInt D.toInt (D'.toInt - D.toInt) (xs.map F64.toInt) := by
  induction xs generalizing P D D' with
  | nil => exact iff_of_true rfl ⟨List.not_mem_nil, trivial⟩
  | cons x xs ih =>
    rw [List.forall_mem_cons] at hxs
    have hnext := next_eq_iff hP hD hD' hxs.1 hzero
    show F64.add P (F64.add D' (F64.sub (F64.sub x P) D)) ::
      sums p.binary64 (F64.add P (F64.add D' (F64.sub (F64.sub x P) D)))
        (sums p.binary64 (F64.add D' (F64.sub (F64.sub x P) D))
          (differences p.binary64 (F64.sub x P) (differences p.binary64 x xs))) = x :: xs ↔
      F64.negZero ∉ x :: xs ∧ RecoversNext P.toInt D.toInt (D'.toInt - D.toInt) x.toInt ∧
        Recovers x.toInt (roundInt 53 (x.toInt - P.toInt))
          (carriedError P.toInt D.toInt (D'.toInt - D.toInt) x.toInt) (xs.map F64.toInt)
    rw [List.cons.injEq, List.mem_cons, not_or]
    by_cases hsame : F64.add P (F64.add D' (F64.sub (F64.sub x P) D)) = x
    · obtain ⟨hxzero, hrecovers⟩ := hnext.mp hsame
      have hE := (F64.finite_of_add (hsame.symm ▸ hxs.1 :
        (F64.add P (F64.add D' (F64.sub (F64.sub x P) D))).IsFinite)).2
      have hD1 := (F64.finite_of_sub (F64.finite_of_add hE).2).1
      obtain ⟨hd, he⟩ := toInt_decodedDelta hP hD hD' hxs.1 hE
      have hrest := ih hxs.2 hxs.1 hD1 hE fun h =>
        absurd h (decodedDelta_ne_negZero hD' hzero hE)
      rw [he, hd, add_sub_cancel_left] at hrest
      rw [hsame, hrest]
      constructor
      · rintro ⟨-, hxs', hrest'⟩
        exact ⟨⟨hxzero.symm, hxs'⟩, hrecovers, hrest'⟩
      · rintro ⟨⟨-, hxs'⟩, -, hrest'⟩
        exact ⟨rfl, hxs', hrest'⟩
    · refine iff_of_false (fun h => hsame h.1) ?_
      rintro ⟨⟨hxzero, -⟩, hrecovers, -⟩
      exact hsame (hnext.mpr ⟨Ne.symm hxzero, hrecovers⟩)

theorem length_differences (p : Platform) (prev : F64) (xs : List F64) :
    (differences p prev xs).length = xs.length := by
  induction xs generalizing prev with
  | nil => rfl
  | cons x xs ih => rw [differences, List.length_cons, ih, List.length_cons]

theorem length_computeDoubleDeltas (p : Platform) (values : List F64) :
    (computeDoubleDeltas p values).length = values.length := by
  cases values with
  | nil => rfl
  | cons first rest =>
    rw [computeDoubleDeltas, List.length_cons, length_differences, length_differences,
      List.length_cons]

/-- A column of finite prices comes back exactly if no price behind the first is a negative
zero, nothing overflows, and each price absorbs the errors of its deltas. -/
theorem price_column_roundtrip_iff (p : Platform) (values : List F64)
    (hfinite : ∀ x ∈ values, x.IsFinite) (hlength : values.length < 2 ^ 32) :
    decodeDoubleDelta p.binary64 (encodeDoubleDelta p.binary64 values) = some values ↔
      Lossless values := by
  rw [decodeDoubleDelta, encodeDoubleDelta,
    decode_encode_values _ (by rwa [length_computeDoubleDeltas]), Option.map_some, Option.some_inj]
  cases values with
  | nil => exact iff_of_true rfl trivial
  | cons first rest =>
    rw [List.forall_mem_cons] at hfinite
    rw [computeDoubleDeltas, reconstructFromDoubleDeltas, List.cons.injEq, and_iff_right rfl,
      sums_differences_iff p rest hfinite.2 hfinite.1 hfinite.1 hfinite.1 id, sub_self]
    rfl

/-- A multiple of the unit `2 ^ k` that leaves two of the 53 bits free. -/
def SharesUnit (k : Nat) (n : Int) : Prop := (2 ^ k : Int) ∣ n ∧ n.natAbs < 2 ^ (51 + k)

/-- Where all values share a unit nothing is rounded. -/
theorem recovers_of_common_unit {k : Nat} (hk : 53 + k ≤ 2098) (xs : List Int)
    (hxs : ∀ x ∈ xs, SharesUnit k x) {prev delta : Int} (hprev : SharesUnit k prev)
    (hdelta : (2 ^ k : Int) ∣ delta) (hsize : delta.natAbs < 2 ^ (52 + k)) :
    Recovers prev delta 0 xs := by
  have hpow51 : 2 ^ (52 + k) = 2 * 2 ^ (51 + k) := by
    rw [show 52 + k = 51 + k + 1 by omega, Nat.pow_succ']
  have hpow52 : 2 ^ (53 + k) = 2 * 2 ^ (52 + k) := by
    rw [show 53 + k = 52 + k + 1 by omega, Nat.pow_succ']
  have hexact {n : Int} (hdvd : (2 ^ k : Int) ∣ n) (hn : n.natAbs < 2 ^ (53 + k)) :
      roundInt 53 n = n := roundInt_of_common_unit (by omega) hdvd hn
  have hfits {n : Int} (hn : n.natAbs < 2 ^ (53 + k)) : F64.Fits n :=
    lt_of_lt_of_le hn ((F64.two_pow_le_overflowLimit_iff _).mpr hk)
  induction xs generalizing prev delta with
  | nil => trivial
  | cons x xs ih =>
    rw [List.forall_mem_cons] at hxs
    obtain ⟨⟨hxdvd, hxsize⟩, hrest⟩ := hxs
    have hd : (2 ^ k : Int) ∣ x - prev := Int.dvd_sub hxdvd hprev.1
    have hdsize : (x - prev).natAbs < 2 ^ (52 + k) := by
      have := hprev.2
      omega
    have hs : (2 ^ k : Int) ∣ x - prev - delta := Int.dvd_sub hd hdelta
    have hssize : (x - prev - delta).natAbs < 2 ^ (53 + k) := by omega
    have hround : roundInt 53 (x - prev) = x - prev := hexact hd (by omega)
    have hround' : roundInt 53 (x - prev - delta) = x - prev - delta := hexact hs hssize
    have hcarried : carriedError prev delta 0 x = 0 := by
      rw [carriedError, roundingError, roundingError, hround, hround', add_zero,
        add_sub_cancel, hround]
      ring
    have herror : roundingError (x - prev) = 0 := by rw [roundingError, hround, sub_self]
    rw [Recovers, RecoversNext, hcarried, herror, hround, hround', add_zero, add_zero]
    exact ⟨⟨hfits (by omega), hfits hssize, hfits (by omega), absorbs_zero x⟩,
      ih hrest ⟨hxdvd, hxsize⟩ hd hdsize⟩

/-- Prices on a common grid are not lost. -/
theorem lossless_of_common_unit {k : Nat} (hk : 53 + k ≤ 2098) {values : List F64}
    (hvalues : ∀ x ∈ values, SharesUnit k x.toInt) (hzero : F64.negZero ∉ values.tail) :
    Lossless values := by
  cases values with
  | nil => trivial
  | cons first rest =>
    rw [List.forall_mem_cons] at hvalues
    have hsize : first.toInt.natAbs < 2 ^ (52 + k) :=
      lt_of_lt_of_le hvalues.1.2 (Nat.pow_le_pow_right (by omega) (by omega))
    refine ⟨hzero, recovers_of_common_unit hk _ ?_ hvalues.1 hvalues.1.1 hsize⟩
    simpa using hvalues.2

/-- A hundred, a hundredth more each time. -/
def risingPrices : List F64 := [⟨0x4059000000000000⟩, ⟨0x405900A3D70A3D71⟩, ⟨0x40590147AE147AE1⟩]

theorem price_column_roundtrip_rising :
    decodeDoubleDelta (Platform.simple.binary64)
      (encodeDoubleDelta (Platform.simple.binary64) risingPrices) = some risingPrices :=
  (price_column_roundtrip_iff .simple risingPrices (by decide +kernel) (by decide)).mpr
    (by decide +kernel)

/-- Fifty thousand, and a tenth behind it. -/
def twoSymbolPrices : List F64 := [⟨0x40E86A0000000000⟩, ⟨0x3FB999999999999A⟩]

theorem small_price_lost : (∀ x ∈ twoSymbolPrices, x.IsFinite) ∧
    decodeDoubleDelta (Platform.simple.binary64)
      (encodeDoubleDelta (Platform.simple.binary64) twoSymbolPrices) ≠ some twoSymbolPrices := by
  decide +kernel

end Gorilla

end Graphite
