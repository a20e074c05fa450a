import Graphite.GqlBuckets
import Mathlib.Data.Rat.Cast.Order
import Mathlib.Tactic.NormNum

/-! The four aggregates beside each other. They share the bars, but the count does not look at
them and the average looks past them at all samples. -/

namespace Graphite.Gql.Executor

def totalVolume (xs : List (Sample ℚ)) : ℚ := (xs.map fun x => (x.volume.toNat : ℚ)).sum

/-- What a bucket's row holds as its value; the bars have none. -/
def valueOf (xs : List (Sample ℚ)) : AggregateFn → Option ℚ
  | .ohlcv => none
  | .sum => some (totalVolume xs)
  | .count => some xs.length
  | .vwap => some (if totalVolume xs = 0 then 0
      else (xs.map fun x => x.close * (x.volume.toNat : ℚ)).sum / totalVolume xs)

/-- All aggregates give one row for each bucket, at the same times in the same order, with
the value of its samples. -/
def GroupsAlike (interval : Interval) (symbol : String) (samples : List (Sample ℚ)) : Prop :=
  ∃ times : List Int64, times.Nodup ∧
    (∀ b, b ∈ times ↔ ∃ x ∈ samples, bucket interval x.timestamp = b) ∧
    ∀ fn, ∃ rows, aggregate rational samples ⟨interval, fn⟩ symbol = some rows ∧
      rows.map ResultRow.timestamp = times ∧
      ∀ row ∈ rows, ∀ v ∈ valueOf (members interval samples row.timestamp) fn, row.close = v

theorem aggregate_vwap_eq_some {interval : Interval} {symbol : String}
    {samples : List (Sample ℚ)} {rows : List (ResultRow ℚ)}
    (h : aggregate rational samples ⟨interval, .vwap⟩ symbol = some rows) :
    ∃ row, rows = [row] ∧ row.timestamp = (samples.head?.map Sample.timestamp).getD 0 := by
  rw [aggregate, Option.bind_eq_bind, Option.bind_eq_some_iff] at h
  obtain ⟨bars, -, h⟩ := h
  dsimp only at h
  rw [vwapRow, Option.bind_eq_bind, Option.bind_eq_bind, Option.bind_assoc,
    Option.bind_eq_some_iff] at h
  obtain ⟨sums, -, h⟩ := h
  exact ⟨_, (Option.some.inj h).symm, rfl⟩

theorem aggregate_count_eq_some {interval : Interval} {symbol : String}
    {samples : List (Sample ℚ)} {rows : List (ResultRow ℚ)}
    (h : aggregate rational samples ⟨interval, .count⟩ symbol = some rows) :
    ∀ row ∈ rows, row.close = 1 := by
  rw [aggregate, Option.bind_eq_bind, Option.bind_eq_some_iff] at h
  obtain ⟨bars, -, h⟩ := h
  intro row hrow
  rw [← Option.some.inj h] at hrow
  obtain ⟨bar, -, rfl⟩ := List.mem_map.mp hrow
  rfl

/-- The average's only row leaves room for one bucket, and the count's 1 for one sample. -/
theorem singleton_of_groupsAlike {interval : Interval} {symbol : String}
    {samples : List (Sample ℚ)} (h : GroupsAlike interval symbol samples) :
    ∃ x, samples = [x] ∧ interval.nanos.toInt ∣ x.timestamp.toInt := by
  obtain ⟨times, -, hmem, hrows⟩ := h
  obtain ⟨vwapRows, hvwap, htimes, -⟩ := hrows .vwap
  obtain ⟨row, rfl, hts⟩ := aggregate_vwap_eq_some hvwap
  obtain ⟨countRows, hcount, hcountTimes, hvalue⟩ := hrows .count
  rw [← htimes, List.map_singleton] at hmem hcountTimes
  obtain ⟨countRow, rfl⟩ : ∃ countRow, countRows = [countRow] := by
    rw [← List.length_eq_one_iff, ← List.length_map, hcountTimes, List.length_singleton]
  have hcountTs : countRow.timestamp = row.timestamp := by simpa using hcountTimes
  have hbucket : ∀ x ∈ samples, bucket interval x.timestamp = row.timestamp :=
    fun x hx => List.mem_singleton.mp ((hmem _).mpr ⟨x, hx, rfl⟩)
  have hall : members interval samples countRow.timestamp = samples := by
    rw [members, List.filter_eq_self]
    intro x hx
    rw [hcountTs]
    exact decide_eq_true (hbucket x hx)
  have hlength : samples.length = 1 := by
    have hone := aggregate_count_eq_some hcount countRow (List.mem_singleton_self _)
    have hlen := hvalue countRow (List.mem_singleton_self _) _ rfl
    rw [hone, hall] at hlen
    exact_mod_cast hlen.symm
  obtain ⟨x, rfl⟩ := List.length_eq_one_iff.mp hlength
  refine ⟨x, rfl, ?_⟩
  have hx := hbucket x (List.mem_singleton_self x)
  have hxts : row.timestamp = x.timestamp := hts
  rw [hxts] at hx
  rw [← hx]
  exact dvd_bucket interval x.timestamp

theorem groupsAlike_singleton {interval : Interval} {symbol : String} {x : Sample ℚ}
    (h : interval.nanos.toInt ∣ x.timestamp.toInt) : GroupsAlike interval symbol [x] := by
  have hbucket : bucket interval x.timestamp = x.timestamp := by
    rw [← Int64.toInt_inj, toInt_bucket, Int.tdiv_mul_cancel h]
  have hmembers : members interval [x] x.timestamp = [x] := by
    rw [members, List.filter_singleton, hbucket, decide_eq_true rfl]
    rfl
  have hbars : barsOf rational interval [x] = some [x] := by
    rw [barsOf, List.foldlM_cons, addSample, newBar, hbucket]
    rfl
  have hrow : ∀ fn, ∃ row, aggregate rational [x] ⟨interval, fn⟩ symbol = some [row] ∧
      row.timestamp = x.timestamp ∧ ∀ v ∈ valueOf [x] fn, row.close = v := by
    intro fn
    cases fn with
    | ohlcv => exact ⟨ohlcvRow symbol x, by rw [aggregate, hbars]; rfl, rfl, by simp [valueOf]⟩
    | sum =>
      refine ⟨sumRow rational symbol x, by rw [aggregate, hbars]; rfl, rfl, ?_⟩
      simp [valueOf, totalVolume, sumRow, rational]
    | count =>
      refine ⟨countRow rational symbol x, by rw [aggregate, hbars]; rfl, rfl, ?_⟩
      simp [valueOf, countRow, rational]
    | vwap =>
      have hsums : vwapSums rational [x] = some (x.close * x.volume.toNat, x.volume) := by
        have hroom : x.volume.toNat < 18446744073709551616 := x.volume.toNat_lt
        simp [vwapSums, checkedAddU64, hroom, rational]
      refine ⟨_, by rw [aggregate, hbars, Option.bind_eq_bind, Option.bind_some, vwapRow, hsums]; rfl,
        rfl, ?_⟩
      have hpos : (x.volume > 0) = ((x.volume.toNat : ℚ) ≠ 0) := by
        rw [gt_iff_lt, UInt64.lt_iff_toNat_lt, Ne, Nat.cast_eq_zero]
        exact propext Nat.pos_iff_ne_zero
      simp [valueOf, totalVolume, hpos, rational]
  refine ⟨[x.timestamp], List.nodup_singleton _, fun b => by simp [hbucket, eq_comm], fun fn => ?_⟩
  obtain ⟨row, hagg, hts, hvalue⟩ := hrow fn
  refine ⟨[row], hagg, by rw [List.map_singleton, hts], fun row' hmem => ?_⟩
  rw [List.mem_singleton.mp hmem, hts, hmembers]
  exact hvalue

/-- The aggregates group alike on one tick at the border of an interval, and nowhere else. -/
theorem groups_alike_iff (interval : Interval) (symbol : String) (samples : List (Sample ℚ)) :
    GroupsAlike interval symbol samples ↔
      ∃ x, samples = [x] ∧ interval.nanos.toInt ∣ x.timestamp.toInt := by
  constructor
  · exact singleton_of_groupsAlike
  · rintro ⟨x, rfl, h⟩
    exact groupsAlike_singleton h

/-- Two ticks of one second are counted as one. -/
theorem two_ticks_counted_once : ¬ ∀ (interval : Interval) (samples : List (Sample ℚ)),
    (samples.Pairwise fun x y => x.timestamp.toInt < y.timestamp.toInt) →
      GroupsAlike interval "AAPL" samples := by
  intro h
  obtain ⟨x, hx, -⟩ := singleton_of_groupsAlike
    (h .sec1 [⟨0, 1, 1, 1, 1, 5⟩, ⟨1, 2, 2, 2, 2, 7⟩] (by decide))
  cases hx

end Graphite.Gql.Executor
