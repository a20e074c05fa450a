import Mathlib.Data.List.Induction
import Mathlib.Data.List.Pairwise
import Mathlib.Algebra.Order.Ring.Rat
import Mathlib.Order.Bounds.Basic
import Graphite.GqlExecutor

/-! The bars of the aggregation. A bar takes the samples of one bucket; the buckets below
zero end at their time stamp, and the one of zero is twice as wide, for the quotient is
rounded towards zero. -/

namespace Graphite.Gql.Executor

/-- At or after zero, or at the border of an interval. -/
def Aligned (interval : Interval) (t : Int64) : Prop :=
  0 ≤ t.toInt ∨ interval.nanos.toInt ∣ t.toInt

instance decidableAligned (interval : Interval) (t : Int64) : Decidable (Aligned interval t) :=
  inferInstanceAs (Decidable (_ ∨ _))

theorem nanos_pos (interval : Interval) : 0 < interval.nanos.toInt := by
  cases interval <;> decide

theorem tdiv_mul_of_nonneg {n t : Int} (h : 0 ≤ t) : t.tdiv n * n = t / n * n := by
  rw [Int.tdiv_eq_ediv_of_nonneg h]

theorem tdiv_mul_of_neg {n t : Int} (h : t < 0) : t.tdiv n * n = -(-t / n * n) := by
  have hneg : (-t).tdiv n = -t / n := Int.tdiv_eq_ediv_of_nonneg (by omega)
  rw [← hneg, Int.neg_tdiv, Int.neg_mul, Int.neg_neg]

theorem ediv_mul_nonneg {n t : Int} (hn : 0 < n) (h : 0 ≤ t) : 0 ≤ t / n * n :=
  Int.mul_nonneg (Int.ediv_nonneg h hn.le) hn.le

theorem toInt_bucket (interval : Interval) (t : Int64) :
    (bucket interval t).toInt = t.toInt.tdiv interval.nanos.toInt * interval.nanos.toInt := by
  have hpos := nanos_pos interval
  have hlo := t.le_toInt
  have hhi := t.toInt_lt
  have hbound : -2 ^ 63 ≤ t.toInt.tdiv interval.nanos.toInt * interval.nanos.toInt ∧
      t.toInt.tdiv interval.nanos.toInt * interval.nanos.toInt < 2 ^ 63 := by
    by_cases h : 0 ≤ t.toInt
    · rw [tdiv_mul_of_nonneg h]
      have hle := Int.ediv_mul_le t.toInt hpos.ne'
      have hnonneg := ediv_mul_nonneg hpos h
      omega
    · rw [tdiv_mul_of_neg (not_le.mp h)]
      have hle := Int.ediv_mul_le (-t.toInt) hpos.ne'
      have hnonneg := ediv_mul_nonneg hpos (show 0 ≤ -t.toInt by omega)
      omega
  rw [bucket, Int64.toInt_mul, Int64.toInt_div_of_ne_right _ _ (by cases interval <;> decide)]
  exact Int.bmod_eq_of_le hbound.1 hbound.2

theorem dvd_bucket (interval : Interval) (t : Int64) :
    interval.nanos.toInt ∣ (bucket interval t).toInt := by
  rw [toInt_bucket]
  exact Int.dvd_mul_left _ _

theorem bucket_mono (interval : Interval) {s t : Int64} (h : s.toInt ≤ t.toInt) :
    (bucket interval s).toInt ≤ (bucket interval t).toInt := by
  have hpos := nanos_pos interval
  rw [toInt_bucket, toInt_bucket]
  by_cases hs : 0 ≤ s.toInt
  · rw [tdiv_mul_of_nonneg hs, tdiv_mul_of_nonneg (hs.trans h)]
    exact Int.mul_le_mul_of_nonneg_right (Int.ediv_le_ediv hpos h) hpos.le
  · rw [tdiv_mul_of_neg (not_le.mp hs)]
    have hsnonneg := ediv_mul_nonneg hpos (show 0 ≤ -s.toInt by omega)
    by_cases ht : 0 ≤ t.toInt
    · rw [tdiv_mul_of_nonneg ht]
      have htnonneg := ediv_mul_nonneg hpos ht
      omega
    · rw [tdiv_mul_of_neg (not_le.mp ht)]
      have hle := Int.mul_le_mul_of_nonneg_right
        (Int.ediv_le_ediv hpos (show -t.toInt ≤ -s.toInt by omega)) hpos.le
      omega

/-- An aligned time is in the interval that its bucket names, and in no other. -/
theorem Aligned.mem_iff {interval : Interval} {t : Int64} (h : Aligned interval t) {b : Int}
    (hb : interval.nanos.toInt ∣ b) :
    b ≤ t.toInt ∧ t.toInt < b + interval.nanos.toInt ↔ b = (bucket interval t).toInt := by
  have hpos := nanos_pos interval
  have hbucket : (bucket interval t).toInt = t.toInt / interval.nanos.toInt * interval.nanos.toInt := by
    rw [toInt_bucket]
    rcases h with h | h
    · exact tdiv_mul_of_nonneg h
    · rw [Int.tdiv_mul_cancel h, Int.ediv_mul_cancel h]
  obtain ⟨k, rfl⟩ := hb
  rw [hbucket, Int.mul_comm _ k, ← Int.ediv_eq_iff_of_pos hpos]
  constructor
  · intro hk
    rw [hk]
  · intro hk
    exact Int.eq_of_mul_eq_mul_right hpos.ne' hk.symm

/-- Another time lies behind the interval of its bucket: whatever the bucket before it takes
is earlier. -/
theorem exists_gap {interval : Interval} {t : Int64} (h : ¬ Aligned interval t) :
    ∃ f : Int, f < t.toInt ∧
      (∀ b : Int, interval.nanos.toInt ∣ b →
        b ≤ t.toInt ∧ t.toInt < b + interval.nanos.toInt → b = f) ∧
      ∀ s : Int64, (bucket interval s).toInt = f → s.toInt ≤ f := by
  obtain ⟨hneg, hdvd⟩ := not_or.mp h
  have hpos := nanos_pos interval
  have hle := Int.ediv_mul_le t.toInt hpos.ne'
  have hne : t.toInt / interval.nanos.toInt * interval.nanos.toInt ≠ t.toInt := by
    intro heq
    exact hdvd ⟨_, (heq.symm.trans (Int.mul_comm _ _))⟩
  refine ⟨t.toInt / interval.nanos.toInt * interval.nanos.toInt, by omega, ?_, fun s hs => ?_⟩
  · rintro b ⟨k, rfl⟩ hb
    rw [Int.mul_comm, ← Int.ediv_eq_iff_of_pos hpos] at hb
    rw [hb, Int.mul_comm]
  · rw [toInt_bucket] at hs
    by_cases hsneg : 0 ≤ s.toInt
    · rw [tdiv_mul_of_nonneg hsneg] at hs
      have := ediv_mul_nonneg hpos hsneg
      omega
    · rw [tdiv_mul_of_neg (not_le.mp hsneg)] at hs
      have := Int.ediv_mul_le (-s.toInt) hpos.ne'
      omega

/-- The greatest and the least price are those of a linear order. -/
def ordered {π : Type} [LinearOrder π] (A : PriceArith π) : PriceArith π :=
  { A with max := Max.max, min := Min.min }

variable {π : Type}

/-- The time and the volume of a sample, without its prices. -/
def stamp (x : Sample π) : Int64 × UInt64 := (x.timestamp, x.volume)

def members (interval : Interval) (samples : List (Sample π)) (b : Int64) : List (Sample π) :=
  samples.filter fun x => bucket interval x.timestamp = b

/-- The sum of the volumes in a bucket. -/
def volumeIn (interval : Interval) (stamps : List (Int64 × UInt64)) (b : Int64) : Nat :=
  ((stamps.filter fun e => bucket interval e.1 = b).map fun e => e.2.toNat).sum

/-- No bucket's volume leaves `u64`. -/
def VolumesFit (interval : Interval) (stamps : List (Int64 × UInt64)) : Prop :=
  ∀ b, volumeIn interval stamps b < 2 ^ 64

theorem members_concat (interval : Interval) (samples : List (Sample π)) (x : Sample π) (b : Int64) :
    members interval (samples ++ [x]) b =
      members interval samples b ++ if bucket interval x.timestamp = b then [x] else [] := by
  rw [members, List.filter_append, List.filter_singleton]
  simp [members]

theorem volumeIn_concat (interval : Interval) (samples : List (Sample π)) (x : Sample π) (b : Int64) :
    volumeIn interval ((samples ++ [x]).map stamp) b =
      volumeIn interval (samples.map stamp) b +
        if bucket interval x.timestamp = b then x.volume.toNat else 0 := by
  rw [volumeIn, List.map_append, List.filter_append, List.map_append, List.sum_append, volumeIn,
    List.map_singleton, List.filter_singleton]
  split_ifs <;> simp_all [stamp]

theorem volumesFit_concat (interval : Interval) (samples : List (Sample π)) (x : Sample π) :
    VolumesFit interval ((samples ++ [x]).map stamp) ↔ VolumesFit interval (samples.map stamp) ∧
      volumeIn interval ((samples ++ [x]).map stamp) (bucket interval x.timestamp) < 2 ^ 64 := by
  constructor
  · intro h
    refine ⟨fun b => ?_, h _⟩
    have hb := h b
    rw [volumeIn_concat] at hb
    omega
  · rintro ⟨h, hlast⟩ b
    by_cases hb : bucket interval x.timestamp = b
    · rwa [← hb]
    · rw [volumeIn_concat, if_neg hb]
      exact h b

section Fold
variable [LinearOrder π] (A : PriceArith π) (interval : Interval)

/-- Four prices sum up a list of samples. -/
structure Summary (xs : List (Sample π)) (open_ high low close : π) : Prop where
  open_eq : xs.head?.map Sample.open_ = some open_
  close_eq : xs.getLast?.map Sample.close = some close
  high_greatest : IsGreatest {p | ∃ x ∈ xs, x.high = p} high
  low_least : IsLeast {p | ∃ x ∈ xs, x.low = p} low

theorem Summary.exists_mem {xs : List (Sample π)} {open_ high low close : π}
    (h : Summary xs open_ high low close) : ∃ x, x ∈ xs := by
  obtain ⟨x, hx, -⟩ := h.high_greatest.1
  exact ⟨x, hx⟩

theorem summary_singleton (x : Sample π) : Summary [x] x.open_ x.high x.low x.close where
  open_eq := rfl
  close_eq := rfl
  high_greatest := by simp
  low_least := by simp

theorem Summary.concat {xs : List (Sample π)} {open_ high low close : π}
    (h : Summary xs open_ high low close) (x : Sample π) :
    Summary (xs ++ [x]) open_ (max high x.high) (min low x.low) x.close where
  open_eq := by
    rw [List.head?_append_of_ne_nil]
    · exact h.open_eq
    · rintro rfl
      simpa using h.exists_mem
  close_eq := by simp
  high_greatest := by
    have hset : {p | ∃ y ∈ xs ++ [x], y.high = p} = insert x.high {p | ∃ y ∈ xs, y.high = p} := by
      ext p
      simp [or_and_right, exists_or, or_comm, eq_comm]
    rw [hset, max_comm]
    exact h.high_greatest.insert x.high
  low_least := by
    have hset : {p | ∃ y ∈ xs ++ [x], y.low = p} = insert x.low {p | ∃ y ∈ xs, y.low = p} := by
      ext p
      simp [or_and_right, exists_or, or_comm, eq_comm]
    rw [hset, min_comm]
    exact h.low_least.insert x.low

/-- The bars, the last one first, of the samples so far. -/
structure BarsOf (samples bars : List (Sample π)) : Prop where
  decreasing : bars.Pairwise fun bar before => before.timestamp.toInt < bar.timestamp.toInt
  covers : ∀ x ∈ samples, ∃ bar ∈ bars, bar.timestamp = bucket interval x.timestamp
  summary : ∀ bar ∈ bars,
    Summary (members interval samples bar.timestamp) bar.open_ bar.high bar.low bar.close
  volume : ∀ bar ∈ bars, bar.volume.toNat = volumeIn interval (samples.map stamp) bar.timestamp

variable {A interval}

/-- A bar's time stamp is the bucket of a sample. -/
theorem BarsOf.exists_sample {samples bars : List (Sample π)} (h : BarsOf interval samples bars)
    {bar : Sample π} (hbar : bar ∈ bars) :
    ∃ x ∈ samples, bucket interval x.timestamp = bar.timestamp := by
  obtain ⟨x, hx⟩ := (h.summary bar hbar).exists_mem
  obtain ⟨hmem, hbucket⟩ := List.mem_filter.mp hx
  exact ⟨x, hmem, of_decide_eq_true hbucket⟩

theorem BarsOf.eq_of_timestamp {samples bars : List (Sample π)} (h : BarsOf interval samples bars)
    {bar bar' : Sample π} (hbar : bar ∈ bars) (hbar' : bar' ∈ bars)
    (heq : bar.timestamp = bar'.timestamp) : bar = bar' := by
  by_contra hne
  have hdistinct : bars.Pairwise fun a b => a.timestamp ≠ b.timestamp :=
    h.decreasing.imp fun hlt heq => by simp [heq] at hlt
  have : Std.Symm fun a b : Sample π => a.timestamp ≠ b.timestamp := ⟨fun _ _ => Ne.symm⟩
  exact hdistinct.forall hbar hbar' hne heq

/-- A sample of a later bucket starts a bar. -/
theorem BarsOf.push {samples bars : List (Sample π)} (h : BarsOf interval samples bars)
    {x : Sample π} (hlater : ∀ y ∈ samples, y.timestamp.toInt ≤ x.timestamp.toInt)
    (hnew : ∀ bar ∈ bars, bar.timestamp ≠ bucket interval x.timestamp) :
    BarsOf interval (samples ++ [x]) (newBar interval x :: bars) := by
  have hempty : members interval samples (bucket interval x.timestamp) = [] := by
    rw [members, List.filter_eq_nil_iff]
    intro y hy hbucket
    obtain ⟨bar, hbar, hts⟩ := h.covers y hy
    exact hnew bar hbar (hts.trans (of_decide_eq_true hbucket))
  have hzero : volumeIn interval (samples.map stamp) (bucket interval x.timestamp) = 0 := by
    have hnone : (samples.map stamp).filter
        (fun e => bucket interval e.1 = bucket interval x.timestamp) = [] := by
      rw [List.filter_map, List.map_eq_nil_iff]
      exact hempty
    rw [volumeIn, hnone]
    rfl
  refine ⟨?_, fun y hy => ?_, fun bar hbar => ?_, fun bar hbar => ?_⟩
  · refine List.pairwise_cons.mpr ⟨fun bar hbar => ?_, h.decreasing⟩
    obtain ⟨y, hy, hts⟩ := h.exists_sample hbar
    have hle := bucket_mono interval (hlater y hy)
    rw [hts] at hle
    exact lt_of_le_of_ne hle fun heq => hnew bar hbar (Int64.toInt_inj.mp heq)
  · rcases List.mem_append.mp hy with hy | hy
    · obtain ⟨bar, hbar, hts⟩ := h.covers y hy
      exact ⟨bar, List.mem_cons_of_mem _ hbar, hts⟩
    · rw [List.mem_singleton.mp hy]
      exact ⟨newBar interval x, List.mem_cons_self, rfl⟩
  · rcases List.mem_cons.mp hbar with rfl | hbar
    · have hts : (newBar interval x).timestamp = bucket interval x.timestamp := rfl
      rw [hts, members_concat, hempty, if_pos rfl]
      exact summary_singleton x
    · rw [members_concat, if_neg (hnew bar hbar).symm, List.append_nil]
      exact h.summary bar hbar
  · rcases List.mem_cons.mp hbar with rfl | hbar
    · have hts : (newBar interval x).timestamp = bucket interval x.timestamp := rfl
      rw [hts, volumeIn_concat, hzero, if_pos rfl, Nat.zero_add]
      rfl
    · rw [volumeIn_concat, if_neg (hnew bar hbar).symm]
      exact h.volume bar hbar

/-- A sample of the last bar's bucket goes into it. -/
theorem BarsOf.extend {samples bars : List (Sample π)} {bar : Sample π}
    (h : BarsOf interval samples (bar :: bars)) {x : Sample π}
    (hbucket : bar.timestamp = bucket interval x.timestamp)
    (hroom : bar.volume.toNat + x.volume.toNat < 2 ^ 64) :
    BarsOf interval (samples ++ [x])
      ({ bar with high := max bar.high x.high, low := min bar.low x.low, close := x.close,
                  volume := bar.volume + x.volume } :: bars) := by
  obtain ⟨hfirst, hrest⟩ := List.pairwise_cons.mp h.decreasing
  have hother : ∀ other ∈ bars, other.timestamp ≠ bucket interval x.timestamp := by
    intro other hmem heq
    have hlt := hfirst other hmem
    rw [heq, hbucket] at hlt
    exact lt_irrefl _ hlt
  refine ⟨List.pairwise_cons.mpr ⟨hfirst, hrest⟩, fun y hy => ?_, fun other hmem => ?_,
    fun other hmem => ?_⟩
  · rcases List.mem_append.mp hy with hy | hy
    · obtain ⟨other, hmem, hts⟩ := h.covers y hy
      rcases List.mem_cons.mp hmem with rfl | hmem
      · exact ⟨_, List.mem_cons_self, hts⟩
      · exact ⟨other, List.mem_cons_of_mem _ hmem, hts⟩
    · rw [List.mem_singleton.mp hy]
      exact ⟨_, List.mem_cons_self, hbucket⟩
  · rcases List.mem_cons.mp hmem with rfl | hmem
    · rw [members_concat, if_pos hbucket.symm]
      exact (h.summary bar List.mem_cons_self).concat x
    · rw [members_concat, if_neg (hother other hmem).symm, List.append_nil]
      exact h.summary other (List.mem_cons_of_mem _ hmem)
  · rcases List.mem_cons.mp hmem with rfl | hmem
    · have hvolume := h.volume bar List.mem_cons_self
      rw [volumeIn_concat, if_pos hbucket.symm, ← hvolume, UInt64.toNat_add, Nat.mod_eq_of_lt hroom]
    · rw [volumeIn_concat, if_neg (hother other hmem).symm]
      exact h.volume other (List.mem_cons_of_mem _ hmem)

/-- One round of the loop: the bars of one sample more, or an overflow of its bucket's volume. -/
theorem BarsOf.addSample {samples bars : List (Sample π)} (h : BarsOf interval samples bars)
    {x : Sample π} (hlater : ∀ y ∈ samples, y.timestamp.toInt ≤ x.timestamp.toInt) :
    (volumeIn interval ((samples ++ [x]).map stamp) (bucket interval x.timestamp) < 2 ^ 64 →
      ∃ bars', Executor.addSample (ordered A) interval bars x = some bars' ∧
        BarsOf interval (samples ++ [x]) bars') ∧
    (¬ volumeIn interval ((samples ++ [x]).map stamp) (bucket interval x.timestamp) < 2 ^ 64 →
      Executor.addSample (ordered A) interval bars x = none) := by
  by_cases hlast : ∃ bar rest, bars = bar :: rest ∧ bar.timestamp = bucket interval x.timestamp
  · obtain ⟨bar, rest, rfl, hbucket⟩ := hlast
    have hvolume := h.volume bar List.mem_cons_self
    rw [volumeIn_concat, if_pos rfl, ← hbucket, ← hvolume, Executor.addSample, if_pos hbucket,
      extendBar, checkedAddU64]
    refine ⟨fun hroom => ?_, fun hover => ?_⟩
    · rw [if_pos hroom]
      exact ⟨_, rfl, h.extend hbucket hroom⟩
    · rw [if_neg hover]
      rfl
  · have hnew : ∀ bar ∈ bars, bar.timestamp ≠ bucket interval x.timestamp := by
      intro bar hbar heq
      cases bars with
      | nil => cases hbar
      | cons first rest =>
        rcases List.mem_cons.mp hbar with rfl | hbar
        · exact hlast ⟨bar, rest, rfl, heq⟩
        · obtain ⟨y, hy, hts⟩ := h.exists_sample (List.mem_cons_self (a := first))
          have hle := bucket_mono interval (hlater y hy)
          have hlt := (List.pairwise_cons.mp h.decreasing).1 bar hbar
          rw [hts, ← heq] at hle
          omega
    have hpush := h.push hlater hnew
    have hadd : Executor.addSample (ordered A) interval bars x = some (newBar interval x :: bars) := by
      cases bars with
      | nil => rfl
      | cons first rest => exact if_neg (hnew first List.mem_cons_self)
    have hvolume := hpush.volume (newBar interval x) List.mem_cons_self
    have hts : (newBar interval x).timestamp = bucket interval x.timestamp := rfl
    rw [hts] at hvolume
    refine ⟨fun _ => ⟨_, hadd, hpush⟩, fun hover => absurd ?_ hover⟩
    rw [← hvolume]
    exact UInt64.toNat_lt _

/-- Over samples in the order of their times the loop ends with their bars, or with an
overflow. -/
theorem barsOf_run {samples : List (Sample π)}
    (hsorted : samples.Pairwise fun x y => x.timestamp.toInt < y.timestamp.toInt) :
    (VolumesFit interval (samples.map stamp) →
      ∃ bars, samples.foldlM (addSample (ordered A) interval) [] = some bars ∧
        BarsOf interval samples bars) ∧
    (¬ VolumesFit interval (samples.map stamp) →
      samples.foldlM (addSample (ordered A) interval) [] = none) := by
  induction samples using List.reverseRecOn with
  | nil =>
    refine ⟨fun _ => ⟨[], rfl, ⟨List.Pairwise.nil, by simp, by simp, by simp⟩⟩, fun h => ?_⟩
    exact absurd (fun b => by simp [volumeIn]) h
  | append_singleton samples x ih =>
    obtain ⟨hfront, -, hlast⟩ := List.pairwise_append.mp hsorted
    obtain ⟨hfit, hover⟩ := ih hfront
    rw [volumesFit_concat, List.foldlM_append]
    by_cases hvolumes : VolumesFit interval (samples.map stamp)
    · obtain ⟨bars, hbars, hof⟩ := hfit hvolumes
      obtain ⟨hroom, hnoroom⟩ := hof.addSample (A := A) fun y hy => (hlast y hy x (by simp)).le
      rw [hbars, Option.bind_eq_bind, Option.bind_some, List.foldlM_cons]
      refine ⟨fun h => ?_, fun h => ?_⟩
      · obtain ⟨bars', hadd, hof'⟩ := hroom h.2
        exact ⟨bars', by rw [hadd]; rfl, hof'⟩
      · rw [hnoroom fun hlt => h ⟨hvolumes, hlt⟩]
        rfl
    · refine ⟨fun h => absurd h.1 hvolumes, fun _ => ?_⟩
      rw [hover hvolumes]
      rfl

/-- A sample in the interval that starts at a row's time. -/
def InRow (interval : Interval) (row : ResultRow π) (x : Sample π) : Prop :=
  row.timestamp.toInt ≤ x.timestamp.toInt ∧
    x.timestamp.toInt < row.timestamp.toInt + interval.nanos.toInt

instance decidableInRow (interval : Interval) (row : ResultRow π) (x : Sample π) :
    Decidable (InRow interval row x) :=
  inferInstanceAs (Decidable (_ ∧ _))

/-- The rows are in the order of their times, each sample is in the interval of one of them,
and each sums up the samples in its interval, of which there are some. -/
def Partitions (A : PriceArith π) (interval : Interval) (symbol : String)
    (samples : List (Sample π)) : Prop :=
  ∃ rows, aggregate (ordered A) samples ⟨interval, .ohlcv⟩ symbol = some rows ∧
    rows.Pairwise (fun row next => row.timestamp.toInt < next.timestamp.toInt) ∧
    (∀ x ∈ samples, ∃! row, row ∈ rows ∧ InRow interval row x) ∧
    ∀ row ∈ rows, Summary (samples.filter fun x => InRow interval row x) row.open_ row.high row.low
      row.close

theorem aggregate_ohlcv (samples : List (Sample π)) (symbol : String) :
    aggregate (ordered A) samples ⟨interval, .ohlcv⟩ symbol =
      (samples.foldlM (addSample (ordered A) interval) []).map
        fun bars => bars.reverse.map (ohlcvRow symbol) := by
  rw [aggregate, barsOf]
  cases samples.foldlM (addSample (ordered A) interval) [] <;> rfl

theorem partitions_of_aligned {symbol : String} {samples : List (Sample π)}
    (hsorted : samples.Pairwise fun x y => x.timestamp.toInt < y.timestamp.toInt)
    (haligned : ∀ x ∈ samples, Aligned interval x.timestamp)
    (hfit : VolumesFit interval (samples.map stamp)) : Partitions A interval symbol samples := by
  obtain ⟨bars, hbars, hof⟩ := (barsOf_run (A := A) hsorted).1 hfit
  have hin : ∀ bar ∈ bars, ∀ x ∈ samples, InRow interval (ohlcvRow symbol bar) x ↔
      bucket interval x.timestamp = bar.timestamp := by
    intro bar hbar x hx
    obtain ⟨y, -, hy⟩ := hof.exists_sample hbar
    have hdvd : interval.nanos.toInt ∣ bar.timestamp.toInt := hy ▸ dvd_bucket interval y.timestamp
    exact ((haligned x hx).mem_iff hdvd).trans (Int64.toInt_inj.trans eq_comm)
  refine ⟨_, by rw [aggregate_ohlcv, hbars]; rfl, ?_, fun x hx => ?_, fun row hrow => ?_⟩
  · exact List.pairwise_map.mpr (List.pairwise_reverse.mpr hof.decreasing)
  · obtain ⟨bar, hbar, hts⟩ := hof.covers x hx
    refine ⟨ohlcvRow symbol bar, ⟨List.mem_map.mpr ⟨bar, by simpa using hbar, rfl⟩,
      (hin bar hbar x hx).mpr hts.symm⟩, ?_⟩
    rintro row ⟨hrow, hinrow⟩
    obtain ⟨bar', hbar', rfl⟩ := List.mem_map.mp hrow
    have hbar' : bar' ∈ bars := by simpa using hbar'
    have hts' := (hin bar' hbar' x hx).mp hinrow
    rw [hof.eq_of_timestamp hbar' hbar (hts'.symm.trans hts.symm)]
  · obtain ⟨bar, hbar, rfl⟩ := List.mem_map.mp hrow
    have hbar : bar ∈ bars := by simpa using hbar
    have hmembers : (samples.filter fun x => InRow interval (ohlcvRow symbol bar) x) =
        members interval samples bar.timestamp := by
      refine List.filter_congr fun x hx => ?_
      exact decide_eq_decide.mpr (hin bar hbar x hx)
    rw [hmembers]
    exact hof.summary bar hbar

theorem volumesFit_of_partitions {symbol : String} {samples : List (Sample π)}
    (hsorted : samples.Pairwise fun x y => x.timestamp.toInt < y.timestamp.toInt)
    (h : Partitions A interval symbol samples) : VolumesFit interval (samples.map stamp) := by
  by_contra hover
  obtain ⟨rows, hrows, -⟩ := h
  rw [aggregate_ohlcv, (barsOf_run hsorted).2 hover] at hrows
  cases hrows

/-- Prices that are higher behind a gap than before it tell the row that covers a sample there
from the one that the loop makes. -/
theorem not_partitions_of_gap {symbol : String} {samples : List (Sample π)}
    (hsorted : samples.Pairwise fun x y => x.timestamp.toInt < y.timestamp.toInt)
    {x : Sample π} (hx : x ∈ samples) {f : Int} (hbefore : f < x.timestamp.toInt)
    (hcover : ∀ b : Int, interval.nanos.toInt ∣ b →
      b ≤ x.timestamp.toInt ∧ x.timestamp.toInt < b + interval.nanos.toInt → b = f)
    (hearlier : ∀ s : Int64, (bucket interval s).toInt = f → s.toInt ≤ f) {low high : π}
    (hlt : low < high)
    (hprice : ∀ y ∈ samples, y.high = if f < y.timestamp.toInt then high else low) :
    ¬ Partitions A interval symbol samples := by
  intro h
  obtain ⟨bars, hbars, hof⟩ := (barsOf_run (A := A) hsorted).1 (volumesFit_of_partitions hsorted h)
  obtain ⟨rows, hrows, -, hunique, hsummary⟩ := h
  rw [aggregate_ohlcv, hbars, Option.map_some, Option.some.injEq] at hrows
  obtain ⟨row, ⟨hrow, hin⟩, -⟩ := hunique x hx
  have hrow' := hrow
  rw [← hrows] at hrow'
  obtain ⟨bar, hbar, rfl⟩ := List.mem_map.mp hrow'
  have hbar : bar ∈ bars := by simpa using hbar
  obtain ⟨y, -, hy⟩ := hof.exists_sample hbar
  have hbarf : bar.timestamp.toInt = f :=
    hcover _ (hy ▸ dvd_bucket interval y.timestamp) hin
  have hlow : bar.high = low := by
    obtain ⟨z, hz, hzhigh⟩ := (hof.summary bar hbar).high_greatest.1
    obtain ⟨hzmem, hzbucket⟩ := List.mem_filter.mp hz
    have hzf := hearlier z.timestamp (by rw [of_decide_eq_true hzbucket, hbarf])
    rw [← hzhigh, hprice z hzmem, if_neg (by omega)]
  have hhigh : x.high ≤ bar.high :=
    (hsummary _ hrow).high_greatest.2 ⟨x, List.mem_filter.mpr ⟨hx, decide_eq_true hin⟩, rfl⟩
  rw [hlow, hprice x hx, if_pos hbefore] at hhigh
  exact absurd hhigh (not_le.mpr hlt)

end Fold

/-- Prices as exact rationals. -/
def rational : PriceArith ℚ where
  max := Max.max
  min := Min.min
  add := (· + ·)
  mul := (· * ·)
  div := (· / ·)
  ofU64 v := v.toNat
  zero := 0
  one := 1

/-- For times in increasing order the rows partition the samples, whatever their prices,
exactly when every time is aligned and no bucket's volume overflows. -/
theorem bars_partition_iff {π : Type} [LinearOrder π] [Nontrivial π] (A : PriceArith π)
    (interval : Interval) (symbol : String) (stamps : List (Int64 × UInt64))
    (hsorted : stamps.Pairwise fun e e' => e.1.toInt < e'.1.toInt) :
    (∀ samples : List (Sample π), samples.map stamp = stamps →
      Partitions A interval symbol samples) ↔
    (∀ e ∈ stamps, Aligned interval e.1) ∧ VolumesFit interval stamps := by
  have hsamples : ∀ samples : List (Sample π), samples.map stamp = stamps →
      samples.Pairwise fun x y => x.timestamp.toInt < y.timestamp.toInt := by
    rintro samples rfl
    rwa [List.pairwise_map] at hsorted
  obtain ⟨low, high, hlt⟩ := exists_pair_lt π
  have hpriced : ∀ f : Int, (stamps.map fun e => (⟨e.1, low, if f < e.1.toInt then high else low,
      low, low, e.2⟩ : Sample π)).map stamp = stamps := by
    intro f
    rw [List.map_map]
    exact List.map_id' stamps
  constructor
  · intro h
    refine ⟨fun e he => ?_, ?_⟩
    · by_contra hnot
      obtain ⟨f, hbefore, hcover, hearlier⟩ := exists_gap hnot
      refine not_partitions_of_gap (hsamples _ (hpriced f)) (List.mem_map_of_mem he) hbefore hcover
        hearlier hlt ?_ (h _ (hpriced f))
      intro y hy
      obtain ⟨e', -, rfl⟩ := List.mem_map.mp hy
      rfl
    · have hfit := volumesFit_of_partitions (hsamples _ (hpriced 0)) (h _ (hpriced 0))
      rwa [hpriced 0] at hfit
  · rintro ⟨haligned, hfit⟩ samples rfl
    exact partitions_of_aligned (hsamples samples rfl)
      (fun x hx => haligned (stamp x) (List.mem_map_of_mem hx)) hfit

theorem bars_partition_iff_minute :
    (∀ samples : List (Sample ℚ), samples.map stamp = [(0, 5), (1000000000, 7)] →
      Partitions rational .min1 "AAPL" samples) ↔
    (∀ e ∈ [((0 : Int64), (5 : UInt64)), (1000000000, 7)], Aligned .min1 e.1) ∧
      VolumesFit .min1 [(0, 5), (1000000000, 7)] :=
  bars_partition_iff rational .min1 "AAPL" [(0, 5), (1000000000, 7)] (by decide)

/-- One tick a nanosecond before zero gets the bar that starts at zero. -/
theorem tick_before_zero_outside : ¬ ∀ (interval : Interval) (samples : List (Sample ℚ)),
    (samples.Pairwise fun x y => x.timestamp.toInt < y.timestamp.toInt) →
      Partitions rational interval "AAPL" samples := by
  intro h
  obtain ⟨rows, hrows, -, hunique, -⟩ := h .sec1 [⟨-1, 1, 1, 1, 1, 1⟩] (List.pairwise_singleton _ _)
  have hrow : aggregate (ordered rational) [⟨-1, 1, 1, 1, 1, 1⟩] ⟨.sec1, .ohlcv⟩ "AAPL" =
      some [⟨0, "AAPL", 1, 1, 1, 1, 1⟩] := by
    decide +kernel
  rw [hrow, Option.some.injEq] at hrows
  obtain ⟨row, ⟨hmem, hin⟩, -⟩ := hunique _ (List.mem_singleton_self _)
  rw [← hrows, List.mem_singleton] at hmem
  rw [hmem] at hin
  exact absurd hin.1 (by decide)

end Graphite.Gql.Executor
