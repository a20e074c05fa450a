import Graphite.BlockCacheInvariant
import Graphite.GuardedRuns

/-! The block cache beside the least-recently-used map of the same capacity. They differ in
two places: `get` does not move the entry it finds, and an insert of too much data keeps the
entry that the key had. -/

namespace Graphite
open BigEndian GuardedRuns

namespace BlockCache

/-- The answer of the reference map and what it holds afterwards. -/
def CacheCall.reference (capacity : Nat) (es : List (CacheKey × Bytes)) :
    CacheCall → Option Bytes × List (CacheKey × Bytes)
  | .get key => (es.lookup key, LruMap.touch key es)
  | .insert key data => (none, LruMap.insert List.length capacity key data es)
  | .clear => (none, [])

/-- The cache and the reference map after the same calls, with their last answers; the cache
is `none` after a call that failed. -/
structure LruRun where
  cache : Option BlockCache
  answer : Option Bytes
  entries : List (CacheKey × Bytes)
  expected : Option Bytes
  deriving DecidableEq, Repr

namespace LruRun

def start (capacityMb : Nat) : LruRun := ⟨some (BlockCache.new capacityMb), none, [], none⟩

def step (capacityMb : Nat) (s : LruRun) (call : CacheCall) : LruRun :=
  let result := s.cache.bind call.exec
  let expected := call.reference (capacityMb * 1024 * 1024) s.entries
  ⟨result.map Prod.snd, result.bind Prod.fst, expected.2, expected.1⟩

/-- The same answer, and the same entries in the same order of use. -/
def Agrees (s : LruRun) : Prop :=
  s.answer = s.expected ∧ s.cache.map BlockCache.contents = some s.entries

instance (s : LruRun) : Decidable s.Agrees := inferInstanceAs (Decidable (_ ∧ _))

/-- A `get` misses or finds the entry in front; an insert fits by itself or is of a key that
is not there. -/
def AsLru (s : LruRun) : CacheCall → Prop
  | .get key => ∀ c ∈ s.cache,
      c.contents.lookup key = none ∨ c.contents.head?.map Prod.fst = some key
  | .insert key data => ∀ c ∈ s.cache,
      data.length ≤ c.capacity ∨ c.contents.lookup key = none
  | .clear => True

/-- The cache and the reference map hold the same, and have just answered the same. -/
def Together (capacityMb : Nat) (s : LruRun) : Prop :=
  s.answer = s.expected ∧ ∃ c, s.cache = some c ∧ c.capacity = capacityMb * 1024 * 1024 ∧
    c.Holds s.entries

theorem start_together (capacityMb : Nat) : (start capacityMb).Together capacityMb :=
  ⟨rfl, new capacityMb, rfl, rfl, new_holds capacityMb⟩

theorem Together.agrees {capacityMb : Nat} {s : LruRun} (h : s.Together capacityMb) :
    s.Agrees := by
  obtain ⟨hanswer, c, hcache, -, hholds⟩ := h
  exact ⟨hanswer, by rw [hcache, Option.map_some, hholds.contents_eq]⟩

/-- What a call leaves is what the reference map leaves, outside the two places. -/
theorem leaves_eq_reference_iff {capacity : Nat} {es : List (CacheKey × Bytes)}
    (h : (es.map Prod.fst).Nodup) (call : CacheCall) :
    call.leaves capacity es = (call.reference capacity es).2 ↔ match call with
      | .get key => es.lookup key = none ∨ es.head?.map Prod.fst = some key
      | .insert key data => data.length ≤ capacity ∨ es.lookup key = none
      | .clear => True := by
  cases call with
  | get key => exact eq_comm.trans (LruMap.touch_eq_self_iff h)
  | insert key data =>
    show (if data.length > capacity then es
      else LruMap.fit List.length capacity ((key, data) :: LruMap.erase key es)) =
        LruMap.insert List.length capacity key data es ↔ _
    rw [LruMap.insert]
    split_ifs with hdata
    · rw [eq_comm, LruMap.erase_eq_self_iff]
      exact (or_iff_right (Nat.not_le.mpr hdata)).symm
    · exact iff_of_true rfl (Or.inl (Nat.not_lt.mp hdata))
  | clear => exact iff_of_true rfl trivial

/-- One call: the run stays together exactly where the call is as on the reference map. -/
theorem step_together {capacityMb : Nat} {s : LruRun} (h : s.Together capacityMb)
    (call : CacheCall) :
    (s.AsLru call → (s.step capacityMb call).Together capacityMb) ∧
      (¬ s.AsLru call → ¬ (s.step capacityMb call).Agrees) := by
  obtain ⟨-, c, hcache, hcapacity, hholds⟩ := h
  obtain ⟨c', hexec, hcapacity', hholds'⟩ := exec_spec hholds call
  have hstep : s.step capacityMb call =
      ⟨some c', call.reads s.entries, (call.reference c.capacity s.entries).2,
        (call.reference c.capacity s.entries).1⟩ := by
    rw [step, hcache, Option.bind_some, hexec, hcapacity]
    rfl
  have hanswer : call.reads s.entries = (call.reference c.capacity s.entries).1 := by
    cases call <;> rfl
  have hiff : s.AsLru call ↔
      call.leaves c.capacity s.entries = (call.reference c.capacity s.entries).2 := by
    rw [leaves_eq_reference_iff hholds.keys_nodup]
    cases call <;> simp [AsLru, hcache, hholds.contents_eq]
  rw [hiff, hstep]
  constructor
  · intro hsame
    exact ⟨hanswer, c', rfl, hcapacity'.trans hcapacity, hsame ▸ hholds'⟩
  · intro hdiffer hagrees
    rw [Agrees, Option.map_some, hholds'.contents_eq] at hagrees
    exact hdiffer (Option.some.inj hagrees.2)

/-- The cache is the least-recently-used map, in what it answers and what it holds in which
order of use, exactly in the runs without the two kinds of calls. -/
theorem agrees_iff_asLru (capacityMb : Nat) (calls : List CacheCall) :
    Always (step capacityMb) Agrees (start capacityMb) calls ↔
      Guarded (step capacityMb) AsLru (start capacityMb) calls :=
  always_iff_guarded (Together capacityMb) (fun _ => Together.agrees)
    (fun _ call hs => (step_together hs call).1) (fun _ call hs => (step_together hs call).2)
    (start_together capacityMb) calls

/-- The entries after a run, of the cache and of the reference map. -/
theorem run_entries {capacityMb : Nat} (calls : List CacheCall) {s : LruRun} {c : BlockCache}
    (hcache : s.cache = some c) (hcapacity : c.capacity = capacityMb * 1024 * 1024)
    {es : List (CacheKey × Bytes)} (h : c.Holds es) :
    (∃ c', (run (step capacityMb) s calls).cache = some c' ∧
      c'.contents = calls.foldl (fun es call => call.leaves (capacityMb * 1024 * 1024) es) es) ∧
    (run (step capacityMb) s calls).entries =
      calls.foldl (fun es call => (call.reference (capacityMb * 1024 * 1024) es).2) s.entries := by
  induction calls generalizing s c es with
  | nil => exact ⟨⟨c, hcache, h.contents_eq⟩, rfl⟩
  | cons call calls ih =>
    obtain ⟨c', hexec, hcapacity', h'⟩ := exec_spec h call
    have hcache' : (s.step capacityMb call).cache = some c' := by
      rw [step, hcache, Option.bind_some, hexec]
      rfl
    exact ih hcache' (hcapacity'.trans hcapacity) (hcapacity ▸ h')

def block (offset : UInt64) : CacheKey := ⟨1, offset⟩

theorem block_inj (a b : UInt64) : block a = block b ↔ a = b := by simp [block]

theorem block_beq (a b : UInt64) : (block a == block b) = decide (a = b) := by
  simp only [beq_eq_decide, block_inj]

/-- Half a cache of one megabyte. -/
def half : Bytes := List.replicate 524288 0

/-- Two blocks fill the cache, the first is read again, and a third one comes. -/
def thirdBlock : List CacheCall :=
  [.insert (block 0) half, .insert (block 1) half, .get (block 0), .insert (block 2) half]

/-- What is left is computed for any block of that length, so that none is ever unfolded. -/
theorem leaves_thirdBlock {b : Bytes} (hb : b.length = 524288) :
    [CacheCall.insert (block 0) b, .insert (block 1) b, .get (block 0), .insert (block 2) b].foldl
      (fun es call => call.leaves (1 * 1024 * 1024) es) [] = [(block 2, b), (block 1, b)] := by
  simp [CacheCall.leaves, LruMap.fit, LruMap.erase, hb, block_inj]

theorem reference_thirdBlock {b : Bytes} (hb : b.length = 524288) :
    [CacheCall.insert (block 0) b, .insert (block 1) b, .get (block 0), .insert (block 2) b].foldl
      (fun es call => (call.reference (1 * 1024 * 1024) es).2) [] =
        [(block 2, b), (block 0, b)] := by
  simp [CacheCall.reference, LruMap.insert, LruMap.touch, LruMap.fit, LruMap.erase, hb, block_inj,
    block_beq, List.lookup]

/-- The block that was read again is gone from the cache, not from the reference map. -/
theorem read_block_evicted :
    ¬ ∃ c, (run (step 1) (start 1) thirdBlock).cache = some c ∧
      ∀ key, c.contents.lookup key = (run (step 1) (start 1) thirdBlock).entries.lookup key := by
  have hhalf : half.length = 524288 := List.length_replicate
  obtain ⟨⟨c, hcache, hcontents⟩, hentries⟩ :=
    run_entries thirdBlock (s := start 1) rfl rfl (new_holds 1)
  have hheld : c.contents = [(block 2, half), (block 1, half)] :=
    hcontents.trans (leaves_thirdBlock hhalf)
  have hexpected : (run (step 1) (start 1) thirdBlock).entries =
      [(block 2, half), (block 0, half)] := hentries.trans (reference_thirdBlock hhalf)
  rintro ⟨c', hcache', hsame⟩
  obtain rfl : c = c' := Option.some.inj (hcache.symm.trans hcache')
  have hfirst := hsame (block 0)
  rw [hheld, hexpected] at hfirst
  generalize half = b at hfirst
  simp [List.lookup, block_beq] at hfirst

end LruRun

end BlockCache

end Graphite
