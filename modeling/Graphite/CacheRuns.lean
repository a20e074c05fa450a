import Graphite.CacheMisses
import Graphite.ScanOrder

/-! Runs of queries over one cache: `get`, `scan`, the making of streams and the reading of
them, in any order. What a run reads from the files is what it opens. -/

namespace Graphite
open BigEndian KeyedRows LockProgram StreamMerge GuardedRuns

namespace ScanStream

variable {block : Table → Bytes} {opens : Table → Bool} {first : UInt64} {n : Nat} {b : Blocks}

/-- The bounds of the tables let the query through, as they did when the stream was made. -/
def Passed (s : ScanStream) : Prop :=
  ∀ t ∈ s.sstables, t.sst.overlapsTimeRange s.params.t1 s.params.t2 = true ∧
    s.params.symbolId.all t.sst.overlapsSymbol = true

theorem params_ensure (opens : Table → Bool) (s : ScanStream) :
    (s.ensureSstableBatch opens).params = s.params := by
  unfold ensureSstableBatch loadNextSstableBatch
  split
  · split
    · rfl
    · split <;> rfl
  · rfl

theorem params_advanceSstable (s : ScanStream) : s.advanceSstable.params = s.params := by
  unfold advanceSstable
  split <;> rfl

theorem params_pick {s s' : ScanStream} {x : Tick} (h : s.pick = some (x, s')) :
    s'.params = s.params := by
  unfold pick at h
  split at h
  · cases h
  · cases h
    rfl
  · cases h
    exact s.params_advanceSstable
  · split_ifs at h
    · cases h
      rfl
    · cases h
      exact s.advanceMemtable.params_advanceSstable
    · cases h
      exact s.params_advanceSstable

theorem Passed.of_same {s s' : ScanStream} (h : s.Passed) (hsstables : s'.sstables = s.sstables)
    (hparams : s'.params = s.params) : s'.Passed := by
  rw [Passed, hsstables, hparams]
  exact h

theorem Passed.ensure {s : ScanStream} (h : s.Passed) (opens : Table → Bool) :
    (s.ensureSstableBatch opens).Passed :=
  h.of_same (sameSource_ensure opens s).sstables (params_ensure opens s)

theorem Passed.pick {s s' : ScanStream} (h : s.Passed) {x : Tick} (hpick : s.pick = some (x, s')) :
    s'.Passed :=
  h.of_same (sameSource_pick hpick).sstables (params_pick hpick)

/-- A stream that has been made is made of tables that the bounds let through. -/
theorem passed_of_new {memtable : SkipList} {compaction : CompactionManager}
    {dict : SymbolDictionary} {params : ScanParams} {s : ScanStream}
    (h : new memtable compaction dict params = some s) : s.Passed := by
  obtain ⟨sstables, hselected, h⟩ := Option.bind_eq_some_iff.mp h
  cases h
  obtain ⟨rfl, -⟩ := selectTables_eq_some hselected
  intro t ht
  obtain ⟨htime, hsymbol⟩ := Bool.and_eq_true_iff.mp (List.mem_filter.mp ht).2
  refine ⟨htime, ?_⟩
  cases hid : params.symbolId with
  | none => rfl
  | some id =>
    rw [hid] at hsymbol
    exact (Bool.and_eq_true_iff.mp hsymbol).2

/-- What `ensure_sstable_batch` opens. -/
def ensureOpenings (opens : Table → Bool) (s : ScanStream) : List Opening :=
  if s.currentBatch.length ≤ s.currentBatchIdx ∧ s.sstableIdx < s.sstables.length then
    s.sstables[s.sstableIdx]?.toList.map fun t => (t, opens t)
  else []

/-- What the loop of `next_tick` opens. -/
def nextOpenings (opens : Table → Bool) : Nat → ScanStream → List Opening
  | 0, _ => []
  | fuel + 1, s => s.ensureOpenings opens ++
      match (s.ensureSstableBatch opens).pick with
      | none => []
      | some (next, s) => if s.lastKey = some next.key then nextOpenings opens fuel s else []

theorem ensureCached_spec {s : ScanStream} (h : b.Cold first n) (hs : s.Passed)
    (hn : n + (s.ensureOpenings opens).length ≤ 2 ^ 64) : ∃ b',
      s.ensureCached block opens b = some (s.ensureSstableBatch opens, b') ∧
        b'.Cold first (n + (s.ensureOpenings opens).length) ∧
          b'.reads = b.reads ++ scanned (s.ensureOpenings opens) := by
  unfold ensureOpenings at hn ⊢
  unfold ensureCached ensureSstableBatch
  split_ifs at hn ⊢ with hload
  · obtain ⟨t, ht⟩ : ∃ t, s.sstables[s.sstableIdx]? = some t :=
      ⟨_, List.getElem?_eq_getElem hload.2⟩
    rw [ht] at hn ⊢
    obtain ⟨htime, hsymbol⟩ := hs t (List.mem_of_getElem? ht)
    obtain ⟨b', hopen, hcold, hreads⟩ := h.openScan_spec hn block htime hsymbol (opens t)
    refine ⟨b', ?_, hcold, hreads⟩
    simp only [loadCached, ht, hopen, Option.bind_eq_bind, Option.bind_some]
    rfl
  · exact ⟨b, rfl, h, (List.append_nil _).symm⟩

/-- With the cache a stream gives what it gives without, and opens its tables as without. -/
theorem nextTickCached_spec (fuel : Nat) {s : ScanStream} (h : b.Cold first n) (hs : s.Passed)
    (hn : n + (nextOpenings opens fuel s).length ≤ 2 ^ 64) : ∃ b',
      s.nextTickCached block opens fuel b =
          (s.nextTickLoop opens fuel).map (fun r => (r.1, r.2, b')) ∧
        b'.Cold first (n + (nextOpenings opens fuel s).length) ∧
          b'.reads = b.reads ++ scanned (nextOpenings opens fuel s) := by
  induction fuel generalizing s n b with
  | zero => exact ⟨b, rfl, h, (List.append_nil _).symm⟩
  | succ fuel ih =>
    rw [nextOpenings, List.length_append] at hn
    have hfirst : n + (s.ensureOpenings opens).length ≤ 2 ^ 64 := by omega
    obtain ⟨b₁, hensure, hcold, hreads⟩ := ensureCached_spec h hs hfirst
    rw [nextTickCached, hensure, nextTickLoop, nextOpenings]
    simp only [Option.bind_eq_bind, Option.bind_some]
    cases hpick : (s.ensureSstableBatch opens).pick with
    | none =>
      refine ⟨b₁, rfl, ?_, ?_⟩
      · rwa [List.append_nil]
      · rwa [List.append_nil]
    | some r =>
      obtain ⟨next, s'⟩ := r
      rw [hpick] at hn
      dsimp only at hn ⊢
      split_ifs at hn ⊢ with hlast
      · obtain ⟨b', hloop, hcold', hreads'⟩ := ih hcold ((hs.ensure opens).pick hpick) (by omega)
        refine ⟨b', hloop, ?_, ?_⟩
        · rwa [List.length_append, ← Nat.add_assoc]
        · rw [hreads', hreads, scanned_append, List.append_assoc]
      · refine ⟨b₁, rfl, ?_, ?_⟩
        · rwa [List.append_nil]
        · rwa [List.append_nil]

theorem size_ensure_le (opens : Table → Bool) (s : ScanStream) :
    (s.ensureSstableBatch opens).view.size ≤ s.view.size := by
  unfold ensureSstableBatch
  split_ifs with hload
  · obtain ⟨hspent, hmore⟩ := hload
    have hdrop := List.drop_eq_getElem_cons hmore
    have hbatch : s.currentBatch.drop s.currentBatchIdx = [] := List.drop_eq_nil_of_le hspent
    rw [loadNextSstableBatch, List.getElem?_eq_getElem hmore]
    dsimp only
    split_ifs
    · simp only [View.size, view, hdrop, hbatch, List.map_cons, List.sum_cons, List.drop_zero,
        List.length_nil]
      omega
    · simp only [View.size, view, hdrop, hbatch, List.map_cons, List.sum_cons]
      omega
  · exact le_rfl

theorem size_pick_lt {s s' : ScanStream} {x : Tick} (h : s.pick = some (x, s')) :
    s'.view.size < s.view.size := by
  have hpick := s.view_pick
  rw [h, Option.map_some] at hpick
  exact s.view.size_pick Tick.key hpick.symm

/-- A stream as it is made and read: its loop ends within the rows of its tables. -/
structure Made (s : ScanStream) : Prop where
  passed : s.Passed
  size : s.view.size ≤ s.totalRows

theorem made_of_new {memtable : SkipList} {compaction : CompactionManager}
    {dict : SymbolDictionary} {params : ScanParams} {s : ScanStream}
    (h : new memtable compaction dict params = some s) : s.Made := by
  obtain ⟨-, -, -, hsize, -⟩ := new_spec h
  exact ⟨passed_of_new h, hsize⟩

theorem exists_nextTickLoop (opens : Table → Bool) {fuel : Nat} {s : ScanStream} (hs : s.Made)
    (hfuel : s.view.size < fuel) : ∃ x s', s.nextTickLoop opens fuel = some (x, s') ∧ s'.Made := by
  induction fuel generalizing s with
  | zero => exact absurd hfuel (Nat.not_lt_zero _)
  | succ fuel ih =>
    have hle := size_ensure_le opens s
    have htotal := (sameSource_ensure opens s).totalRows
    have hensure : (s.ensureSstableBatch opens).Made :=
      ⟨hs.passed.ensure opens, htotal ▸ hle.trans hs.size⟩
    rw [nextTickLoop]
    cases hpick : (s.ensureSstableBatch opens).pick with
    | none => exact ⟨none, _, rfl, hensure⟩
    | some r =>
      obtain ⟨next, s₁⟩ := r
      have hlt := size_pick_lt hpick
      have htotal₁ := (sameSource_pick hpick).totalRows
      have hsize := hs.size
      have hs₁ : s₁.Made := ⟨hensure.passed.pick hpick, by omega⟩
      dsimp only
      split_ifs
      · exact ih hs₁ (by omega)
      · exact ⟨some next, _, rfl, hs₁.passed, hs₁.size⟩

/-- A call always returns. -/
theorem Made.exists_nextTick {s : ScanStream} (hs : s.Made) (opens : Table → Bool) :
    ∃ x s', s.nextTick opens = some (x, s') ∧ s'.Made :=
  exists_nextTickLoop opens hs (Nat.lt_succ_of_le hs.size)

end ScanStream

/-- A query of the tree, or the next tick of a stream that a query has made; `opens` says which
files can be opened meanwhile. -/
inductive ReaderQuery where
  | get (symbol : String) (timestamp : TimestampNs)
  | scan (symbol : Option String) (t1 t2 : TimestampNs)
  | scanStream (symbol : Option String) (t1 t2 : TimestampNs)
  | next (stream : Nat) (opens : Table → Bool)

/-- The tree and the streams that have been made. -/
structure Reader where
  tree : LsmTree × Nat
  streams : List ScanStream
  deriving DecidableEq

namespace Reader

variable (env : Env)

def addStream (r : Reader) :
    Outcome Lock (LsmTree × Nat) (Except (Stop LsmError) ScanStream) → Reader
  | .finished (.ok stream) _ tree => ⟨tree, r.streams ++ [stream]⟩
  | .finished (.error _) _ tree => ⟨tree, r.streams⟩
  | .blocked _ _ tree => ⟨tree, r.streams⟩

/-- The queries without a cache. -/
def step (r : Reader) : ReaderQuery → Reader
  | .get symbol timestamp =>
    { r with tree := (exec (LsmTree.get env symbol timestamp) [] r.tree).state }
  | .scan symbol t1 t2 => { r with tree := (exec (LsmTree.scan env symbol t1 t2) [] r.tree).state }
  | .scanStream symbol t1 t2 => r.addStream (exec (LsmTree.scanStream symbol t1 t2) [] r.tree)
  | .next i opens =>
    match r.streams[i]? with
    | none => r
    | some s =>
      match s.nextTick opens with
      | none => r
      | some (_, s) => { r with streams := r.streams.set i s }

/-- The files that a query opens. -/
def openings (r : Reader) : ReaderQuery → List Opening
  | .get symbol timestamp => LsmTree.getOpenings env r.tree symbol timestamp
  | .scan symbol t1 t2 => LsmTree.scanOpenings env r.tree symbol t1 t2
  | .scanStream _ _ _ => []
  | .next i opens =>
    match r.streams[i]? with
    | none => []
    | some s => s.nextOpenings opens (s.totalRows + 1)

/-- The files that a run opens. -/
def allOpenings : Reader → List ReaderQuery → List Opening
  | _, [] => []
  | r, q :: queries => r.openings env q ++ allOpenings (r.step env q) queries

end Reader

/-- A reader with the cache. -/
structure Session where
  reader : Reader
  blocks : Blocks
  deriving DecidableEq

namespace Session
open ScanStream (flushedRuns)

variable (block : Table → Bytes) (env : Env)

def start (tree : LsmTree × Nat) (counter : UInt64) (capacityMb : Nat) : Session :=
  ⟨⟨tree, []⟩, .start counter capacityMb⟩

def after {α : Type} (st : Session) (x : CachedOp α) : Session :=
  let (tree, blocks) := (exec x [] (st.reader.tree, st.blocks)).state
  ⟨{ st.reader with tree }, blocks⟩

def step (st : Session) : ReaderQuery → Session
  | .get symbol timestamp => st.after (LsmTree.getCached block env symbol timestamp)
  | .scan symbol t1 t2 => st.after (LsmTree.scanCached block env symbol t1 t2)
  | .scanStream symbol t1 t2 => { st with reader := st.reader.step env (.scanStream symbol t1 t2) }
  | .next i opens =>
    match st.reader.streams[i]? with
    | none => st
    | some s =>
      match s.nextTickCached block opens (s.totalRows + 1) st.blocks with
      | none => st
      | some (_, s, blocks) => ⟨{ st.reader with streams := st.reader.streams.set i s }, blocks⟩

/-- Before a query: no block of an id still to come is cached, and every stream is as it was
made and read. -/
structure Ready (first : UInt64) (n : Nat) (st : Session) : Prop where
  cold : st.blocks.Cold first n
  made : ∀ s ∈ st.reader.streams, s.Made

/-- The session moves on as the reader does and reads the tables that the query scans. -/
structure Serves (first : UInt64) (n : Nat) (st st' : Session) (r : Reader)
    (openings : List Opening) : Prop where
  reader : st'.reader = r
  ready : st'.Ready first (n + openings.length)
  reads : st'.blocks.reads = st.blocks.reads ++ scanned openings

variable {block env} {first : UInt64} {n : Nat} {st : Session}

theorem start_ready (tree : LsmTree × Nat) (counter : UInt64) (capacityMb : Nat) :
    (start tree counter capacityMb).Ready counter 0 :=
  ⟨Blocks.start_cold counter capacityMb, List.forall_mem_nil _⟩

theorem serves_after {α : Type} {x' : CachedOp α} {x : LsmOp α} {openings : List Opening}
    (h : st.Ready first n) (hx : Traces x' x [] st.reader.tree openings)
    (hn : n + openings.length ≤ 2 ^ 64) :
    Serves first n st (st.after x') { st.reader with tree := (exec x [] st.reader.tree).state }
      openings := by
  obtain ⟨b', hexec, hcold, hreads⟩ := hx first n st.blocks h.cold hn
  have hafter : st.after x' =
      ⟨{ st.reader with tree := (exec x [] st.reader.tree).state }, b'⟩ := by
    rw [after, hexec]
    cases exec x [] st.reader.tree <;> rfl
  rw [hafter]
  exact ⟨rfl, ⟨hcold, h.made⟩, hreads⟩

theorem made_addStream (env : Env) {symbol : Option String} {t1 t2 : TimestampNs} {r : Reader}
    (h : ∀ s ∈ r.streams, s.Made) :
    ∀ s ∈ (r.step env (.scanStream symbol t1 t2)).streams, s.Made := by
  rw [Reader.step]
  cases hexec : exec (LsmTree.scanStream symbol t1 t2) [] r.tree with
  | blocked l m tree => exact h
  | finished result held tree =>
    cases result with
    | error e => exact h
    | ok stream =>
      intro s hs
      rcases List.mem_append.mp hs with hs | hs
      · exact h s hs
      · obtain ⟨symbolId, -, hnew⟩ := LsmTree.new_of_scanStream hexec
        exact List.mem_singleton.mp hs ▸ ScanStream.made_of_new hnew

/-- One query. -/
theorem step_serves (h : st.Ready first n) (q : ReaderQuery)
    (hn : n + (st.reader.openings env q).length ≤ 2 ^ 64) :
    Serves first n st (st.step block env q) (st.reader.step env q) (st.reader.openings env q) := by
  cases q with
  | get symbol timestamp => exact serves_after h (LsmTree.traces_get symbol timestamp) hn
  | scan symbol t1 t2 => exact serves_after h (LsmTree.traces_scan symbol t1 t2) hn
  | scanStream symbol t1 t2 =>
    exact ⟨rfl, ⟨h.cold, made_addStream env h.made⟩, (List.append_nil _).symm⟩
  | next i opens =>
    rw [Reader.openings] at hn ⊢
    rw [step, Reader.step]
    cases hget : st.reader.streams[i]? with
    | none => exact ⟨rfl, h, (List.append_nil _).symm⟩
    | some s =>
      rw [hget] at hn
      dsimp only at hn ⊢
      have hs : s.Made := h.made s (List.mem_of_getElem? hget)
      obtain ⟨x, s', hnext, hmade⟩ := hs.exists_nextTick opens
      obtain ⟨b', hcached, hcold, hreads⟩ :=
        ScanStream.nextTickCached_spec (s.totalRows + 1) h.cold hs.passed hn
      rw [ScanStream.nextTick] at hnext
      rw [hcached, ScanStream.nextTick, hnext]
      refine ⟨rfl, ⟨hcold, fun s₁ hs₁ => ?_⟩, hreads⟩
      rcases List.mem_or_eq_of_mem_set hs₁ with hs₁ | rfl
      · exact h.made s₁ hs₁
      · exact hmade

/-- A run of queries reads exactly what it scans. -/
theorem run_reads (queries : List ReaderQuery) (h : st.Ready first n)
    (hn : n + (st.reader.allOpenings env queries).length ≤ 2 ^ 64) :
    (run (step block env) st queries).blocks.reads =
      st.blocks.reads ++ scanned (st.reader.allOpenings env queries) := by
  induction queries generalizing st n with
  | nil => exact (List.append_nil _).symm
  | cons q queries ih =>
    rw [Reader.allOpenings, List.length_append] at hn
    have hfirst : n + (st.reader.openings env q).length ≤ 2 ^ 64 := by omega
    have hserves : Serves first n st (st.step block env q) _ _ := step_serves h q hfirst
    have hrest := ih hserves.ready (by rw [hserves.reader]; omega)
    rw [hserves.reader, hserves.reads, List.append_assoc, ← scanned_append] at hrest
    exact hrest

/-- Each block is read at most once just when no file is opened for a second scan. -/
theorem read_once_iff (block : Table → Bytes) (env : Env) (tree : LsmTree × Nat)
    (counter : UInt64) (capacityMb : Nat) (queries : List ReaderQuery)
    (hcount : ((Reader.mk tree []).allOpenings env queries).length ≤ 2 ^ 64) :
    (run (step block env) (start tree counter capacityMb) queries).blocks.reads.Nodup ↔
      (scanned ((Reader.mk tree []).allOpenings env queries)).Nodup := by
  have hstart := start_ready tree counter capacityMb
  have hzero : 0 + ((Reader.mk tree []).allOpenings env queries).length ≤ 2 ^ 64 := by omega
  rw [run_reads queries hstart hzero]
  rfl

/-- The data block that `write` puts in the table's file. -/
def dataBlock (p : Platform) (t : Table) : Bytes :=
  ((SsTable.buildData p t.rows t.sst.tableMeta.level).map fun data => data.dataBuf).getD []

/-- Three tables, each for one of three queries. -/
def threeTables : LsmTree × Nat := (flushedRuns [[3], [5], [7]], 0)

def threeQueries : List ReaderQuery :=
  [.get "A" 3, .scan (some "A") 4 6, .scanStream (some "A") 7 9, .next 0 fun _ => true]

theorem read_once_three :
    ((Reader.mk threeTables []).allOpenings .calm threeQueries).length ≤ 2 ^ 64 ∧
      ((run (step (dataBlock .simple) .calm) (start threeTables 7 1)
          threeQueries).blocks.reads.Nodup ↔
        (scanned ((Reader.mk threeTables []).allOpenings .calm threeQueries)).Nodup) := by
  have hcount : ((Reader.mk threeTables []).allOpenings .calm threeQueries).length ≤ 2 ^ 64 := by
    decide +kernel
  exact ⟨hcount, read_once_iff (dataBlock .simple) .calm threeTables 7 1 threeQueries hcount⟩

/-- The same lookup twice reads a block twice that fits in the cache. -/
theorem block_read_again :
    ¬ ∀ (block : Table → Bytes) (env : Env) (tree : LsmTree × Nat) (counter : UInt64)
      (capacityMb : Nat) (queries : List ReaderQuery),
      (tree.1.storageOrder.map fun t => (block t).length).sum ≤ capacityMb * 1024 * 1024 →
      (run (step block env) (start tree counter capacityMb) queries).blocks.reads.Nodup := by
  intro h
  have hfits : ((flushedRuns [[3]]).storageOrder.map fun t => (dataBlock .simple t).length).sum ≤
      1 * 1024 * 1024 := by decide +kernel
  have htwice : ¬ (run (step (dataBlock .simple) .calm) (start (flushedRuns [[3]], 0) 7 1)
      [.get "A" 3, .get "A" 3]).blocks.reads.Nodup := by decide +kernel
  exact htwice (h (dataBlock .simple) .calm (flushedRuns [[3]], 0) 7 1 _ hfits)

end Session

end Graphite
