import Mathlib.Algebra.Order.BigOperators.Group.List
import Graphite.LsmLookups
import Graphite.ScanIter

/-! What a streaming scan yields before its first `None`: the merge of the memtable's rows
with the tables' rows, one table after the other, without repeated keys. -/

namespace Graphite
open KeyedRows LockProgram StreamMerge

namespace ScanStream

/-- The rows still to come. -/
def view (s : ScanStream) : View Tick where
  base := s.memtableTicks.drop s.memtableIdx
  batch := s.currentBatch.drop s.currentBatchIdx
  later := (s.sstables.drop s.sstableIdx).map (batchOf s.params)

variable {opens : Table → Bool} {s : ScanStream}

theorem view_ensure (hopen : ∀ t ∈ s.sstables, opens t = true) :
    (s.ensureSstableBatch opens).view = s.view.load := by
  unfold ensureSstableBatch
  by_cases hspent : s.currentBatch.length ≤ s.currentBatchIdx
  · have hbatch : s.currentBatch.drop s.currentBatchIdx = [] := List.drop_eq_nil_of_le hspent
    by_cases hmore : s.sstableIdx < s.sstables.length
    · have hget := List.getElem?_eq_getElem hmore
      have hdrop := List.drop_eq_getElem_cons hmore
      have hopen' := hopen _ (List.getElem_mem hmore)
      rw [if_pos ⟨hspent, hmore⟩, loadNextSstableBatch, hget]
      dsimp only
      rw [if_pos hopen', view, view, hbatch, hdrop, List.map_cons, View.load, List.drop_zero]
    · have hdrop : s.sstables.drop s.sstableIdx = [] := List.drop_eq_nil_of_le (not_lt.mp hmore)
      rw [if_neg fun h => hmore h.2]
      simp [view, View.load, hbatch, hdrop]
  · obtain ⟨x, rest, hbatch⟩ : ∃ x rest, s.currentBatch.drop s.currentBatchIdx = x :: rest :=
      ⟨_, _, List.drop_eq_getElem_cons (not_le.mp hspent)⟩
    rw [if_neg fun h => hspent h.1]
    simp [view, View.load, hbatch]

theorem view_advanceMemtable (s : ScanStream) :
    s.advanceMemtable.view = ⟨s.view.base.tail, s.view.batch, s.view.later⟩ := by
  simp [view, advanceMemtable, List.tail_drop]

theorem view_advanceSstable (s : ScanStream) :
    s.advanceSstable.view = ⟨s.view.base, s.view.batch.tail, s.view.later⟩ := by
  unfold advanceSstable
  split_ifs with h
  · simp [view, List.tail_drop, List.drop_eq_nil_of_le h]
  · simp [view, List.tail_drop]

theorem peekMemtable_eq (s : ScanStream) : s.peekMemtable = s.view.base.head? := by
  rw [peekMemtable, view, List.head?_drop]

theorem peekSstable_eq (s : ScanStream) : s.peekSstable = s.view.batch.head? := by
  rw [peekSstable, view, List.head?_drop]

theorem view_pick (s : ScanStream) :
    (s.pick.map fun next => (next.1, next.2.view)) = s.view.pick Tick.key := by
  rw [pick, peekMemtable_eq, peekSstable_eq]
  have hmem := s.view_advanceMemtable
  have hsst := s.view_advanceSstable
  have hboth := s.advanceMemtable.view_advanceSstable
  rw [hmem] at hboth
  generalize s.view = v at hmem hsst hboth
  obtain ⟨base, batch, later⟩ := v
  cases base with
  | nil =>
    cases batch with
    | nil => rfl
    | cons y batch => simp [View.pick, hsst]
  | cons x base =>
    cases batch with
    | nil => simp [View.pick, hmem]
    | cons y batch =>
      simp only [View.pick, List.head?_cons]
      split_ifs
      · simp [hmem]
      · simp [hboth]
      · simp [hsst]

/-- What moving on in a stream leaves alone. -/
structure SameSource (s s' : ScanStream) : Prop where
  sstables : s'.sstables = s.sstables
  totalRows : s'.totalRows = s.totalRows
  lastKey : s'.lastKey = s.lastKey

theorem sameSource_ensure (opens : Table → Bool) (s : ScanStream) :
    SameSource s (s.ensureSstableBatch opens) := by
  unfold ensureSstableBatch loadNextSstableBatch
  split
  · split
    · exact ⟨rfl, rfl, rfl⟩
    · split <;> exact ⟨rfl, rfl, rfl⟩
  · exact ⟨rfl, rfl, rfl⟩

theorem sameSource_advanceSstable (s : ScanStream) : SameSource s s.advanceSstable := by
  unfold advanceSstable
  split <;> exact ⟨rfl, rfl, rfl⟩

theorem sameSource_pick {s' : ScanStream} {x : Tick} (h : s.pick = some (x, s')) :
    SameSource s s' := by
  unfold pick at h
  split at h
  · cases h
  · cases h
    exact ⟨rfl, rfl, rfl⟩
  · cases h
    exact s.sameSource_advanceSstable
  · split_ifs at h
    · cases h
      exact ⟨rfl, rfl, rfl⟩
    · cases h
      have hnext := s.advanceMemtable.sameSource_advanceSstable
      exact ⟨hnext.sstables, hnext.totalRows, hnext.lastKey⟩
    · cases h
      exact s.sameSource_advanceSstable

/-- One call gives the next row of the merge that is no repetition, if there is one. -/
theorem nextTickLoop_spec (hopen : ∀ t ∈ s.sstables, opens t = true) {rows : List Tick}
    (h : Emits Tick.key s.view rows) {fuel : Nat} (hfuel : rows.length < fuel) :
    (suppress Tick.key s.lastKey rows = [] ∧
        ∃ s', s.nextTickLoop opens fuel = some (none, s')) ∨
      ∃ x s' rest, suppress Tick.key s.lastKey rows =
          x :: suppress Tick.key (some x.key) rest ∧
        s.nextTickLoop opens fuel = some (some x, s') ∧ Emits Tick.key s'.view rest ∧
        rest.length < rows.length ∧ s'.lastKey = some x.key ∧ s'.sstables = s.sstables ∧
        s'.totalRows = s.totalRows := by
  induction rows generalizing s fuel with
  | nil =>
    obtain ⟨fuel, rfl⟩ : ∃ n, fuel = n + 1 := Nat.exists_eq_succ_of_ne_zero (Nat.ne_zero_of_lt hfuel)
    left
    cases h with
    | stop hstop =>
      have hpick := (s.ensureSstableBatch opens).view_pick
      rw [view_ensure hopen, hstop, Option.map_eq_none_iff] at hpick
      exact ⟨rfl, s.ensureSstableBatch opens, by rw [nextTickLoop, hpick]⟩
  | cons x rows ih =>
    obtain ⟨fuel, rfl⟩ : ∃ n, fuel = n + 1 := Nat.exists_eq_succ_of_ne_zero (Nat.ne_zero_of_lt hfuel)
    cases h with
    | next hnext hrest =>
      have hview := (s.ensureSstableBatch opens).view_pick
      rw [view_ensure hopen, hnext, Option.map_eq_some_iff] at hview
      obtain ⟨⟨y, s₁⟩, hpick, hs₁⟩ := hview
      cases hs₁
      have hensure := sameSource_ensure opens s
      have hsame := sameSource_pick hpick
      have hsst : s₁.sstables = s.sstables := hsame.sstables.trans hensure.sstables
      have htotal : s₁.totalRows = s.totalRows := hsame.totalRows.trans hensure.totalRows
      have hlast : s₁.lastKey = s.lastKey := hsame.lastKey.trans hensure.lastKey
      have hloop : s.nextTickLoop opens (fuel + 1) =
          if s₁.lastKey = some y.key then s₁.nextTickLoop opens fuel
          else some (some y, { s₁ with lastKey := some y.key }) := by
        rw [nextTickLoop, hpick]
      rw [hloop, hlast, suppress]
      split_ifs with hrepeat
      · rcases ih (hsst ▸ hopen) hrest (Nat.lt_of_succ_lt_succ hfuel) with
          ⟨hnone, hrun⟩ | ⟨z, s', rest, hsome, hrun, hend, hlen, hlast', hsst', htotal'⟩
        · exact Or.inl ⟨hlast ▸ hnone, hrun⟩
        · exact Or.inr ⟨z, s', rest, hlast ▸ hsome, hrun, hend, Nat.lt_succ_of_lt hlen, hlast',
            hsst'.trans hsst, htotal'.trans htotal⟩
      · exact Or.inr ⟨y, { s₁ with lastKey := some y.key }, rows, rfl, rfl, hrest,
          Nat.lt_succ_self _, rfl, hsst, htotal⟩

theorem collectLoop_eq (hopen : ∀ t ∈ s.sstables, opens t = true) {rows : List Tick}
    (h : Emits Tick.key s.view rows) (htotal : rows.length ≤ s.totalRows) {fuel : Nat}
    (hfuel : rows.length < fuel) :
    s.collectLoop opens fuel = some (suppress Tick.key s.lastKey rows) := by
  induction fuel generalizing s rows with
  | zero => cases hfuel
  | succ fuel ih =>
    rw [collectLoop, nextTick]
    rcases nextTickLoop_spec hopen h (Nat.lt_succ_of_le htotal) with
      ⟨hnone, s', hrun⟩ | ⟨x, s', rest, hsome, hrun, hrest, hlen, hlast, hsst, htotal'⟩
    · rw [hrun, hnone]
      rfl
    · have hmore := ih (hsst ▸ hopen) hrest (by omega) (by omega)
      rw [hlast] at hmore
      rw [hrun, hsome]
      simp [hmore]

/-- The stream is the merge without the repeated keys. -/
theorem collect_eq (hopen : ∀ t ∈ s.sstables, opens t = true) (hsize : s.view.size ≤ s.totalRows) :
    ∃ rows, Emits Tick.key s.view rows ∧
      s.collect opens = some (suppress Tick.key s.lastKey rows) := by
  obtain ⟨rows, hrows, hlen⟩ := exists_emits Tick.key s.view
  have hle := hlen.trans hsize
  exact ⟨rows, hrows, collectLoop_eq hopen hrows hle (Nat.lt_succ_of_le hle)⟩

/-- The tables that a scan opens. -/
def selectedTables (compaction : CompactionManager) (dict : SymbolDictionary)
    (params : ScanParams) : List Table :=
  (compaction.levels.flatMap Level.tables).filter fun table =>
    table.admitsRange dict params.symbolId params.t1 params.t2

/-- Their rows in the query's range, a batch a table. -/
def batches (compaction : CompactionManager) (dict : SymbolDictionary) (params : ScanParams) :
    List (List Tick) :=
  (selectedTables compaction dict params).map fun table =>
    sortRows Tick.key (table.rows.filter (SsTable.selects params.symbolId params.t1 params.t2))

theorem batchOf_eq {dict : SymbolDictionary} {params : ScanParams} {table : Table}
    (h : table.admitsRange dict params.symbolId params.t1 params.t2 = true) :
    batchOf params table =
      sortRows Tick.key (table.rows.filter (SsTable.selects params.symbolId params.t1 params.t2)) := by
  obtain ⟨htime, hsymbol⟩ := Bool.and_eq_true_iff.mp h
  have htime' : table.reopen.sst.overlapsTimeRange params.t1 params.t2 = true := htime
  have hsymbol' : params.symbolId.all table.reopen.sst.overlapsSymbol = true := by
    cases hid : params.symbolId with
    | none => rfl
    | some id =>
      rw [hid] at hsymbol
      exact (Bool.and_eq_true_iff.mp hsymbol).2
  rw [batchOf, Table.scan, htime', hsymbol']
  rfl

/-- The pushdown lets the tables through that `scan` opens, and has asked the others. -/
theorem selectTables_eq_some {dict : SymbolDictionary} {params : ScanParams}
    {tables selected : List Table} (h : selectTables dict params tables = some selected) :
    selected = tables.filter (fun table =>
        table.admitsRange dict params.symbolId params.t1 params.t2) ∧
      ∀ t ∈ tables, t.Answers dict params.symbolId params.t1 params.t2 := by
  induction tables generalizing selected with
  | nil =>
    cases h
    exact ⟨rfl, List.forall_mem_nil _⟩
  | cons table tables ih =>
    rw [selectTables] at h
    by_cases htime : table.sst.overlapsTimeRange params.t1 params.t2 = true
    · rw [htime, Bool.not_true, if_neg Bool.false_ne_true] at h
      obtain ⟨keep, hkeep, h⟩ := Option.bind_eq_some_iff.mp h
      obtain ⟨rest, hrest, h⟩ := Option.bind_eq_some_iff.mp h
      obtain ⟨rfl, hanswers⟩ := ih hrest
      have hadmits : table.admitsRange dict params.symbolId params.t1 params.t2 = keep ∧
          ∀ id ∈ params.symbolId,
            table.sst.mayContainSymbol (SsTable.symbolName dict id) ≠ none := by
        rw [Table.admitsRange, htime]
        cases hid : params.symbolId with
        | none =>
          rw [hid] at hkeep
          cases hkeep
          exact ⟨rfl, fun id hid' => by cases hid'⟩
        | some id =>
          rw [hid] at hkeep
          obtain ⟨bloom, hbloom, hkeep⟩ := Option.bind_eq_some_iff.mp hkeep
          cases hkeep
          refine ⟨by cases bloom <;> simp [hbloom], fun id' hid' => ?_⟩
          cases hid'
          rw [hbloom]
          exact Option.some_ne_none bloom
      obtain ⟨hadmits, hask⟩ := hadmits
      cases h
      refine ⟨?_, List.forall_mem_cons.mpr ⟨fun _ => hask, hanswers⟩⟩
      rw [List.filter_cons, hadmits]
    · have hskip : (!table.sst.overlapsTimeRange params.t1 params.t2) = true := by simpa using htime
      rw [if_pos hskip] at h
      obtain ⟨rfl, hanswers⟩ := ih h
      have hadmits : table.admitsRange dict params.symbolId params.t1 params.t2 = false := by
        simp [Table.admitsRange, htime]
      refine ⟨?_, List.forall_mem_cons.mpr ⟨fun hoverlaps => absurd hoverlaps htime, hanswers⟩⟩
      rw [List.filter_cons, hadmits, if_neg Bool.false_ne_true]

section New

variable {memtable : SkipList} {compaction : CompactionManager} {dict : SymbolDictionary}
  {params : ScanParams} {stream : ScanStream}

theorem increasing_memtableRows (memtable : SkipList) (params : ScanParams) :
    Increasing Tick.key (memtableRows memtable params) :=
  memtable.increasing.sublist List.filter_sublist

theorem sorted_batches (compaction : CompactionManager) (dict : SymbolDictionary)
    (params : ScanParams) :
    ∀ batch ∈ batches compaction dict params, batch.Pairwise fun a b => a.key ≤ b.key := by
  intro batch hbatch
  obtain ⟨table, -, rfl⟩ := List.mem_map.mp hbatch
  exact sorted_sortRows Tick.key _

/-- A new stream has everything before it. -/
theorem new_spec (hnew : new memtable compaction dict params = some stream) :
    stream.view = ⟨memtableRows memtable params, [], batches compaction dict params⟩ ∧
      stream.lastKey = none ∧ stream.sstables = selectedTables compaction dict params ∧
      stream.view.size ≤ stream.totalRows ∧
      ∀ t ∈ compaction.levels.flatMap Level.tables,
        t.Answers dict params.symbolId params.t1 params.t2 := by
  obtain ⟨sstables, hselect, hstream⟩ := Option.bind_eq_some_iff.mp hnew
  obtain ⟨rfl, hanswers⟩ := selectTables_eq_some hselect
  cases hstream
  have hsorted : sortRows Tick.key (memtableRows memtable params) = memtableRows memtable params :=
    List.Pairwise.insertionSort_eq ((increasing_memtableRows memtable params).imp le_of_lt)
  have hbatches : (selectedTables compaction dict params).map (batchOf params) =
      batches compaction dict params :=
    List.map_congr_left fun table ht => batchOf_eq (List.mem_filter.mp ht).2
  refine ⟨?_, rfl, rfl, ?_, hanswers⟩
  · rw [view, hsorted]
    exact congrArg (View.mk _ _) hbatches
  · have hlen : ∀ t ∈ selectedTables compaction dict params,
        (batchOf params t).length ≤ t.rows.length := by
      intro t _
      rw [batchOf, sortRows, List.length_insertionSort, Table.scan]
      split_ifs
      · exact Nat.zero_le _
      · exact Nat.zero_le _
      · exact List.length_filter_le _ _
    have hsum := List.sum_le_sum hlen
    simp only [View.size, view, totalRows, List.drop_zero, List.length_nil, List.map_map,
      Nat.add_zero]
    exact Nat.add_le_add_left hsum _

theorem exists_collect {opens : Table → Bool}
    (hnew : new memtable compaction dict params = some stream)
    (hopen : ∀ t ∈ compaction.levels.flatMap Level.tables, opens t = true) :
    ∃ rows, Emits Tick.key
        ⟨memtableRows memtable params, [], batches compaction dict params⟩ rows ∧
      stream.collect opens = some (suppress Tick.key none rows) := by
  obtain ⟨hview, hlast, hsst, hsize, -⟩ := new_spec hnew
  have hopen' : ∀ t ∈ stream.sstables, opens t = true := by
    rw [hsst]
    exact fun t ht => hopen t (List.mem_filter.mp ht).1
  rw [← hview, ← hlast]
  exact collect_eq hopen' hsize

/-- The stream is ordered just when every batch starts where the rows before it end. -/
theorem increasing_collect_iff {opens : Table → Bool}
    (hnew : new memtable compaction dict params = some stream)
    (hopen : ∀ t ∈ compaction.levels.flatMap Level.tables, opens t = true) :
    ∃ ticks, stream.collect opens = some ticks ∧ (Increasing Tick.key ticks ↔
      InOrder Tick.key none (memtableRows memtable params) (batches compaction dict params)) := by
  obtain ⟨rows, hrows, hcollect⟩ := exists_collect hnew hopen
  refine ⟨_, hcollect, ?_⟩
  have hnone : ∀ k ∈ (none : Option Key), ∀ x ∈ memtableRows memtable params, k < x.key := nofun
  have hmerge := follows_iff hrows (increasing_memtableRows memtable params)
    (sorted_batches compaction dict params) hnone
  rw [← hmerge, ← increasing_suppress_iff]
  exact (and_iff_right nofun).symm

end New

/-- The tree after inserts of these timestamps for one symbol, each run of them flushed. -/
def flushedRuns (runs : List (List Int64)) : LsmTree :=
  let ticks := runs.flatten.map fun t => flatTick 0 t 1
  let calls := runs.flatMap fun run =>
    run.map (fun t => StoreCall.insertion (.insert "A" (flatTick 0 t 1))) ++ [.flushMemtable]
  (GuardedRuns.run (History.step .simple (Codec.forTicks ticks) .calm)
    (History.start 10 .primary) calls).tree

/-- Two tables in the order of their keys. -/
theorem increasing_collect_ordered_tables :
    ∃ stream, ScanStream.new (flushedRuns [[3], [5]]).memtable (flushedRuns [[3], [5]]).compaction
        (flushedRuns [[3], [5]]).symbolDict ⟨some 0, 0, 9⟩ = some stream ∧
      ∃ ticks, stream.collect (fun _ => true) = some ticks ∧ (Increasing Tick.key ticks ↔
        InOrder Tick.key none
          (memtableRows (flushedRuns [[3], [5]]).memtable ⟨some 0, 0, 9⟩)
          (batches (flushedRuns [[3], [5]]).compaction (flushedRuns [[3], [5]]).symbolDict
            ⟨some 0, 0, 9⟩)) := by
  have hsome : (ScanStream.new (flushedRuns [[3], [5]]).memtable
      (flushedRuns [[3], [5]]).compaction (flushedRuns [[3], [5]]).symbolDict
      ⟨some 0, 0, 9⟩).isSome = true := by decide +kernel
  obtain ⟨stream, hnew⟩ := Option.isSome_iff_exists.mp hsome
  exact ⟨stream, hnew, increasing_collect_iff hnew fun _ _ => rfl⟩

/-- The newer table holds the smaller key, and the stream gives it last. -/
theorem stream_goes_back :
    ¬ ∀ (memtable : SkipList) (compaction : CompactionManager) (dict : SymbolDictionary)
      (params : ScanParams) (stream : ScanStream) (ticks : List Tick),
      ScanStream.new memtable compaction dict params = some stream →
      stream.collect (fun _ => true) = some ticks → Increasing Tick.key ticks := by
  intro h
  have hrun : (ScanStream.new (flushedRuns [[5], [3]]).memtable
      (flushedRuns [[5], [3]]).compaction (flushedRuns [[5], [3]]).symbolDict
      ⟨some 0, 0, 9⟩).bind (collect fun _ => true) = some [flatTick 0 5 1, flatTick 0 3 1] := by
    decide +kernel
  obtain ⟨stream, hnew, hcollect⟩ := Option.bind_eq_some_iff.mp hrun
  have hinc := List.pairwise_cons.mp (h _ _ _ _ stream _ hnew hcollect)
  exact absurd (hinc.1 (flatTick 0 3 1) List.mem_cons_self) (by decide)

section New

variable {memtable : SkipList} {compaction : CompactionManager} {dict : SymbolDictionary}
  {params : ScanParams}

variable (memtable compaction dict params) in
/-- The batches behind the one that ends the stream bring no key of their own. -/
def NothingSkipped : Prop :=
  ∀ batch ∈ (batches compaction dict params).drop
      (loads Tick.key (memtableRows memtable params) (batches compaction dict params)),
    ∀ x ∈ batch, (∃ y ∈ memtableRows memtable params, y.key = x.key) ∨
      ∃ reached ∈ (batches compaction dict params).take
          (loads Tick.key (memtableRows memtable params) (batches compaction dict params)),
        ∃ y ∈ reached, y.key = x.key

/-- The ticks that the query is for. -/
def Sought (memtable : SkipList) (compaction : CompactionManager) (dict : SymbolDictionary)
    (params : ScanParams) (x : Tick) : Prop :=
  SsTable.selects params.symbolId params.t1 params.t2 x = true ∧
    (x ∈ memtable.chain ∨ ∃ table ∈ selectedTables compaction dict params, x ∈ table.rows)

theorem sought_iff {x : Tick} : Sought memtable compaction dict params x ↔
    x ∈ memtableRows memtable params ∨ ∃ batch ∈ batches compaction dict params, x ∈ batch := by
  simp only [Sought, memtableRows, batches, List.mem_filter, List.mem_map, exists_exists_and_eq_and,
    mem_sortRows]
  constructor
  · rintro ⟨hsel, hmem | ⟨table, ht, hx⟩⟩
    · exact Or.inl ⟨hmem, hsel⟩
    · exact Or.inr ⟨table, ht, hx, hsel⟩
  · rintro (⟨hmem, hsel⟩ | ⟨table, ht, hx, hsel⟩)
    · exact ⟨hsel, Or.inl hmem⟩
    · exact ⟨hsel, Or.inr ⟨table, ht, hx⟩⟩

theorem sought_yielded_iff {rows : List Tick}
    (h : Emits Tick.key
      ⟨memtableRows memtable params, [], batches compaction dict params⟩ rows) :
    (∀ x, Sought memtable compaction dict params x →
        ∃ y ∈ suppress Tick.key none rows, y.key = x.key) ↔
      NothingSkipped memtable compaction dict params := by
  have hyield (k : Key) : (∃ y ∈ suppress Tick.key none rows, y.key = k) ↔
      (∃ x ∈ memtableRows memtable params, x.key = k) ∨
        ∃ batch ∈ (batches compaction dict params).take
            (loads Tick.key (memtableRows memtable params) (batches compaction dict params)),
          ∃ x ∈ batch, x.key = k := by
    rw [← exists_emitted_iff h (increasing_memtableRows memtable params)
      (sorted_batches compaction dict params)]
    simpa using @exists_suppress_iff _ _ _ Tick.key none rows k
  simp only [hyield]
  constructor
  · intro hall batch hbatch x hx
    exact hall x (sought_iff.mpr (Or.inr ⟨batch, List.mem_of_mem_drop hbatch, hx⟩))
  · intro hskip x hx
    rcases sought_iff.mp hx with hmem | ⟨batch, hbatch, hx⟩
    · exact Or.inl ⟨x, hmem, rfl⟩
    · rw [← List.take_append_drop (loads Tick.key (memtableRows memtable params)
        (batches compaction dict params)) (batches compaction dict params)] at hbatch
      rcases List.mem_append.mp hbatch with hbatch | hbatch
      · exact Or.inr ⟨batch, hbatch, x, hx, rfl⟩
      · exact hskip batch hbatch x hx

end New

end ScanStream

namespace LsmTree
open ScanStream

variable {env : Env} {s : LsmTree} {time : Nat} {symbol : Option String} {t1 t2 : TimestampNs}

theorem idOf_of_lookUp {symbolId : Option SymbolId} {held : Held Lock} {st : LsmTree × Nat}
    (h : exec (lookUp symbol) [] (s, time) = .finished (.ok symbolId) held st) :
    s.idOf symbol = some symbolId ∧ held = [] ∧ st = (s, time) := by
  cases symbol with
  | none =>
    cases h
    exact ⟨rfl, rfl, rfl⟩
  | some symbol =>
    have hfree : ¬ Conflicts ([] : Held Lock) .symbolDict .read := by decide
    rw [lookUp, exec_withGuard, if_neg hfree, exec_bind, exec_gets] at h
    dsimp only at h
    rw [idOf]
    cases hid : s.symbolDict.getId symbol with
    | none =>
      rw [hid] at h
      cases h
    | some id =>
      rw [hid] at h
      cases h
      exact ⟨rfl, rfl, rfl⟩

/-- A stream is made from one state of the tree. -/
theorem new_of_scanStream {stream : ScanStream} {held : Held Lock} {st : LsmTree × Nat}
    (h : exec (scanStream symbol t1 t2) [] (s, time) = .finished (.ok stream) held st) :
    ∃ symbolId, s.idOf symbol = some symbolId ∧
      ScanStream.new s.memtable s.compaction s.symbolDict ⟨symbolId, t1, t2⟩ = some stream := by
  obtain ⟨symbolId, held', st', hlookUp, hbody⟩ := exec_bind_eq_ok h
  obtain ⟨hid, rfl, rfl⟩ := idOf_of_lookUp hlookUp
  refine ⟨symbolId, hid, ?_⟩
  have hcompaction : ¬ Conflicts ([] : Held Lock) .compaction .read := by decide
  have hmemtable : ¬ Conflicts [(Lock.compaction, Mode.read)] .memtable .read := by decide
  have hdict : ¬ Conflicts [(Lock.memtable, Mode.read), (Lock.compaction, Mode.read)]
      .symbolDict .read := by decide
  rw [exec_withGuard, if_neg hcompaction, exec_withGuard, if_neg hmemtable, exec_withGuard,
    if_neg hdict, exec_bind, exec_gets] at hbody
  dsimp only at hbody
  cases hnew : ScanStream.new s.memtable s.compaction s.symbolDict ⟨symbolId, t1, t2⟩ with
  | none =>
    rw [hnew] at hbody
    cases hbody
  | some made =>
    rw [hnew] at hbody
    cases hbody
    rfl

theorem mem_collected_iff {symbolId : Option SymbolId} {x : Tick} :
    x ∈ s.collected symbolId t1 t2 ↔
      Sought s.memtable s.compaction s.symbolDict ⟨symbolId, t1, t2⟩ x := by
  simp only [collected, Sought, List.mem_append, List.mem_filter, List.mem_flatMap, Table.range,
    selectedTables, storageOrder]
  constructor
  · rintro (⟨hmem, hsel⟩ | ⟨table, ht, hx⟩)
    · exact ⟨hsel, Or.inl hmem⟩
    · split_ifs at hx with hadmits
      · exact ⟨(List.mem_filter.mp hx).2, Or.inr ⟨table, ⟨ht, hadmits⟩, (List.mem_filter.mp hx).1⟩⟩
      · cases hx
  · rintro ⟨hsel, hmem | ⟨table, ⟨ht, hadmits⟩, hx⟩⟩
    · exact Or.inl ⟨hmem, hsel⟩
    · refine Or.inr ⟨table, ht, ?_⟩
      rw [if_pos hadmits]
      exact List.mem_filter.mpr ⟨hx, hsel⟩

/-- Distinct keys that all occur in a list are no more than its rows. -/
theorem length_range_le {symbolId : Option SymbolId} {ticks : List Tick}
    (h : ∀ x ∈ s.collected symbolId t1 t2, ∃ y ∈ ticks, y.key = x.key) :
    (s.range symbolId t1 t2).length ≤ ticks.length := by
  have hnodup : ((s.range symbolId t1 t2).map Tick.key).Nodup :=
    List.pairwise_map.mpr ((increasing_mergeRows Tick.key _).imp fun hlt => hlt.ne)
  have hsub : (s.range symbolId t1 t2).map Tick.key ⊆ ticks.map Tick.key := by
    intro k hk
    obtain ⟨x, hx, rfl⟩ := List.mem_map.mp hk
    obtain ⟨y, hy, hkey⟩ := h x (mem_mergeRows Tick.key hx)
    exact hkey ▸ List.mem_map_of_mem hy
  simpa using hnodup.length_le_of_subset hsub

/-- The stream yields every key that is sought, and counts at least the rows of the scan,
just when nothing is skipped behind the batch that ends it. -/
theorem stream_complete_iff (hio : ∀ n, env.io n = true) {opens : Table → Bool}
    (hopen : ∀ t ∈ s.storageOrder, opens t = true) {stream : ScanStream} {held : Held Lock}
    {st : LsmTree × Nat}
    (hstream : exec (scanStream symbol t1 t2) [] (s, time) = .finished (.ok stream) held st) :
    ∃ ticks rows st', stream.collect opens = some ticks ∧
      exec (scan env symbol t1 t2) [] (s, time) = .finished (.ok rows) [] st' ∧
      (((∀ x, Sought s.memtable s.compaction s.symbolDict stream.params x →
          ∃ y ∈ ticks, y.key = x.key) ∧ rows.length ≤ ticks.length) ↔
        NothingSkipped s.memtable s.compaction s.symbolDict stream.params) := by
  obtain ⟨symbolId, hid, hnew⟩ := new_of_scanStream hstream
  obtain ⟨merged, hmerged, hcollect⟩ := exists_collect hnew hopen
  obtain ⟨-, -, -, -, hanswers⟩ := new_spec hnew
  obtain ⟨time', hscan⟩ := exec_scan_of_answers hio hid hanswers time
  have hparams : stream.params = ⟨symbolId, t1, t2⟩ := by
    obtain ⟨sstables, -, hmade⟩ := Option.bind_eq_some_iff.mp hnew
    cases hmade
    rfl
  refine ⟨_, _, _, hcollect, hscan, ?_⟩
  rw [hparams, ← sought_yielded_iff hmerged]
  refine and_iff_left_of_imp fun hall => length_range_le fun x hx => ?_
  exact hall x (mem_collected_iff.mp hx)

theorem exists_of_succeeded {α : Type} {x : LsmOp α} {st : LsmTree × Nat}
    (h : (exec x [] st).succeeded = true) :
    ∃ a held st', exec x [] st = .finished (.ok a) held st' := by
  cases hexec : exec x [] st with
  | blocked l m st' =>
    rw [hexec] at h
    cases h
  | finished r held st' =>
    cases r with
    | error e =>
      rw [hexec] at h
      cases h
    | ok a => exact ⟨a, held, st', rfl⟩

/-- Two tables, both with rows for the query. -/
theorem stream_complete_two_tables :
    ∃ stream held st, exec (scanStream (some "A") 0 9) [] (flushedRuns [[3], [5]], 0) =
        .finished (.ok stream) held st ∧
      ∃ ticks rows st', stream.collect (fun _ => true) = some ticks ∧
        exec (scan .calm (some "A") 0 9) [] (flushedRuns [[3], [5]], 0) =
          .finished (.ok rows) [] st' ∧
        (((∀ x, Sought (flushedRuns [[3], [5]]).memtable (flushedRuns [[3], [5]]).compaction
            (flushedRuns [[3], [5]]).symbolDict stream.params x →
              ∃ y ∈ ticks, y.key = x.key) ∧ rows.length ≤ ticks.length) ↔
          NothingSkipped (flushedRuns [[3], [5]]).memtable (flushedRuns [[3], [5]]).compaction
            (flushedRuns [[3], [5]]).symbolDict stream.params) := by
  have hsome : (exec (scanStream (some "A") 0 9) [] (flushedRuns [[3], [5]], 0)).succeeded =
      true := by decide +kernel
  obtain ⟨stream, held, st, hstream⟩ := exists_of_succeeded hsome
  have hio (n : Nat) : Env.calm.io n = true := rfl
  exact ⟨stream, held, st, hstream, stream_complete_iff hio (fun _ _ => rfl) hstream⟩

/-- The first table's bounds cover the query but none of its rows does: the stream ends
before the second table. -/
theorem stream_misses_second_table :
    ¬ ∀ (s : LsmTree) (symbol : Option String) (t1 t2 : TimestampNs) (stream : ScanStream)
      (held : Held Lock) (st : LsmTree × Nat) (ticks : List Tick),
      exec (scanStream symbol t1 t2) [] (s, 0) = .finished (.ok stream) held st →
      stream.collect (fun _ => true) = some ticks →
      ∀ x, Sought s.memtable s.compaction s.symbolDict stream.params x →
        ∃ y ∈ ticks, y.key = x.key := by
  intro h
  have hsome : (exec (scanStream (some "A") 4 6) [] (flushedRuns [[1, 9], [5]], 0)).succeeded =
      true := by decide +kernel
  obtain ⟨stream, held, st, hstream⟩ := exists_of_succeeded hsome
  obtain ⟨symbolId, hid, hnew⟩ := new_of_scanStream hstream
  have hknown : (flushedRuns [[1, 9], [5]]).idOf (some "A") = some (some 0) := by decide +kernel
  rw [hknown] at hid
  cases hid
  have hrun : (ScanStream.new (flushedRuns [[1, 9], [5]]).memtable
      (flushedRuns [[1, 9], [5]]).compaction (flushedRuns [[1, 9], [5]]).symbolDict
      ⟨some 0, 4, 6⟩).map (fun stream => (stream.collect fun _ => true, stream.params)) =
        some (some [], ⟨some 0, 4, 6⟩) := by decide +kernel
  rw [hnew, Option.map_some] at hrun
  obtain ⟨hcollect, hparams⟩ := Prod.mk.inj (Option.some.inj hrun)
  have hcollected : flatTick 0 5 1 ∈ (flushedRuns [[1, 9], [5]]).collected (some 0) 4 6 := by
    decide +kernel
  have hsought := mem_collected_iff.mp hcollected
  obtain ⟨y, hy, -⟩ := h _ _ _ _ stream held st [] hstream hcollect _ (hparams ▸ hsought)
  cases hy

end LsmTree

end Graphite
