import Graphite.NamedStore
import Graphite.ScanOrder

/-! The streaming scan beside the one that collects and sorts. Both prefer the memtable's row
of a key, then that of the table that is stored first; so the stream gives the rows of the
scan exactly when it gives them in order and leaves no key out. -/

namespace Graphite
open KeyedRows LockProgram GuardedRuns StreamMerge

namespace LsmTree
open ScanStream

variable {s : LsmTree} {symbolId : Option SymbolId} {t1 t2 : TimestampNs}

/-- What a scan sorts begins, for each key, with what the stream's source begins with. -/
theorem firstAt_collected (key : Key) :
    firstAt Tick.key (s.collected symbolId t1 t2) key =
      firstAt Tick.key (memtableRows s.memtable ⟨symbolId, t1, t2⟩ ++
        (batches s.compaction s.symbolDict ⟨symbolId, t1, t2⟩).flatten) key := by
  have htables : ∀ tables : List Table,
      firstAt Tick.key (tables.flatMap fun t => t.range s.symbolDict symbolId t1 t2) key =
        firstAt Tick.key (((tables.filter fun t => t.admitsRange s.symbolDict symbolId t1 t2).map
          fun t => sortRows Tick.key (t.rows.filter (SsTable.selects symbolId t1 t2))).flatten)
            key := by
    intro tables
    induction tables with
    | nil => rfl
    | cons t tables ih =>
      rw [List.flatMap_cons, firstAt_append, ih, Table.range, List.filter_cons]
      split_ifs
      · rw [List.map_cons, List.flatten_cons, firstAt_append, firstAt_sortRows]
      · rfl
  rw [collected, firstAt_append, firstAt_append, htables]
  rfl

/-- The stream gives the rows of the scan just when it is ordered and complete. -/
theorem collect_eq_range_iff {opens : Table → Bool} {stream : ScanStream}
    (hnew : ScanStream.new s.memtable s.compaction s.symbolDict ⟨symbolId, t1, t2⟩ = some stream)
    (hopen : ∀ t ∈ s.storageOrder, opens t = true) :
    ∃ ticks, stream.collect opens = some ticks ∧ (ticks = s.range symbolId t1 t2 ↔
      InOrder Tick.key none (memtableRows s.memtable ⟨symbolId, t1, t2⟩)
          (batches s.compaction s.symbolDict ⟨symbolId, t1, t2⟩) ∧
        NothingSkipped s.memtable s.compaction s.symbolDict ⟨symbolId, t1, t2⟩) := by
  obtain ⟨merged, hmerged, hcollect⟩ := exists_collect hnew hopen
  have hbase := increasing_memtableRows s.memtable ⟨symbolId, t1, t2⟩
  have hordered : Increasing Tick.key (suppress Tick.key none merged) ↔
      InOrder Tick.key none (memtableRows s.memtable ⟨symbolId, t1, t2⟩)
        (batches s.compaction s.symbolDict ⟨symbolId, t1, t2⟩) := by
    have hnone : ∀ k ∈ (none : Option Key),
        ∀ x ∈ memtableRows s.memtable ⟨symbolId, t1, t2⟩, k < x.key := nofun
    rw [← follows_iff hmerged hbase (sorted_batches _ _ _) hnone, ← increasing_suppress_iff]
    exact (and_iff_right nofun).symm
  have hfirst {key : Key} {x : Tick}
      (hx : firstAt Tick.key (suppress Tick.key none merged) key = some x) :
      firstAt Tick.key (s.range symbolId t1 t2) key = some x := by
    rw [firstAt_suppress (Option.some_ne_none key).symm] at hx
    have hsource := firstAt_of_emits hmerged hbase hx
    rw [range, firstAt_mergeRows, firstAt_collected]
    rwa [List.append_nil] at hsource
  have hrange : Increasing Tick.key (s.range symbolId t1 t2) := increasing_mergeRows Tick.key _
  refine ⟨_, hcollect, ?_⟩
  rw [← hordered, ← sought_yielded_iff hmerged]
  constructor
  · intro heq
    rw [heq]
    refine ⟨hrange, fun x hx => ?_⟩
    obtain ⟨y, hy⟩ := firstAt_isSome_of_mem Tick.key (mem_collected_iff.mpr hx)
    rw [← firstAt_mergeRows] at hy
    exact ⟨y, firstAt_eq_some Tick.key hy⟩
  · rintro ⟨hinc, hall⟩
    refine eq_of_increasing Tick.key hinc hrange fun x => ⟨fun hx => ?_, fun hx => ?_⟩
    · exact (firstAt_eq_some Tick.key
        (hfirst ((firstAt_eq_some_iff Tick.key hinc).mpr ⟨hx, rfl⟩))).1
    · obtain ⟨y, hy, hkey⟩ := hall x (mem_collected_iff.mp (mem_mergeRows Tick.key hx))
      have hfound := hfirst ((firstAt_eq_some_iff Tick.key hinc).mpr ⟨hy, hkey⟩)
      rw [(firstAt_eq_some_iff Tick.key hrange).mpr ⟨hx, rfl⟩] at hfound
      rwa [Option.some.inj hfound]

/-- A tree whose tables can be asked has a stream for every query. -/
theorem exists_new (h : s.Askable) (params : ScanParams) : ∃ stream,
    ScanStream.new s.memtable s.compaction s.symbolDict params = some stream := by
  have hselect : ∀ tables : List Table, (∀ t ∈ tables, t.Askable) →
      ∃ selected, selectTables s.symbolDict params tables = some selected := by
    intro tables htables
    induction tables with
    | nil => exact ⟨[], rfl⟩
    | cons t tables ih =>
      obtain ⟨ht, htables⟩ := List.forall_mem_cons.mp htables
      obtain ⟨rest, hrest⟩ := ih htables
      rw [selectTables]
      split_ifs
      · exact ⟨rest, hrest⟩
      · obtain ⟨selected, hselected⟩ :
            ∃ selected, pushdown s.symbolDict t params.symbolId = some selected := by
          cases params.symbolId with
          | none => exact ⟨true, rfl⟩
          | some id =>
            obtain ⟨bloom, hbloom⟩ :=
              Option.ne_none_iff_exists'.mp (Table.mayContainSymbol_ne_none ht _)
            exact ⟨_, by rw [pushdown, hbloom]; rfl⟩
        rw [hselected, hrest]
        exact ⟨_, rfl⟩
  obtain ⟨selected, hselected⟩ := hselect s.storageOrder h
  rw [storageOrder] at hselected
  exact ⟨_, by rw [ScanStream.new, hselected]; rfl⟩

theorem exec_scanStream {symbol : Option String} {stream : ScanStream}
    (hid : s.idOf symbol = some symbolId)
    (hnew : ScanStream.new s.memtable s.compaction s.symbolDict ⟨symbolId, t1, t2⟩ = some stream)
    (time : Nat) : exec (scanStream symbol t1 t2) [] (s, time) =
      .finished (.ok stream) [] (s, time) := by
  have hlook : exec (lookUp symbol) [] (s, time) = .finished (.ok symbolId) [] (s, time) := by
    cases symbol with
    | none =>
      cases hid
      rfl
    | some symbol =>
      obtain ⟨id, hget, rfl⟩ := Option.map_eq_some_iff.mp hid
      rw [lookUp, exec_withGuard, if_neg (by decide), exec_bind_ok (exec_gets _ _ _), hget]
      rfl
  have hfree : ¬ Conflicts ([] : Held Lock) .compaction .read := by decide
  have hmemtable : ¬ Conflicts [(Lock.compaction, Mode.read)] .memtable .read := by decide
  have hdict : ¬ Conflicts [(Lock.memtable, Mode.read), (Lock.compaction, Mode.read)]
      .symbolDict .read := by decide
  rw [scanStream, exec_bind_ok hlook, exec_withGuard, if_neg hfree, exec_withGuard,
    if_neg hmemtable, exec_withGuard, if_neg hdict, exec_bind_ok (exec_gets _ _ _), hnew]
  rfl

/-- For every state and every query whose stream can be made, the stream gives the rows of the
scan, in their order and in their versions, exactly when every batch starts where the rows
before it end and the batch that ends the stream hides no key. -/
theorem stream_agrees_iff {env : Env} (hio : ∀ n, env.io n = true) {time : Nat}
    {symbol : Option String} {opens : Table → Bool} (hopen : ∀ t ∈ s.storageOrder, opens t = true)
    {stream : ScanStream} {held : Held Lock} {st : LsmTree × Nat}
    (hstream : exec (scanStream symbol t1 t2) [] (s, time) = .finished (.ok stream) held st) :
    ∃ ticks rows st', stream.collect opens = some ticks ∧
      exec (scan env symbol t1 t2) [] (s, time) = .finished (.ok rows) [] st' ∧
      (ticks = rows ↔
        InOrder Tick.key none (memtableRows s.memtable stream.params)
            (batches s.compaction s.symbolDict stream.params) ∧
          NothingSkipped s.memtable s.compaction s.symbolDict stream.params) := by
  obtain ⟨symbolId, hid, hnew⟩ := new_of_scanStream hstream
  obtain ⟨-, -, -, -, hanswers⟩ := new_spec hnew
  obtain ⟨ticks, hcollect, hiff⟩ := collect_eq_range_iff hnew hopen
  obtain ⟨time', hscan⟩ := exec_scan_of_answers hio hid hanswers time
  have hparams : stream.params = ⟨symbolId, t1, t2⟩ := by
    obtain ⟨sstables, -, hmade⟩ := Option.bind_eq_some_iff.mp hnew
    cases hmade
    rfl
  rw [hparams]
  exact ⟨ticks, _, _, hcollect, hscan, hiff⟩

/-- Two tables in the order of their keys. -/
theorem stream_agrees_two_tables :
    ∃ stream held st, exec (scanStream (some "A") 0 9) [] (flushedRuns [[3], [5]], 0) =
        .finished (.ok stream) held st ∧
      ∃ ticks rows st', stream.collect (fun _ => true) = some ticks ∧
        exec (scan .calm (some "A") 0 9) [] (flushedRuns [[3], [5]], 0) =
          .finished (.ok rows) [] st' ∧
        (ticks = rows ↔
          InOrder Tick.key none (memtableRows (flushedRuns [[3], [5]]).memtable stream.params)
              (batches (flushedRuns [[3], [5]]).compaction (flushedRuns [[3], [5]]).symbolDict
                stream.params) ∧
            NothingSkipped (flushedRuns [[3], [5]]).memtable (flushedRuns [[3], [5]]).compaction
              (flushedRuns [[3], [5]]).symbolDict stream.params) := by
  have hsome : (exec (scanStream (some "A") 0 9) [] (flushedRuns [[3], [5]], 0)).succeeded =
      true := by decide +kernel
  obtain ⟨stream, held, st, hstream⟩ := exists_of_succeeded hsome
  have hio (n : Nat) : Env.calm.io n = true := rfl
  exact ⟨stream, held, st, hstream, stream_agrees_iff hio (fun _ _ => rfl) hstream⟩

end LsmTree

/-- Count ticks in range via streaming scan. The stream always ends. -/
def DB.countRange (opens : Table → Bool) (symbol : String) (t1 t2 : TimestampNs) : LsmOp Nat := do
  let stream ← LsmTree.scanStream (some symbol) t1 t2
  match stream.collect opens with
  | some ticks => return ticks.length
  | none => throw .panic

namespace NamedHistory
open LsmTree ScanStream

/-- For every known symbol and range, the stream gives the rows of the map, and `count_range`
their number, when the stream is ordered and complete; the stream gives no others only then. -/
def StreamsAsMap (n : NamedHistory) : Prop :=
  ∀ symbol id, n.tree.symbolDict.getId symbol = some id → ∀ t1 t2 opens,
    (∀ t ∈ n.tree.storageOrder, opens t = true) →
    ∃ stream ticks,
      exec (scanStream (some symbol) t1 t2) [] (n.tree, n.time) =
        .finished (.ok stream) [] (n.tree, n.time) ∧
      stream.collect opens = some ticks ∧
      exec (DB.countRange opens symbol t1 t2) [] (n.tree, n.time) =
        .finished (.ok ticks.length) [] (n.tree, n.time) ∧
      (ticks = (rowsBetween n.rows symbol t1 t2).map (fun tick => tick.withSymbol id) ↔
        InOrder Tick.key none (memtableRows n.tree.memtable ⟨some id, t1, t2⟩)
            (batches n.tree.compaction n.tree.symbolDict ⟨some id, t1, t2⟩) ∧
          NothingSkipped n.tree.memtable n.tree.compaction n.tree.symbolDict ⟨some id, t1, t2⟩)

theorem streamsAsMap_of_inv {n : NamedHistory} (h : Inv n) : StreamsAsMap n := by
  intro symbol id hid t1 t2 opens hopen
  obtain ⟨stream, hnew⟩ := exists_new h.askable ⟨some id, t1, t2⟩
  obtain ⟨ticks, hcollect, hiff⟩ := collect_eq_range_iff hnew hopen
  have hexec := exec_scanStream (idOf_some hid) hnew n.time
  rw [h.range_eq hid] at hiff
  refine ⟨stream, ticks, hexec, hcollect, ?_, hiff⟩
  rw [DB.countRange, exec_bind_ok hexec, hcollect]
  rfl

end NamedHistory

end Graphite
