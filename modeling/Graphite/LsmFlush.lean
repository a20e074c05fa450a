import Graphite.LsmReads

/-! What `flush_memtable` does on a tree that nobody else uses: with an empty memtable
nothing; else the memtable is drained, and when the table file is written the table is
registered as the newest one of level 0 and the log is cut off. -/

namespace Graphite
open KeyedRows LockProgram

/-- Every query for the row's key, or for a range around it, gets the row. -/
structure Table.Serves (t : Table) (dict : SymbolDictionary) (x : Tick) : Prop where
  known : ∃ name, dict.getSymbol x.symbolId = some name
  first : firstAt Tick.key t.rows x.key = some x
  byKey : t.admitsKey x.key = true
  byRange : ∀ t1 t2, t1 ≤ x.timestamp → x.timestamp ≤ t2 →
    t.admitsRange dict (some x.symbolId) t1 t2 = true

theorem Table.Serves.mono {t : Table} {d e : SymbolDictionary} {x : Tick} (h : t.Serves d x)
    (hgrown : d.idToSymbol <+: e.idToSymbol) : t.Serves e x := by
  obtain ⟨name, hname⟩ := h.known
  have hname' := SymbolDictionary.getSymbol_of_grown hgrown hname
  refine ⟨⟨name, hname'⟩, h.first, h.byKey, fun t1 t2 h1 h2 => ?_⟩
  have hrange := h.byRange t1 t2 h1 h2
  rw [Table.admitsRange, Option.all_some, SsTable.symbolName, hname] at hrange
  rwa [Table.admitsRange, Option.all_some, SsTable.symbolName, hname']

theorem Table.Serves.probe {t : Table} {dict : SymbolDictionary} {x : Tick}
    (h : t.Serves dict x) : t.probe x.key = some x := by
  rw [Table.probe, if_pos h.byKey, h.first]

theorem Table.Serves.seen {t : Table} {dict : SymbolDictionary} {x : Tick}
    (h : t.Serves dict x) {t1 t2 : TimestampNs} (h1 : t1 ≤ x.timestamp) (h2 : x.timestamp ≤ t2) :
    t.seen dict (some x.symbolId) t1 t2 x.key = some x := by
  rw [Table.seen, if_pos (h.byRange t1 t2 h1 h2), h.first]

theorem Table.mem_of_probe {t : Table} {key : Key} {x : Tick} (h : t.probe key = some x) :
    x ∈ t.rows ∧ x.key = key := by
  rw [Table.probe] at h
  split_ifs at h
  exact firstAt_eq_some Tick.key h

theorem Table.mem_of_seen {t : Table} {dict : SymbolDictionary} {symbolId : Option SymbolId}
    {t1 t2 : TimestampNs} {key : Key} {x : Tick} (h : t.seen dict symbolId t1 t2 key = some x) :
    x ∈ t.rows ∧ x.key = key := by
  rw [Table.seen] at h
  split_ifs at h
  exact firstAt_eq_some Tick.key h

namespace LsmTree

variable {p : Platform} {env : Env} {s : LsmTree} {time : Nat} {t : Table}

def drained (s : LsmTree) : LsmTree := { s with memtable := SkipList.new }

/-- The tree with one more table in level 0. -/
def register (s : LsmTree) (t : Table) : LsmTree :=
  { s with compaction :=
    { s.compaction with levels := s.compaction.levels.modify 0 (·.addTable t) } }

/-- The table that a flush started now writes. -/
def flushTable (p : Platform) (env : Env) (s : LsmTree) (time : Nat) : Option Table :=
  if env.io (time + 1) then
    (SsTable.write p (tableName 0 (env.now time)) s.memtable.chain 0 s.symbolDict).map
      fun w => ⟨w.2, s.memtable.chain⟩
  else none

/-- The log after an attempt to cut it off. -/
def truncated (env : Env) (s : LsmTree) (time : Nat) : Except (Stop WalError) Unit × Wal :=
  Wal.truncate (env.io time) (env.disk time).synced s.wal

theorem drainMemtable_eq (s : LsmTree) (time : Nat) :
    drainMemtable (s, time) = (.ok s.memtable.chain, (s.drained, time)) := rfl

theorem truncateWal_eq (env : Env) (s : LsmTree) (time : Nat) :
    truncateWal env (s, time) = ((s.truncated env time).1.mapError (Stop.map .wal),
      (s.withWal (s.truncated env time).2, time + 1)) := rfl

theorem addToLevel0_eq (hlevels : s.compaction.levels ≠ []) (t : Table) (time : Nat) :
    addToLevel0 t (s, time) = (.ok (), (s.register t, time)) := by
  cases hl : s.compaction.levels with
  | nil => exact absurd hl hlevels
  | cons l0 deeper =>
    simp only [addToLevel0, register, hl]
    rfl

theorem writeTable_of_none (h : s.flushTable p env time = none) : ∃ e,
    writeTable p env LsmError.ssTable (tableName 0 (env.now time)) s.memtable.chain 0 s.symbolDict
      (s.drained, time + 1) = (.error e, (s.drained, time + 2)) := by
  rw [flushTable] at h
  rw [writeTable, DiskM.bind_apply]
  cases hio : env.io (time + 1) with
  | false => exact ⟨.error (.ssTable .io), by simp [fileOp, hio]⟩
  | true =>
    rw [if_pos hio, Option.map_eq_none_iff] at h
    exact ⟨.panic, by simp [fileOp, hio, h]; rfl⟩

theorem writeTable_of_some (h : s.flushTable p env time = some t) :
    writeTable p env LsmError.ssTable (tableName 0 (env.now time)) s.memtable.chain 0 s.symbolDict
      (s.drained, time + 1) = (.ok t, (s.drained, time + 2)) := by
  rw [flushTable] at h
  split_ifs at h with hio
  obtain ⟨⟨file, sst⟩, hwrite, rfl⟩ := Option.map_eq_some_iff.mp h
  rw [writeTable, DiskM.bind_apply]
  simp only [fileOp, hio, if_true, hwrite]
  rfl

/-- How a flush on a tree that nobody else uses ends. -/
inductive FlushEnds (p : Platform) (env : Env) (s : LsmTree) (time : Nat) :
    Outcome Lock (LsmTree × Nat) (Except (Stop LsmError) Unit) → Prop
  | nothing (h : s.memtable.chain = []) : FlushEnds p env s time (.finished (.ok ()) [] (s, time))
  | unwritten (h : s.memtable.chain ≠ []) (hnone : s.flushTable p env time = none)
    (e : Stop LsmError) : FlushEnds p env s time (.finished (.error e) [] (s.drained, time + 2))
  | written {t : Table} (h : s.memtable.chain ≠ []) (ht : s.flushTable p env time = some t)
    (r : Except (Stop LsmError) Unit) : FlushEnds p env s time (.finished r []
      ((s.drained.register t).withWal (s.truncated env (time + 2)).2, time + 3))

theorem flush_ends (p : Platform) (env : Env) (hlevels : s.compaction.levels ≠ []) (time : Nat) :
    FlushEnds p env s time (exec (flushMemtable p env) [] (s, time)) := by
  have hdrain := drainMemtable_eq s time
  rw [flushMemtable, exec_bind_ok (exec_withGuard_attempt (by decide) hdrain)]
  by_cases hchain : s.memtable.chain = []
  · have hsame : s.drained = s := by
      obtain ⟨⟨chain, hinc⟩, wal, compaction, dict, rows, threshold, role, last⟩ := s
      cases (hchain : chain = [])
      rfl
    rw [if_pos hchain, hsame]
    exact .nothing hchain
  have hnow : now env (s.drained, time) =
      ((.ok (env.now time), (s.drained, time + 1)) : Except (Stop LsmError) Nat × _) := rfl
  have hdict : exec (withGuard .symbolDict .read (gets fun st => st.1.symbolDict) :
      LsmOp SymbolDictionary) [] (s.drained, time + 1) =
        .finished (.ok s.symbolDict) [] (s.drained, time + 1) := exec_withGuard_gets (by decide) _ _
  rw [if_neg hchain, exec_bind_ok (exec_attempt_of_eq hnow _), exec_bind_ok hdict]
  cases ht : s.flushTable p env time with
  | none =>
    obtain ⟨e, he⟩ := writeTable_of_none ht
    rw [exec_bind_error (exec_attempt_of_eq he _)]
    exact .unwritten hchain ht e
  | some t =>
    have hadd : addToLevel0 t (s.drained, time + 2) =
        (.ok (), (s.drained.register t, time + 2)) := addToLevel0_eq (s := s.drained) hlevels t _
    rw [exec_bind_ok (exec_attempt_of_eq (writeTable_of_some ht) _),
      exec_bind_ok (exec_withGuard_attempt (by decide) hadd),
      exec_withGuard_attempt (by decide) (truncateWal_eq env _ _)]
    exact .written hchain ht _

theorem mem_storageOrder_register (hlevels : s.compaction.levels ≠ []) {t x : Table} :
    x ∈ (s.register t).storageOrder ↔ x ∈ s.storageOrder ∨ x = t := by
  cases hl : s.compaction.levels with
  | nil => exact absurd hl hlevels
  | cons l0 deeper =>
    simp only [storageOrder, register, hl, List.modify_zero_cons, List.flatMap_cons,
      Level.addTable, List.mem_append, List.mem_singleton]
    exact or_right_comm

/-- A new table is the first one that `get` looks at. -/
theorem newestFirst_register (hlevels : s.compaction.levels ≠ []) (t : Table) :
    (s.register t).newestFirst = t :: s.newestFirst := by
  cases hl : s.compaction.levels with
  | nil => exact absurd hl hlevels
  | cons l0 deeper => simp [newestFirst, register, hl, Level.addTable]

theorem rows_flushTable (h : s.flushTable p env time = some t) : t.rows = s.memtable.chain := by
  rw [flushTable] at h
  split_ifs at h
  obtain ⟨w, -, rfl⟩ := Option.map_eq_some_iff.mp h
  rfl

theorem write_of_flushTable (h : s.flushTable p env time = some t) : ∃ file,
    SsTable.write p (tableName 0 (env.now time)) s.memtable.chain 0 s.symbolDict =
      some (file, t.sst) := by
  rw [flushTable] at h
  split_ifs at h
  obtain ⟨⟨file, sst⟩, hwrite, rfl⟩ := Option.map_eq_some_iff.mp h
  exact ⟨file, hwrite⟩

theorem askable_flushTable (h : s.flushTable p env time = some t) : t.Askable := by
  obtain ⟨file, hwrite⟩ := write_of_flushTable h
  exact SsTable.numBits_of_write hwrite

/-- A row within the ends of the flushed list is served by the new table. -/
theorem serves_flushTable (h : s.flushTable p env time = some t) {x : Tick}
    (hx : x ∈ s.memtable.chain) (hknown : ∃ name, s.symbolDict.getSymbol x.symbolId = some name)
    (hends : SsTable.WithinEnds s.memtable.chain x.timestamp) : t.Serves s.symbolDict x := by
  obtain ⟨file, hwrite⟩ := write_of_flushTable h
  have htime := (SsTable.overlapsTimeRange_of_write hwrite (List.ne_nil_of_mem hx) _).mpr hends
  have hsymbol := SsTable.overlapsSymbol_of_write hwrite hx
  have hkey := SsTable.mayContainKey_of_write hwrite hx
  have hname := SsTable.mayContainSymbol_of_write hwrite hx
  have hexact := htime x.timestamp x.timestamp Int64.le_rfl Int64.le_rfl
  refine ⟨hknown, ?_, ?_, fun t1 t2 h1 h2 => ?_⟩
  · rw [rows_flushTable h]
    exact (firstAt_eq_some_iff Tick.key s.memtable.increasing).mpr ⟨hx, rfl⟩
  · rw [Table.admitsKey, hkey]
    simp [Tick.key, hexact, hsymbol]
  · simp [Table.admitsRange, htime t1 t2 h1 h2, hname, hsymbol]

/-- A row outside the ends is not found in the new table. -/
theorem probe_flushTable_of_not (h : s.flushTable p env time = some t) {x : Tick}
    (hx : x ∈ s.memtable.chain) (hends : ¬ SsTable.WithinEnds s.memtable.chain x.timestamp) :
    t.probe x.key = none := by
  obtain ⟨file, hwrite⟩ := write_of_flushTable h
  rw [← SsTable.overlapsTimeRange_of_write hwrite (List.ne_nil_of_mem hx)] at hends
  have hexact : t.sst.overlapsTimeRange x.timestamp x.timestamp = false := by
    rw [Bool.eq_false_iff]
    intro hexact
    refine hends fun t1 t2 h1 h2 => ?_
    rw [SsTable.overlapsTimeRange_iff] at hexact ⊢
    exact ⟨Int64.le_trans h1 hexact.1, Int64.le_trans hexact.2 h2⟩
  simp [Table.probe, Table.admitsKey, Tick.key, hexact]

end LsmTree

end Graphite
