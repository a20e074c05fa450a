import Graphite.GuardedRuns
import Graphite.LsmAtomicity
import Graphite.SymbolIds
import Mathlib.Data.List.Find

/-! Windows of a primary's log that reach a replica in any order and any number of times.
Each batch is stored behind what is there already, so that a key has the tick that arrived
last. -/

namespace Graphite
open KeyedRows LockProgram GuardedRuns

/-- The symbol and the tick of an Insert entry; the id of the primary is left out. -/
def ReplicationEntry.row (e : ReplicationEntry) : Option (String × Tick) :=
  match e.record, e.symbol with
  | .insert tick, some symbol => some (symbol, tick.withSymbol 0)
  | _, _ => none

/-- An Insert entry that names its symbol, or another entry. -/
def ReplicationEntry.Named (e : ReplicationEntry) : Prop :=
  match e.record with
  | .insert _ => e.symbol.isSome
  | _ => True

instance (e : ReplicationEntry) : Decidable e.Named := by
  unfold ReplicationEntry.Named
  cases e.record <;> infer_instance

/-- The last tick of the symbol at that time. -/
def lastRow (entries : List ReplicationEntry) (symbol : String) (t : TimestampNs) : Option Tick :=
  ((entries.filterMap ReplicationEntry.row).reverse.find? fun r =>
    r.1 = symbol ∧ r.2.timestamp = t).map Prod.snd

namespace LsmTree

/-- What the memtable has for the symbol at that time. -/
def memtableAt (s : LsmTree) (symbol : String) (t : TimestampNs) : Option Tick :=
  (s.symbolDict.getId symbol).bind fun id =>
    (s.memtable.get ⟨id, t⟩).map fun tick => tick.withSymbol 0

end LsmTree

namespace Deliveries
open LsmTree

/-- A window of the log: where it starts and how many entries it has. -/
abbrev Window := Nat × Nat

def batch (log : List ReplicationEntry) (w : Window) : List ReplicationEntry :=
  (log.drop w.1).take w.2

/-- `apply_replication_batch` of the window on a replica that nobody else uses. -/
def deliver (p : Platform) (c : Codec) (env : Env) (log : List ReplicationEntry)
    (st : LsmTree × Nat) (w : Window) : LsmTree × Nat :=
  match exec (applyReplicationBatch p c env (batch log w)) [] st with
  | .finished _ _ st => st
  | .blocked _ _ st => st

/-- The batch is empty, or its entries have their names, the log takes it, the memtable is
not full with it, and the dictionary has room for its symbols. -/
def Stores (c : Codec) (env : Env) (log : List ReplicationEntry) (st : LsmTree × Nat)
    (w : Window) : Prop :=
  batch log w = [] ∨ (∀ e ∈ batch log w, e.Named) ∧
    (st.1.logReplicated c (env.disk st.2) (batch log w)).1.isOk = true ∧
    (st.1.take (st.1.symbolDict.resolveEntries (batch log w)).1).memtable.len <
      st.1.flushThreshold ∧
    (st.1.symbolDict.resolveEntries (batch log w)).2.len ≤ 65536

instance (c : Codec) (env : Env) (log : List ReplicationEntry) (st : LsmTree × Nat) (w : Window) :
    Decidable (Stores c env log st w) := inferInstanceAs (Decidable (_ ∨ _))

/-- The tracker of the replica touches nothing else. -/
theorem advance_spec (env : Env) (sequence : Nat) (s : LsmTree) (time : Nat) :
    ∃ r last time', advance env sequence (s, time) =
      (r, { s with lastPrimarySequence := last }, time') := by
  unfold advance
  rw [DiskM.current_bind]
  split_ifs
  · exact ⟨_, some sequence, time + 1, rfl⟩
  · exact ⟨.ok (), s.lastPrimarySequence, time, rfl⟩

/-- What a stored batch leaves; the state file of the replication may fail. -/
theorem exec_applyReplicationBatch (p : Platform) {c : Codec} {env : Env} {s : LsmTree}
    {time : Nat} {entries : List ReplicationEntry} (hne : entries ≠ []) (hrole : s.role = .replica)
    {n : Nat} (hlog : (s.logReplicated c (env.disk time) entries).1 = .ok n)
    (hlt : (s.take (s.symbolDict.resolveEntries entries).1).memtable.len < s.flushThreshold) :
    ∃ r s' time', exec (applyReplicationBatch p c env entries) [] (s, time) =
        .finished r [] (s', time') ∧
      s'.memtable = s.memtable.insertAll (s.symbolDict.resolveEntries entries).1 ∧
      s'.symbolDict = (s.symbolDict.resolveEntries entries).2 ∧
      s'.role = s.role ∧ s'.flushThreshold = s.flushThreshold := by
  rw [applyReplicationBatch, if_neg hne, exec_bind_ok (exec_gets _ _ _), if_neg (by simpa using hrole),
    exec_bind_ok (exec_storeReplicated_of_ok hlog)]
  have hflush : exec (flushIfFull p env (s.take (s.symbolDict.resolveEntries entries).1).memtable.len)
      [] ((s.logged c (env.disk time) entries).take (s.symbolDict.resolveEntries entries).1,
        time + 1) = .finished (.ok ()) []
      ((s.logged c (env.disk time) entries).take (s.symbolDict.resolveEntries entries).1,
        time + 1) := by
    rw [flushIfFull, exec_bind_ok (exec_gets _ _ _), if_neg (by exact Nat.not_le.mpr hlt)]
    rfl
  obtain ⟨r, last, time', hadvance⟩ := advance_spec env
    (((entries.map ReplicationEntry.sequence).max?).getD 0)
    ((s.logged c (env.disk time) entries).take (s.symbolDict.resolveEntries entries).1) (time + 1)
  have hexec : exec (withGuard Lock.replication .write (attempt (advance env
      (((entries.map ReplicationEntry.sequence).max?).getD 0)))) [] _ = _ :=
    exec_withGuard_attempt (by decide) hadvance
  rw [exec_bind_ok hflush]
  cases r with
  | ok a =>
    rw [exec_bind_ok hexec]
    exact ⟨_, _, time', rfl, rfl, rfl, rfl, rfl⟩
  | error e =>
    rw [exec_bind_error hexec]
    exact ⟨_, _, time', rfl, rfl, rfl, rfl, rfl⟩

/-- The row of an entry as the replica stores it. -/
def stored (dict : SymbolDictionary) (r : String × Tick) : Tick :=
  r.2.withSymbol (dict.getOrInsert r.1).1

def HasIds (dict : SymbolDictionary) (rows : List (String × Tick)) : Prop :=
  ∀ r ∈ rows, ∃ id, dict.getId r.1 = some id

theorem resolveEntries_of_named {d e : SymbolDictionary} {entries : List ReplicationEntry}
    (hnamed : ∀ x ∈ entries, x.Named) (h : (d.resolveEntries entries).2.idToSymbol <+: e.idToSymbol) :
    (d.resolveEntries entries).1 = (entries.filterMap ReplicationEntry.row).map (stored e) ∧
      HasIds e (entries.filterMap ReplicationEntry.row) := by
  induction entries generalizing d with
  | nil => exact ⟨rfl, fun r hr => absurd hr List.not_mem_nil⟩
  | cons entry entries ih =>
    obtain ⟨hentry, hrest⟩ := List.forall_mem_cons.mp hnamed
    obtain ⟨sequence, record, symbol⟩ := entry
    cases record with
    | insert tick =>
      cases symbol with
      | some symbol =>
        obtain ⟨hrows, hids⟩ := ih hrest h
        have hgrown := (SymbolDictionary.prefix_resolveEntries _ entries).trans h
        have hid := SymbolDictionary.getOrInsert_of_grown hgrown
        constructor
        · change _ :: _ = _ :: _
          rw [hrows, stored, hid]
          rfl
        · refine List.forall_mem_cons.mpr ⟨⟨(d.getOrInsert symbol).1, ?_⟩, hids⟩
          exact SymbolDictionary.getId_of_grown hgrown (d.getId_getOrInsert symbol)
      | none => exact absurd hentry Bool.false_ne_true
    | delete key => exact ih hrest h
    | checkpoint sequence => exact ih hrest h

/-- The stored rows of a key are those of its symbol. -/
theorem firstAt_stored {e : SymbolDictionary} (hlen : e.len ≤ 65536)
    {rows : List (String × Tick)} (hids : HasIds e rows) {symbol : String} {id : SymbolId}
    (hid : e.getId symbol = some id) (t : TimestampNs) :
    firstAt Tick.key (rows.map (stored e)) ⟨id, t⟩ =
      (rows.find? fun r => r.1 = symbol ∧ r.2.timestamp = t).map (stored e) := by
  rw [firstAt, List.find?_map]
  congr 1
  refine List.find?_congr fun r hr => ?_
  obtain ⟨id', hid'⟩ := hids r hr
  have hkey : (stored e r).key = ⟨id', r.2.timestamp⟩ := by
    rw [stored, SymbolDictionary.getOrInsert_of_getId hid']
    rfl
  have hsymbol : id' = id ↔ r.1 = symbol := by
    constructor
    · rintro rfl
      rw [SymbolDictionary.getId_iff_getSymbol hlen] at hid hid'
      exact Option.some_inj.mp (hid'.symm.trans hid)
    · rintro rfl
      exact Option.some_inj.mp (hid'.symm.trans hid)
  simp only [Function.comp_apply, hkey, Key.mk.injEq, hsymbol]

/-- What the replica's memtable is after the entries that have arrived. -/
structure Replayed (s : LsmTree) (arrived : List ReplicationEntry) : Prop where
  role : s.role = .replica
  known : InsertCall.Known s.symbolDict s.memtable.chain
  rows : ∀ symbol t, s.memtableAt symbol t = lastRow arrived symbol t

theorem lastRow_append (arrived more : List ReplicationEntry) (symbol : String) (t : TimestampNs) :
    lastRow (arrived ++ more) symbol t = (lastRow more symbol t).or (lastRow arrived symbol t) := by
  rw [lastRow, List.filterMap_append, List.reverse_append, List.find?_append, Option.map_or]
  rfl

theorem lastRow_eq_none {entries : List ReplicationEntry} {symbol : String} {t : TimestampNs}
    (h : ∀ r ∈ entries.filterMap ReplicationEntry.row, r.1 ≠ symbol) :
    lastRow entries symbol t = none := by
  rw [lastRow, Option.map_eq_none_iff, List.find?_eq_none]
  intro r hr hdec
  exact h r (List.mem_reverse.mp hr) (of_decide_eq_true hdec).1

theorem withSymbol_of_row {entries : List ReplicationEntry} {r : String × Tick}
    (h : r ∈ entries.filterMap ReplicationEntry.row) (id : SymbolId) :
    (r.2.withSymbol id).withSymbol 0 = r.2 := by
  obtain ⟨⟨sequence, record, symbol⟩, -, hrow⟩ := List.mem_filterMap.mp h
  cases record with
  | insert tick =>
    cases symbol with
    | some symbol =>
      cases hrow
      rfl
    | none => cases hrow
  | delete key => cases hrow
  | checkpoint sequence => cases hrow

/-- An id that is new to the dictionary has no row yet. -/
theorem get_of_new_id {s : LsmTree} {arrived : List ReplicationEntry} (h : Replayed s arrived)
    {e : SymbolDictionary} (hlen : e.len ≤ 65536) (hgrown : s.symbolDict.idToSymbol <+: e.idToSymbol)
    {symbol : String} {id : SymbolId} (hid : e.getId symbol = some id) (t : TimestampNs) :
    (s.memtable.get ⟨id, t⟩).map (fun tick => tick.withSymbol 0) = lastRow arrived symbol t := by
  rw [← h.rows, memtableAt]
  cases hold : s.symbolDict.getId symbol with
  | some id' =>
    have hsame := SymbolDictionary.getId_of_grown hgrown hold
    rw [hid, Option.some_inj] at hsame
    rw [hsame]
    rfl
  | none =>
    cases hget : s.memtable.get ⟨id, t⟩ with
    | none => rfl
    | some x =>
      obtain ⟨hx, hkey⟩ := (SkipList.get_eq_some_iff _ _ _).mp hget
      obtain ⟨name, hname⟩ := h.known x hx
      have hxid : x.symbolId = id := congrArg Key.symbolId hkey
      rw [hxid] at hname
      have hthere := SymbolDictionary.getSymbol_of_grown hgrown hname
      rw [(SymbolDictionary.getId_iff_getSymbol hlen symbol id).mp hid, Option.some_inj] at hthere
      rw [hthere, SymbolDictionary.getId_of_getSymbol hname] at hold
      cases hold

/-- A batch that is stored counts as arrived after all the others. -/
theorem replayed_deliver (p : Platform) {c : Codec} {env : Env} {log : List ReplicationEntry}
    {st : LsmTree × Nat} {w : Window} {arrived : List ReplicationEntry}
    (h : Replayed st.1 arrived) (hstores : Stores c env log st w) :
    Replayed (deliver p c env log st w).1 (arrived ++ batch log w) := by
  obtain ⟨s, time⟩ := st
  by_cases hempty : batch log w = []
  · rw [hempty, List.append_nil, deliver, hempty, applyReplicationBatch, if_pos rfl]
    exact h
  obtain ⟨hnamed, hlog, hlt, hlen⟩ := hstores.resolve_left hempty
  obtain ⟨n, hok⟩ : ∃ n, (s.logReplicated c (env.disk time) (batch log w)).1 = .ok n := by
    cases hcase : (s.logReplicated c (env.disk time) (batch log w)).1 with
    | ok n => exact ⟨n, rfl⟩
    | error e =>
      rw [hcase] at hlog
      cases hlog
  obtain ⟨r, s', time', hexec, hmem, hdict, hrole, -⟩ :=
    exec_applyReplicationBatch p hempty h.role hok hlt
  rw [deliver, hexec]
  have hgrown := s.symbolDict.prefix_resolveEntries (batch log w)
  obtain ⟨hrows, hids⟩ := resolveEntries_of_named hnamed List.prefix_rfl
  rw [hrows] at hmem
  generalize (s.symbolDict.resolveEntries (batch log w)).2 = e at *
  refine ⟨hrole.trans h.role, fun x hx => ?_, fun symbol t => ?_⟩
  · change x ∈ s'.memtable.chain at hx
    change ∃ name, s'.symbolDict.getSymbol x.symbolId = some name
    rw [hdict]
    rw [hmem] at hx
    rcases SkipList.mem_insertAll hx with hx | hx
    · obtain ⟨r, hr, rfl⟩ := List.mem_map.mp hx
      obtain ⟨id, hid⟩ := hids r hr
      refine ⟨r.1, ?_⟩
      rw [stored, SymbolDictionary.getOrInsert_of_getId hid]
      exact (SymbolDictionary.getId_iff_getSymbol hlen r.1 id).mp hid
    · obtain ⟨name, hname⟩ := h.known x hx
      exact ⟨name, SymbolDictionary.getSymbol_of_grown hgrown hname⟩
  · change s'.memtableAt symbol t = _
    rw [lastRow_append, memtableAt, hdict, hmem]
    cases hid : e.getId symbol with
    | none =>
      have hold : s.symbolDict.getId symbol = none := by
        cases hold : s.symbolDict.getId symbol with
        | none => rfl
        | some id =>
          rw [SymbolDictionary.getId_of_grown hgrown hold] at hid
          cases hid
      have hnone : s.memtableAt symbol t = none := by rw [memtableAt, hold]; rfl
      rw [← h.rows, hnone, lastRow_eq_none]
      · rfl
      · rintro r hr rfl
        obtain ⟨id, hid'⟩ := hids r hr
        rw [hid] at hid'
        cases hid'
    | some id =>
      have hreverse : HasIds e ((batch log w).filterMap ReplicationEntry.row).reverse :=
        fun r hr => hids r (List.mem_reverse.mp hr)
      rw [Option.bind_some, SkipList.get_insertAll, ← List.map_reverse,
        firstAt_stored hlen hreverse hid, Option.map_or, get_of_new_id h hlen hgrown hid,
        Option.map_map, lastRow]
      congr 1
      refine Option.map_congr fun r hr => ?_
      exact withSymbol_of_row (List.mem_reverse.mp (List.mem_of_find?_eq_some hr)) _

theorem replayed_run (p : Platform) {c : Codec} {env : Env} {log : List ReplicationEntry}
    {windows : List Window} {st : LsmTree × Nat} {arrived : List ReplicationEntry}
    (h : Replayed st.1 arrived)
    (hstores : Guarded (deliver p c env log) (Stores c env log) st windows) :
    Replayed (run (deliver p c env log) st windows).1
      (arrived ++ windows.flatMap (batch log)) := by
  induction windows generalizing st arrived with
  | nil => simpa [run] using h
  | cons w windows ih =>
    rw [List.flatMap_cons, ← List.append_assoc]
    exact ih (replayed_deliver p h hstores.1) hstores.2

theorem replayed_fresh (threshold : Nat) : Replayed (LsmTree.fresh threshold .replica) [] :=
  ⟨rfl, fun _ hx => absurd hx List.not_mem_nil, fun _ _ => rfl⟩

/-- The windows have the first `m` entries of the log and no others. -/
def Cover (log : List ReplicationEntry) (windows : List Window) (m : Nat) : Prop :=
  ∀ i < log.length, (∃ w ∈ windows, w.1 ≤ i ∧ i < w.1 + w.2) ↔ i < m

instance (log : List ReplicationEntry) (windows : List Window) (m : Nat) :
    Decidable (Cover log windows m) := inferInstanceAs (Decidable (∀ i < log.length, _))

/-- The replica has what the log up to there gives exactly when every key got its last
entry of the log last. -/
theorem replica_replays_iff (p : Platform) (c : Codec) (env : Env) (log : List ReplicationEntry)
    (threshold : Nat) (windows : List Window) (m : Nat)
    (hstores : Guarded (deliver p c env log) (Stores c env log)
      (LsmTree.fresh threshold .replica, 0) windows) :
    (∀ symbol t, (run (deliver p c env log) (LsmTree.fresh threshold .replica, 0)
        windows).1.memtableAt symbol t = lastRow (log.take m) symbol t) ↔
      ∀ symbol t, lastRow (windows.flatMap (batch log)) symbol t =
        lastRow (log.take m) symbol t := by
  have hrun := (replayed_run p (replayed_fresh threshold) hstores).rows
  rw [List.nil_append] at hrun
  exact forall_congr' fun symbol => forall_congr' fun t => by rw [hrun symbol t]

/-- One key, written twice. -/
def writtenTwice : List ReplicationEntry :=
  [⟨0, .insert (flatTick 0 5 1), some "A"⟩, ⟨1, .insert (flatTick 0 5 2), some "A"⟩]

def writtenTwiceCodec : Codec := Codec.forTicks [flatTick 0 5 1, flatTick 0 5 2]

/-- The log is delivered once more from its start. -/
theorem replica_replays_repeated :
    (∀ symbol t, (run (deliver .simple writtenTwiceCodec .calm writtenTwice)
        (LsmTree.fresh 10 .replica, 0) [(0, 1), (0, 2)]).1.memtableAt symbol t =
          lastRow (writtenTwice.take 2) symbol t) ↔
      ∀ symbol t, lastRow ([(0, 1), (0, 2)].flatMap (batch writtenTwice)) symbol t =
        lastRow (writtenTwice.take 2) symbol t :=
  replica_replays_iff .simple writtenTwiceCodec .calm writtenTwice 10 [(0, 1), (0, 2)] 2
    (by decide +kernel)

/-- The second entry arrives first; the tick of the first entry stays. -/
theorem late_window_undoes_overwrite :
    Cover writtenTwice [(1, 1), (0, 1)] 2 ∧
      Guarded (deliver .simple writtenTwiceCodec .calm writtenTwice)
        (Stores writtenTwiceCodec .calm writtenTwice) (LsmTree.fresh 10 .replica, 0)
        [(1, 1), (0, 1)] ∧
      (run (deliver .simple writtenTwiceCodec .calm writtenTwice) (LsmTree.fresh 10 .replica, 0)
        [(1, 1), (0, 1)]).1.memtableAt "A" 5 = some (flatTick 0 5 1) ∧
      lastRow (writtenTwice.take 2) "A" 5 = some (flatTick 0 5 2) :=
  ⟨by decide, by decide +kernel, by decide +kernel, by decide⟩

end Deliveries

end Graphite
