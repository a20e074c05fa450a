import Graphite.LsmCalls

/-! What a replicated batch does to the tree of a replica, up to the ticks in the
memtable. The Insert entries are stored under the ids that the replica's own dictionary
gives their symbols. -/

namespace Graphite
open KeyedRows LockProgram

/-- The ticks of the Insert entries under the ids of this dictionary, and the dictionary
with the new symbols. -/
def SymbolDictionary.resolveEntries (dict : SymbolDictionary) :
    List ReplicationEntry → List Tick × SymbolDictionary
  | [] => ([], dict)
  | entry :: entries =>
    match entry.record, entry.symbol with
    | .insert tick, some symbol =>
      let rest := (dict.getOrInsert symbol).2.resolveEntries entries
      (tick.withSymbol (dict.getOrInsert symbol).1 :: rest.1, rest.2)
    | .insert tick, none =>
      let rest := dict.resolveEntries entries
      (tick :: rest.1, rest.2)
    | _, _ => dict.resolveEntries entries

namespace SymbolDictionary

theorem prefix_resolveEntries (d : SymbolDictionary) (entries : List ReplicationEntry) :
    d.idToSymbol <+: (d.resolveEntries entries).2.idToSymbol := by
  induction entries generalizing d with
  | nil => exact List.prefix_rfl
  | cons entry entries ih =>
    obtain ⟨sequence, record, symbol⟩ := entry
    cases record with
    | insert tick =>
      cases symbol with
      | some symbol => exact (d.prefix_getOrInsert symbol).trans (ih _)
      | none => exact ih d
    | delete key => exact ih d
    | checkpoint sequence => exact ih d

theorem resolveEntries_of_grown {d e : SymbolDictionary} {entries : List ReplicationEntry}
    (h : (d.resolveEntries entries).2.idToSymbol <+: e.idToSymbol) :
    e.resolveEntries entries = ((d.resolveEntries entries).1, e) := by
  induction entries generalizing d with
  | nil => rfl
  | cons entry entries ih =>
    obtain ⟨sequence, record, symbol⟩ := entry
    cases record with
    | insert tick =>
      cases symbol with
      | some symbol =>
        have hfirst := (prefix_resolveEntries (d.getOrInsert symbol).2 entries).trans h
        have hrest := ih h
        simp only [resolveEntries, getOrInsert_of_grown hfirst, hrest]
      | none =>
        have hrest := ih (d := d) h
        simp only [resolveEntries, hrest]
    | delete key => exact ih h
    | checkpoint sequence => exact ih h

end SymbolDictionary

namespace LsmTree

variable {c : Codec} {env : Env} {s : LsmTree} {time : Nat}

theorem resolve_eq (entries : List ReplicationEntry) (s : LsmTree) (time : Nat) :
    resolve entries (s, time) = (.ok (s.symbolDict.resolveEntries entries).1,
      (s.withDict (s.symbolDict.resolveEntries entries).2, time)) := by
  induction entries generalizing s with
  | nil => rfl
  | cons entry entries ih =>
    obtain ⟨sequence, record, symbol⟩ := entry
    cases record with
    | insert tick =>
      cases symbol with
      | some symbol =>
        exact (DiskM.bind_ok rfl _).trans (DiskM.bind_ok (ih _) _)
      | none => exact DiskM.bind_ok (ih s) _
    | delete key => exact ih s
    | checkpoint sequence => exact ih s

/-- How a replicated batch appends its ticks to the replica's log. -/
def logReplicated (c : Codec) (disk : Wal.Disk) (s : LsmTree) (entries : List ReplicationEntry) :
    Except (Stop WalError) Nat × Wal :=
  Wal.appendBatch c disk s.wal ((s.symbolDict.resolveEntries entries).1.map .insert)

/-- The tree once a replicated batch is in its log. -/
def logged (c : Codec) (disk : Wal.Disk) (s : LsmTree) (entries : List ReplicationEntry) :
    LsmTree :=
  (s.withDict (s.symbolDict.resolveEntries entries).2).withWal (s.logReplicated c disk entries).2

/-- The log refuses the batch; the memtable has not been touched. -/
theorem exec_storeReplicated_of_error {entries : List ReplicationEntry} {e : Stop WalError}
    (h : (s.logReplicated c (env.disk time) entries).1 = .error e) :
    exec (storeReplicated c env entries) [] (s, time) =
      .finished (.error (e.map .wal)) [] (s.logged c (env.disk time) entries, time + 1) := by
  have happend : appendWalBatch c env ((s.symbolDict.resolveEntries entries).1.map .insert)
      (s.withDict (s.symbolDict.resolveEntries entries).2, time) = (.error (e.map .wal), _) :=
    onWal_error h
  rw [storeReplicated, exec_bind_ok (exec_withGuard_attempt (by decide) (resolve_eq entries s time)),
    exec_bind_error (exec_withGuard_attempt (by decide) happend)]
  rfl

theorem exec_storeReplicated_of_ok {entries : List ReplicationEntry} {n : Nat}
    (h : (s.logReplicated c (env.disk time) entries).1 = .ok n) :
    exec (storeReplicated c env entries) [] (s, time) =
      .finished (.ok (s.take (s.symbolDict.resolveEntries entries).1).memtable.len) []
        ((s.logged c (env.disk time) entries).take (s.symbolDict.resolveEntries entries).1,
          time + 1) := by
  have happend : appendWalBatch c env ((s.symbolDict.resolveEntries entries).1.map .insert)
      (s.withDict (s.symbolDict.resolveEntries entries).2, time) = (.ok n, _) := onWal_ok h
  rw [storeReplicated, exec_bind_ok (exec_withGuard_attempt (by decide) (resolve_eq entries s time)),
    exec_bind_ok (exec_withGuard_attempt (by decide) happend), exec_withGuard, if_neg (by decide),
    exec_bind_ok (exec_attempt_of_eq (insertResolved_eq _ _ _) _)]
  rfl

end LsmTree

end Graphite
