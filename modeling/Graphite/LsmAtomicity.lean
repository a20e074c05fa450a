import Graphite.LsmLocks
import Graphite.LsmReplicated

/-! What a write call that is stopped halfway leaves in memory. `insert` and the replicated
batch append to the log before they touch the memtable; the batch inserts go the other
way round. -/

namespace Graphite
open LockProgram

namespace WriteCall
open LsmTree

/-- The call is stopped by its batch, which has a column that is too short, or by the log. -/
def Interrupted (c : Codec) (env : Env) (s : LsmTree) (time : Nat) : WriteCall → Prop
  | insertion call => call.refused s.role = false ∧ call.isEmpty = false ∧
      (call.stored s.symbolDict = none ∨ ∃ ticks dict e,
        call.stored s.symbolDict = some (ticks, dict) ∧
          (call.log c (env.disk time) s ticks).1 = .error e)
  | applyReplicationBatch entries => entries ≠ [] ∧ s.role = .replica ∧
      ∃ e, (s.logReplicated c (env.disk time) entries).1 = .error e

/-- The call stops before it has put a row into the memtable. -/
def stopsAtOnce : WriteCall → Bool
  | insertion call => call.stopsAtOnce
  | applyReplicationBatch _ => true

/-- The memtable and the count of rows are as they were. -/
def SameMemory (s : LsmTree) (st : LsmTree × Nat) : Prop :=
  st.1.memtable = s.memtable ∧ st.1.totalRows = s.totalRows

instance (s : LsmTree) (st : LsmTree × Nat) : Decidable (SameMemory s st) :=
  inferInstanceAs (Decidable (_ ∧ _))

theorem sameMemory_take_iff (s : LsmTree) (dict : SymbolDictionary) (wal : Wal)
    (rows : List Tick) (time : Nat) :
    SameMemory s (((s.withDict dict).take rows).withWal wal, time) ↔ rows = [] := by
  constructor
  · intro h
    have hcount : s.totalRows + rows.length = s.totalRows := h.2
    exact List.length_eq_zero_iff.mp (by omega)
  · rintro rfl
    exact ⟨rfl, rfl⟩

/-- A call stopped halfway has changed nothing in memory exactly when it stops before its
first row. -/
theorem interrupted_keeps_memory_iff (p : Platform) (c : Codec) (env : Env) (call : WriteCall)
    (s : LsmTree) (time : Nat) (h : call.Interrupted c env s time) :
    (exec (call.op p c env) [] (s, time)).StoppedIn (SameMemory s) ↔ call.stopsAtOnce = true := by
  cases call with
  | insertion call =>
    obtain ⟨haccepted, hne, hstop⟩ := h
    rw [op, InsertCall.op_eq, haccepted, hne, if_neg Bool.false_ne_true, if_neg Bool.false_ne_true]
    rcases hstop with hstored | ⟨ticks, dict, e, hstored, hlog⟩
    · obtain ⟨rows, dict, -, hexec, hrows, -⟩ := InsertCall.exec_store_of_none c env time hstored
      rw [InsertCall.exec_guarded_error hexec]
      exact (sameMemory_take_iff s dict s.wal rows time).trans hrows
    · rw [InsertCall.exec_guarded_error (InsertCall.exec_store_of_error hstored hlog)]
      exact (sameMemory_take_iff s dict _ _ _).trans (InsertCall.early_eq_nil_iff hstored hne)
  | applyReplicationBatch entries =>
    obtain ⟨hne, hrole, e, hlog⟩ := h
    refine iff_of_true ?_ rfl
    have hcall : exec (LsmTree.applyReplicationBatch p c env entries) [] (s, time) =
        .finished (.error (e.map .wal)) [] (s.logged c (env.disk time) entries, time + 1) := by
      rw [LsmTree.applyReplicationBatch, if_neg hne, exec_bind_ok (exec_gets _ _ _),
        if_neg (by simpa using hrole), exec_bind_error (exec_storeReplicated_of_error hlog)]
    rw [op, exec_bind_error hcall]
    exact ⟨rfl, rfl⟩

/-- The calls to the log fail at their first byte. -/
def failingDisk : Env := ⟨fun time => time, fun _ => ⟨fun _ => some 0, true⟩, fun _ => true⟩

/-- An insert whose append fails. -/
theorem interrupted_insert_keeps_memory :
    (exec ((insertion (.insert "A" (flatTick 7 5 1))).op .simple
        (Codec.forTicks [flatTick 0 5 1]) failingDisk) []
        (LsmTree.fresh 10 .primary, 0)).StoppedIn (SameMemory (LsmTree.fresh 10 .primary)) ↔
      (insertion (.insert "A" (flatTick 7 5 1))).stopsAtOnce = true :=
  interrupted_keeps_memory_iff .simple (Codec.forTicks [flatTick 0 5 1]) failingDisk
    (insertion (.insert "A" (flatTick 7 5 1))) (LsmTree.fresh 10 .primary) 0
    ⟨rfl, rfl, Or.inr ⟨_, _, .error .io, rfl, by decide +kernel⟩⟩

/-- A batch of two timestamps with one row in the other columns. -/
def shortBatch : TickBatch := ⟨[5, 6], [⟨0⟩], [⟨0⟩], [⟨0⟩], [⟨0⟩], [1]⟩

/-- The batch panics at its second row; the first one stays in the memtable. -/
theorem short_batch_changes_memory :
    (insertion (.insertBatch "A" shortBatch)).Interrupted (Codec.forTicks [flatTick 0 5 1]) .calm
        (LsmTree.fresh 10 .primary) 0 ∧
      ¬ (exec ((insertion (.insertBatch "A" shortBatch)).op .simple
        (Codec.forTicks [flatTick 0 5 1]) .calm) []
        (LsmTree.fresh 10 .primary, 0)).StoppedIn (SameMemory (LsmTree.fresh 10 .primary)) ∧
      (exec ((insertion (.insertBatch "A" shortBatch)).op .simple
        (Codec.forTicks [flatTick 0 5 1]) .calm) []
        (LsmTree.fresh 10 .primary, 0)).StoppedIn
          (fun st => st.1.memtable.chain = [flatTick 0 5 1] ∧ st.1.totalRows = 1) :=
  ⟨⟨rfl, rfl, Or.inl (by decide +kernel)⟩, by decide +kernel, by decide +kernel⟩

end WriteCall

end Graphite
