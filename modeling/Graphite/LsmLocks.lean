import Graphite.LsmCalls

/-! Whether a write call blocks on itself. The guards of the dictionary in the insert
calls live to the end of the call, and the flush asks for the dictionary again; the
replication batch drops every guard before it flushes. -/

namespace Graphite
open LockProgram

/-- The calls that write. -/
inductive WriteCall where
  | insertion (call : InsertCall)
  | applyReplicationBatch (entries : List ReplicationEntry)
  deriving DecidableEq, Repr

namespace WriteCall
open LsmTree

def op (p : Platform) (c : Codec) (env : Env) : WriteCall → LsmOp Unit
  | insertion call => call.op p c env
  | applyReplicationBatch entries => do
    let _ ← LsmTree.applyReplicationBatch p c env entries
    return ()

/-- The call gets its ticks into the memtable and the log, and they fill the memtable. -/
def FillsMemtable (c : Codec) (env : Env) (s : LsmTree) (time : Nat) : WriteCall → Prop
  | insertion call => ∃ ticks dict, call.Stores c env s time ticks dict ∧
      s.flushThreshold ≤ (s.memtable.insertAll ticks).len
  | applyReplicationBatch _ => False

end WriteCall

namespace LsmTree

/-- Alone, a flush takes one guard after the other. -/
theorem runsUnder_flushMemtable (p : Platform) (env : Env) :
    RunsUnder [] (flushMemtable p env) := by
  refine (RunsUnder.withGuard (by decide) (runsUnder_attempt _ _)).bind fun ticks => ?_
  split_ifs
  · exact runsUnder_pure _ _
  refine (runsUnder_attempt _ _).bind fun nanos => ?_
  refine (RunsUnder.withGuard (by decide) (runsUnder_gets _ _)).bind fun dict => ?_
  refine (runsUnder_attempt _ _).bind fun table => ?_
  refine (RunsUnder.withGuard (by decide) (runsUnder_attempt _ _)).bind fun _ => ?_
  exact RunsUnder.withGuard (by decide) (runsUnder_attempt _ _)

theorem runsUnder_storeReplicated (c : Codec) (env : Env) (entries : List ReplicationEntry) :
    RunsUnder [] (storeReplicated c env entries) := by
  refine (RunsUnder.withGuard (by decide) (runsUnder_attempt _ _)).bind fun resolved => ?_
  refine (RunsUnder.withGuard (by decide) (runsUnder_attempt _ _)).bind fun _ => ?_
  exact RunsUnder.withGuard (by decide)
    ((runsUnder_attempt _ _).bind fun _ => runsUnder_gets _ _)

theorem runsUnder_applyReplicationBatch (p : Platform) (c : Codec) (env : Env)
    (entries : List ReplicationEntry) : RunsUnder [] (applyReplicationBatch p c env entries) := by
  unfold applyReplicationBatch
  split_ifs
  · exact runsUnder_pure _ _
  refine (runsUnder_gets _ _).bind fun role => ?_
  split_ifs
  · exact runsUnder_throw _ _
  refine (runsUnder_storeReplicated c env entries).bind fun len => ?_
  have hflush : RunsUnder [] (flushIfFull p env len) := by
    refine (runsUnder_gets _ _).bind fun threshold => ?_
    split_ifs
    · exact runsUnder_flushMemtable p env
    · exact runsUnder_pure _ _
  refine hflush.bind fun _ => ?_
  exact (RunsUnder.withGuard (by decide) (runsUnder_attempt _ _)).bind fun _ => runsUnder_pure _ _

end LsmTree

namespace WriteCall

/-- A write call comes to its end exactly when it does not fill the memtable while it
holds the dictionary. -/
theorem no_self_block_iff (p : Platform) (c : Codec) (env : Env) (call : WriteCall)
    (s : LsmTree) (time : Nat) :
    ¬ (exec (call.op p c env) [] (s, time)).Blocked ↔ ¬ call.FillsMemtable c env s time := by
  cases call with
  | insertion call =>
    have hends := call.ends p c env s time
    unfold op FillsMemtable
    generalize exec (call.op p c env) [] (s, time) = outcome at hends
    cases hends with
    | empty _ hempty =>
      refine iff_of_true id ?_
      rintro ⟨ticks, dict, hstores, -⟩
      rw [hstores.nonempty] at hempty
      cases hempty
    | failed hnot => exact iff_of_true id fun ⟨ticks, dict, hstores, _⟩ => hnot ticks dict hstores
    | @stored ticks dict hstores hlt =>
      refine iff_of_true id ?_
      rintro ⟨ticks', dict', hstores', hle⟩
      have hsame : (ticks, dict) = (ticks', dict') :=
        Option.some.inj (hstores.stored.symm.trans hstores'.stored)
      cases hsame
      exact absurd hle (Nat.not_le.mpr hlt)
    | blocked hstores hle => exact iff_of_false (not_not.mpr trivial) (not_not.mpr ⟨_, _, hstores, hle⟩)
  | applyReplicationBatch entries =>
    refine iff_of_true (RunsUnder.not_blocked ?_ _) id
    exact (LsmTree.runsUnder_applyReplicationBatch p c env entries).bind fun _ =>
      runsUnder_pure _ _

/-- The first tick of a new tree with flush threshold one fills the memtable. -/
theorem insert_blocks_on_itself :
    LsmTree.«open» (Codec.forTicks [flatTick 0 5 1]) 1 .primary ⟨[], [], none⟩ =
        .ok (LsmTree.fresh 1 .primary) ∧
      (exec ((insertion (.insert "A" (flatTick 7 5 1))).op .simple
        (Codec.forTicks [flatTick 0 5 1]) .calm) [] (LsmTree.fresh 1 .primary, 0)).Blocked :=
  ⟨LsmTree.open_empty _ _ _, by decide +kernel⟩

end WriteCall

end Graphite
