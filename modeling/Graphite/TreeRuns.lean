import Graphite.CompactionSteps
import Graphite.GuardedRuns
import Graphite.LsmCalls
import Graphite.LsmFlush

/-! Runs of inserts, flushes and compactions of one open tree, and the key ranges of the
tables of the deeper levels: they stay apart as long as no compaction writes a table over
the range of one that the next level already has. -/

namespace Graphite
open KeyedRows LockProgram GuardedRuns CompactionManager

namespace LsmTree

/-- A step of the compaction manager. -/
def onCompaction (f : CompactM Unit) : LsmM Unit := fun (s, time) =>
  ((f (s.compaction, time)).1.mapError (Stop.map .compaction),
    ({ s with compaction := (f (s.compaction, time)).2.1 }, (f (s.compaction, time)).2.2))

def compact (p : Platform) (env : Env) : LsmOp Unit :=
  withGuard .compaction .write (attempt (onCompaction (CompactionManager.compact p env)))

end LsmTree

/-- A call that changes what the tree stores. -/
inductive TreeCall where
  | insertion (call : InsertCall)
  | flushMemtable
  | compact
  deriving DecidableEq, Repr

namespace TreeCall
open LsmTree

variable (p : Platform) (c : Codec) (env : Env)

def op : TreeCall → LsmOp Unit
  | insertion call => call.op p c env
  | flushMemtable => LsmTree.flushMemtable p env
  | compact => LsmTree.compact p env

/-- The tree and the time when the call has returned or waits for itself. -/
def step (st : LsmTree × Nat) (call : TreeCall) : LsmTree × Nat :=
  (exec (call.op p c env) [] st).state

/-- What a call can do to a tree that nobody else uses. -/
inductive Moves (s : LsmTree) : TreeCall → LsmTree → Prop
  | stored (call : InsertCall) {dict : SymbolDictionary} {rows : List Tick} (wal : Wal)
    (hgrown : s.symbolDict.idToSymbol <+: dict.idToSymbol) (hknown : InsertCall.Known dict rows) :
    Moves s (.insertion call) (((s.withDict dict).take rows).withWal wal)
  | stuck (call : InsertCall) {dict : SymbolDictionary} {rows : List Tick} (wal : Wal)
    (hgrown : s.symbolDict.idToSymbol <+: dict.idToSymbol) :
    Moves s (.insertion call) { ((s.withDict dict).take rows).withWal wal with memtable := .new }
  | idle : Moves s .flushMemtable s
  | unwritten : Moves s .flushMemtable s.drained
  | flushed {time : Nat} {t : Table} (ht : s.flushTable p env time = some t) (wal : Wal) :
    Moves s .flushMemtable ((s.drained.register t).withWal wal)
  | compacted (time : Nat) : Moves s .compact
    { s with compaction := (CompactionManager.compact p env (s.compaction, time)).2.1 }

variable {p c env}

theorem moves (p : Platform) (c : Codec) (env : Env) {s : LsmTree}
    (hlevels : s.compaction.levels ≠ []) (time : Nat) (call : TreeCall) :
    Moves p env s call (step p c env (s, time) call).1 := by
  cases call with
  | insertion call =>
    obtain ⟨dict, rows, wal, hgrown, hknown, h | h⟩ := InsertCall.leaves p c env call s time
    · rw [step, op, h]
      exact .stored call wal hgrown hknown
    · rw [step, op, h]
      exact .stuck call wal hgrown
  | flushMemtable =>
    have hends := flush_ends p env hlevels time
    rw [step, op]
    generalize exec (LsmTree.flushMemtable p env) [] (s, time) = outcome at hends
    cases hends with
    | nothing _ => exact .idle
    | unwritten _ _ _ => exact .unwritten
    | written _ ht _ => exact .flushed ht _
  | compact =>
    rw [step, op, LsmTree.compact, exec_withGuard, if_neg (by decide), exec_attempt]
    exact .compacted time

end TreeCall

/-- The list ends before the other one starts. -/
def EndsBefore (xs ys : List Tick) : Prop :=
  ∀ x ∈ xs.getLast?, ∀ y ∈ ys.head?, x.key < y.key

/-- The ranges from the first to the last key of two lists of rows have no key in common. -/
def DisjointRanges (xs ys : List Tick) : Prop := EndsBefore xs ys ∨ EndsBefore ys xs

instance (xs ys : List Tick) : Decidable (DisjointRanges xs ys) :=
  inferInstanceAs (Decidable ((∀ x ∈ _, ∀ y ∈ _, _) ∨ ∀ x ∈ _, ∀ y ∈ _, _))

/-- The chunks of a list whose keys increase lie one behind the other. -/
theorem pairwise_chunks {size : Nat} (hsize : 0 < size) {rows : List Tick}
    (h : Increasing Tick.key rows) : (chunks size rows).Pairwise EndsBefore := by
  have hflat : ((chunks size rows).flatten).Pairwise fun x y => x.key < y.key := by
    rw [flatten_chunks hsize]
    exact h
  refine (List.pairwise_flatten.mp hflat).2.imp fun hlt x hx y hy => ?_
  exact hlt x (List.mem_of_getLast? hx) y (List.mem_of_head? hy)

namespace CompactionManager

variable {p : Platform} {m m₁ m₂ : CompactionManager}

/-- A compaction only adds levels. -/
theorem levels_compact_ne_nil (env : Env) (h : m.levels ≠ []) (time : Nat) :
    (compact p env (m, time)).2.1.levels ≠ [] := by
  refine compact_induct (p := p) (Q := fun m => m.levels ≠ []) h (fun i m₁ m₂ _ _ hm h => ?_) time
  have hlen := List.length_pos_of_ne_nil hm
  exact List.ne_nil_of_length_pos (hlen.trans_le h.length)

/-- Any two tables of a level from 1 on have disjoint key ranges. -/
def Separated (m : CompactionManager) : Prop :=
  ∀ n, 0 < n → (m.tablesAt n).Pairwise fun a b => DisjointRanges a.rows b.rows

/-- What a compaction merges out of a level that is due lies beside the tables of the next
level. -/
def LandsBeside (p : Platform) (m : CompactionManager) : Prop :=
  ∀ i ∈ m.due p,
    ∀ chunk ∈ chunks CHUNK_SIZE (mergeRows Tick.key ((m.gathered p i).flatMap Table.rows)),
      ∀ t ∈ m.tablesAt (i + 1), DisjointRanges t.rows chunk

instance (p : Platform) (m : CompactionManager) : Decidable (LandsBeside p m) :=
  inferInstanceAs (Decidable (∀ _ ∈ _, ∀ _ ∈ _, ∀ _ ∈ _, _))

theorem separated_merge {i : Nat} (hbeside : LandsBeside p m) (hdue : i ∈ m.due p)
    (hprogress : Progress p m i m₁) (hsep : Separated m₁) (h : PartlyMerged p i m₁ m₂) :
    Separated m₂ := by
  intro n hn
  by_cases hi : n = i
  · subst hi
    rcases h.here with hsame | hnil
    · rw [hsame]
      exact hsep n hn
    · rw [hnil]
      exact List.Pairwise.nil
  by_cases hnext : n = i + 1
  · subst hnext
    obtain ⟨tables, happ, hparts, -⟩ := h.next
    rw [rows_congr hprogress.here] at hparts
    have hchunks := pairwise_chunks (by decide : 0 < CHUNK_SIZE)
      (increasing_mergeRows Tick.key ((m.gathered p i).flatMap Table.rows))
    have hnew : tables.Pairwise fun a b => DisjointRanges a.rows b.rows :=
      (List.pairwise_map.mp (hchunks.sublist hparts.sublist)).imp Or.inl
    rw [happ, hprogress.below (i + 1) (Nat.lt_succ_self i)]
    have hold := hsep (i + 1) hn
    rw [hprogress.below (i + 1) (Nat.lt_succ_self i)] at hold
    refine List.pairwise_append.mpr ⟨hold, hnew, fun t ht t' ht' => ?_⟩
    exact hbeside i hdue t'.rows (hparts.subset (List.mem_map_of_mem ht')) t ht
  · rw [h.others n hi hnext]
    exact hsep n hn

theorem separated_compact (env : Env) (hbeside : LandsBeside p m) (h : Separated m) (time : Nat) :
    Separated (compact p env (m, time)).2.1 :=
  compact_induct h (fun _ _ _ => separated_merge hbeside) time

end CompactionManager

namespace LsmTree

theorem tablesAt_register {s : LsmTree} (hlevels : s.compaction.levels ≠ []) (t : Table) (n : Nat) :
    (s.register t).compaction.tablesAt n =
      if n = 0 then s.compaction.tablesAt n ++ [t] else s.compaction.tablesAt n := by
  rw [← tablesAt_addTable s.compaction (List.length_pos_of_ne_nil hlevels) t n]
  exact tablesAt_congr rfl n

theorem levels_register_ne_nil {s : LsmTree} (hlevels : s.compaction.levels ≠ []) (t : Table) :
    (s.register t).compaction.levels ≠ [] :=
  fun hnil => hlevels (List.modify_eq_nil_iff.mp hnil)

end LsmTree

namespace TreeCall
open LsmTree

variable {p : Platform} {c : Codec} {env : Env}

theorem levels_of_moves {s s' : LsmTree} {call : TreeCall} (h : Moves p env s call s')
    (hlevels : s.compaction.levels ≠ []) : s'.compaction.levels ≠ [] := by
  cases h with
  | stored => exact hlevels
  | stuck => exact hlevels
  | idle => exact hlevels
  | unwritten => exact hlevels
  | flushed => exact levels_register_ne_nil (s := s.drained) hlevels _
  | compacted time => exact levels_compact_ne_nil env hlevels time

/-- A compaction lands beside the tables of the next levels. -/
def KeepsApart (p : Platform) (st : LsmTree × Nat) : TreeCall → Prop
  | .insertion _ => True
  | .flushMemtable => True
  | .compact => LandsBeside p st.1.compaction

instance (p : Platform) (st : LsmTree × Nat) (call : TreeCall) :
    Decidable (KeepsApart p st call) :=
  match call with
  | .insertion _ => isTrue trivial
  | .flushMemtable => isTrue trivial
  | .compact => inferInstanceAs (Decidable (LandsBeside p _))

theorem separated_of_moves {s s' : LsmTree} {call : TreeCall} {time : Nat}
    (h : Moves p env s call s') (hlevels : s.compaction.levels ≠ [])
    (hsep : Separated s.compaction) (hapart : KeepsApart p (s, time) call) :
    Separated s'.compaction := by
  cases h with
  | stored => exact hsep
  | stuck => exact hsep
  | idle => exact hsep
  | unwritten => exact hsep
  | @flushed _ t ht wal =>
    intro n hn
    have htables := tablesAt_register (s := s.drained) hlevels t n
    rw [if_neg hn.ne'] at htables
    rw [show ((s.drained.register t).withWal wal).compaction.tablesAt n = _ from htables]
    exact hsep n hn
  | compacted time => exact separated_compact env hapart hsep time

/-- Inserts of zero-priced ticks of one symbol at these timestamps, each flushed. -/
def flushes (timestamps : List Int64) : List TreeCall :=
  timestamps.flatMap fun t => [.insertion (.insert "A" (flatTick 0 t 1)), .flushMemtable]

def ticksCodec (timestamps : List Int64) : Codec :=
  Codec.forTicks (timestamps.map fun t => flatTick 0 t 1)

/-- The tables of every deeper level stay apart when each compaction lands beside them. -/
theorem deeper_levels_apart (p : Platform) (c : Codec) (env : Env) (flushThreshold : Nat)
    (role : NodeRole) (calls : List TreeCall)
    (h : Guarded (step p c env) (KeepsApart p) (fresh flushThreshold role, 0) calls) :
    Always (step p c env) (fun st => Separated st.1.compaction) (fresh flushThreshold role, 0)
      calls := by
  refine always_of_guarded
    (fun st => st.1.compaction.levels ≠ [] ∧ Separated st.1.compaction) (fun _ hinv => hinv.2)
    ?_ ⟨List.cons_ne_nil _ _, fun n hn => ?_⟩ h
  · rintro ⟨s, time⟩ call ⟨hlevels, hsep⟩ hapart
    have hmoves := moves p c env hlevels time call
    exact ⟨levels_of_moves hmoves hlevels, separated_of_moves hmoves hlevels hsep hapart⟩
  · obtain ⟨k, rfl⟩ := Nat.exists_eq_succ_of_ne_zero hn.ne'
    exact List.Pairwise.nil

/-- Two compactions, the second one of newer rows. -/
theorem deeper_levels_apart_newer_rows :
    Always (step .simple (ticksCodec [1, 2, 3, 4, 5, 6, 7, 8]) .calm)
      (fun st => Separated st.1.compaction) (fresh 10 .primary, 0)
      (flushes [1, 2, 3, 4] ++ [.compact] ++ flushes [5, 6, 7, 8] ++ [.compact]) :=
  deeper_levels_apart .simple (ticksCodec [1, 2, 3, 4, 5, 6, 7, 8]) .calm 10 .primary _
    (by decide +kernel)

/-- The call returns normally. -/
def Returns (p : Platform) (c : Codec) (env : Env) (st : LsmTree × Nat) (call : TreeCall) : Prop :=
  (exec (call.op p c env) [] st).succeeded = true

instance (st : LsmTree × Nat) (call : TreeCall) : Decidable (Returns p c env st call) :=
  inferInstanceAs (Decidable (_ = true))

/-- The second compaction writes a table into the range of the first one's. -/
theorem deeper_levels_overlap :
    Guarded (step .simple (ticksCodec [1, 9, 2, 3, 5, 6, 7, 8]) .calm)
      (Returns .simple (ticksCodec [1, 9, 2, 3, 5, 6, 7, 8]) .calm) (fresh 10 .primary, 0)
      (flushes [1, 9, 2, 3] ++ [.compact] ++ flushes [5, 6, 7, 8] ++ [.compact]) ∧
    ¬ Always (step .simple (ticksCodec [1, 9, 2, 3, 5, 6, 7, 8]) .calm)
      (fun st => Separated st.1.compaction) (fresh 10 .primary, 0)
      (flushes [1, 9, 2, 3] ++ [.compact] ++ flushes [5, 6, 7, 8] ++ [.compact]) := by
  refine ⟨by decide +kernel, fun h => ?_⟩
  have hpairs := h _ (List.prefix_refl _) 1 Nat.one_pos
  revert hpairs
  decide +kernel

end TreeCall

end Graphite
