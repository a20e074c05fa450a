import Graphite.PrimaryStream
import Graphite.ReplicaRestart

/-! A replica that pulls pages of a primary's log behind its own position and applies them.
As long as the primary flushes only what the replica has, the replica has applied every
record up to its position, whatever the sizes of the pages, whichever of its own calls fail,
and wherever the primary's inserts fall in between. -/

namespace Graphite
open KeyedRows LockProgram GuardedRuns

namespace LsmTree

variable {p : Platform} {c : Codec} {env : Env} {s : LsmTree} {time : Nat}

/-- The part of a call that stores the batch in the log and in the memtable succeeds. -/
def takesBatch (c : Codec) (env : Env) (st : LsmTree × Nat) (entries : List ReplicationEntry) : Bool :=
  (exec (storeReplicated c env entries) [] st).succeeded

/-- What a replica's tree keeps in a call besides its rows. -/
structure KeepsPosition (s s' : LsmTree) : Prop where
  role : s'.role = s.role
  levels : s.compaction.levels ≠ [] → s'.compaction.levels ≠ []
  position : s'.lastPrimarySequence = s.lastPrimarySequence

theorem exec_flushIfFull_alone (p : Platform) (env : Env) (hlevels : s.compaction.levels ≠ [])
    (memtableLen time : Nat) : ∃ r s' time', exec (flushIfFull p env memtableLen) [] (s, time) =
      .finished r [] (s', time') ∧ KeepsPosition s s' := by
  rw [flushIfFull, exec_bind_ok (exec_gets _ _ _)]
  split_ifs
  · have hends := flush_ends p env hlevels time
    generalize exec (flushMemtable p env) [] (s, time) = outcome at hends
    cases hends with
    | nothing h => exact ⟨_, _, _, rfl, rfl, id, rfl⟩
    | unwritten h hnone e => exact ⟨_, _, _, rfl, rfl, id, rfl⟩
    | written h ht r =>
      exact ⟨_, _, _, rfl, rfl, fun hlevels => levels_register_ne_nil (s := s.drained) hlevels _, rfl⟩
  · exact ⟨_, _, _, rfl, rfl, id, rfl⟩

/-- The position moves to the number of the batch unless it is behind it already. -/
theorem exec_advance (env : Env) (sequence : Nat) (s : LsmTree) (time : Nat) :
    ∃ r time', exec (withGuard Lock.replication .write (attempt (advance env sequence))) []
      (s, time) = .finished r [] (if sequence ≥ s.lastPrimarySequence.getD 0 then
        { s with lastPrimarySequence := some sequence } else s, time') := by
  have hadvance : ∃ r time', advance env sequence (s, time) =
      (r, if sequence ≥ s.lastPrimarySequence.getD 0 then
        { s with lastPrimarySequence := some sequence } else s, time') := by
    unfold advance
    rw [DiskM.current_bind]
    split_ifs
    · exact ⟨_, time + 1, rfl⟩
    · exact ⟨.ok (), time, rfl⟩
  obtain ⟨r, time', h⟩ := hadvance
  exact ⟨r, time', exec_withGuard_attempt (by decide) h⟩

/-- The tree with the batch in its log and in its memtable. -/
def withBatch (c : Codec) (env : Env) (st : LsmTree × Nat) (entries : List ReplicationEntry) :
    LsmTree :=
  (st.1.logged c (env.disk st.2) entries).take (st.1.symbolDict.resolveEntries entries).1

/-- The tree after the test of the flush threshold, and the flush if it is due. -/
def flushedIfFull (p : Platform) (env : Env) (st : LsmTree × Nat) : LsmTree :=
  (exec (flushIfFull p env st.1.memtable.len) [] st).state.1

/-- Two trees with the same rows and symbols. -/
structure SameStore (s s' : LsmTree) : Prop where
  memtable : s'.memtable = s.memtable
  compaction : s'.compaction = s.compaction
  symbolDict : s'.symbolDict = s.symbolDict

/-- The end of a batch: the position moves, and the number of rows is the answer. -/
theorem exec_advance_return (env : Env) (sequence count : Nat) (s : LsmTree) (time : Nat) :
    ∃ r time', exec (do
        withGuard Lock.replication .write (attempt (advance env sequence))
        return count : LsmOp Nat) [] (s, time) =
      .finished r [] (if sequence ≥ s.lastPrimarySequence.getD 0 then
        { s with lastPrimarySequence := some sequence } else s, time') := by
  obtain ⟨r, time', hadvance⟩ := exec_advance env sequence s time
  cases r with
  | error e => exact ⟨.error e, time', exec_bind_error hadvance fun _ => pure count⟩
  | ok _ => exact ⟨.ok count, time', exec_bind_ok hadvance fun _ => pure count⟩

/-- How a batch that is not empty ends on a replica. -/
structure Applied (p : Platform) (c : Codec) (env : Env) (s : LsmTree) (time : Nat)
    (entries : List ReplicationEntry) (r : Except (Stop LsmError) Nat) (s' : LsmTree) : Prop where
  role : s'.role = s.role
  levels : s'.compaction.levels ≠ []
  taken : ∀ n, r = .ok n → takesBatch c env (s, time) entries = true
  position : s'.lastPrimarySequence = s.lastPrimarySequence ∨
    takesBatch c env (s, time) entries = true ∧
      s'.lastPrimarySequence = some (Replica.maxSeq entries)
  moved : ∀ n, r = .ok n → s.lastPrimarySequence.getD 0 ≤ Replica.maxSeq entries →
    s'.lastPrimarySequence = some (Replica.maxSeq entries)
  content : takesBatch c env (s, time) entries = false ∧
      SameStore (s.logged c (env.disk time) entries) s' ∨
    takesBatch c env (s, time) entries = true ∧
      SameStore (flushedIfFull p env (withBatch c env (s, time) entries, time + 1)) s'

theorem exec_apply (p : Platform) (c : Codec) (env : Env) (hrole : s.role = .replica)
    (hlevels : s.compaction.levels ≠ []) (time : Nat) {entries : List ReplicationEntry}
    (hne : entries ≠ []) : ∃ r s' time', exec (applyReplicationBatch p c env entries) [] (s, time) =
      .finished r [] (s', time') ∧ Applied p c env s time entries r s' := by
  rw [applyReplicationBatch, if_neg hne, exec_bind_ok (exec_gets _ _ _),
    if_neg (by simpa using hrole)]
  cases hlog : (s.logReplicated c (env.disk time) entries).1 with
  | error e =>
    have htakes : takesBatch c env (s, time) entries = false := by
      rw [takesBatch, exec_storeReplicated_of_error hlog]
      rfl
    rw [exec_bind_error (exec_storeReplicated_of_error hlog)]
    exact ⟨_, _, _, rfl, rfl, hlevels, fun _ hok => (by cases hok), Or.inl rfl,
      fun _ hok => (by cases hok), Or.inl ⟨htakes, rfl, rfl, rfl⟩⟩
  | ok n =>
    have htakes : takesBatch c env (s, time) entries = true := by
      rw [takesBatch, exec_storeReplicated_of_ok hlog]
      rfl
    rw [exec_bind_ok (exec_storeReplicated_of_ok hlog)]
    obtain ⟨r, s₁, time₁, hflush, hkeeps⟩ := exec_flushIfFull_alone p env
      (s := withBatch c env (s, time) entries) hlevels
      (withBatch c env (s, time) entries).memtable.len (time + 1)
    have hflushed : flushedIfFull p env (withBatch c env (s, time) entries, time + 1) = s₁ := by
      rw [flushedIfFull, hflush]
      rfl
    have hafter {s₂ : LsmTree} (r : Except (Stop LsmError) Nat) (hrole : s₂.role = s₁.role)
        (hsame : SameStore s₁ s₂) (hposition : s₂.lastPrimarySequence = s₁.lastPrimarySequence ∨
          s₂.lastPrimarySequence = some (Replica.maxSeq entries))
        (hmoved : ∀ n, r = .ok n → s.lastPrimarySequence.getD 0 ≤ Replica.maxSeq entries →
          s₂.lastPrimarySequence = some (Replica.maxSeq entries)) :
        Applied p c env s time entries r s₂ := by
      refine ⟨hrole.trans hkeeps.role, ?_, fun _ _ => htakes, ?_, hmoved,
        Or.inr ⟨htakes, hflushed ▸ hsame⟩⟩
      · rw [hsame.compaction]
        exact hkeeps.levels hlevels
      · exact hposition.imp (fun h => h.trans hkeeps.position) fun h => ⟨htakes, h⟩
    cases r with
    | error e =>
      exact ⟨_, _, _, exec_bind_error hflush fun _ => _,
        hafter _ rfl ⟨rfl, rfl, rfl⟩ (Or.inl rfl) fun _ hok => by cases hok⟩
    | ok _ =>
      obtain ⟨r, time₂, hadvance⟩ :=
        exec_advance_return env (Replica.maxSeq entries) entries.length s₁ time₁
      have hmoved : Applied p c env s time entries r
          (if Replica.maxSeq entries ≥ s₁.lastPrimarySequence.getD 0 then
            { s₁ with lastPrimarySequence := some (Replica.maxSeq entries) } else s₁) := by
        split_ifs with hahead
        · exact hafter r rfl ⟨rfl, rfl, rfl⟩ (Or.inr rfl) fun _ _ _ => rfl
        · refine hafter r rfl ⟨rfl, rfl, rfl⟩ (Or.inl rfl) fun _ _ hle => absurd ?_ hahead
          rw [show s₁.lastPrimarySequence = s.lastPrimarySequence from hkeeps.position]
          exact hle
      exact ⟨r, _, time₂, (exec_bind_ok hflush fun _ => _).trans hadvance, hmoved⟩

/-- The number of a batch whose numbers increase is its last one. -/
theorem maxSeq_eq {entries : List ReplicationEntry}
    (h : (entries.map ReplicationEntry.sequence).Pairwise (· < ·)) (hne : entries ≠ []) :
    some (Replica.maxSeq entries) = entries.getLast?.map ReplicationEntry.sequence := by
  obtain ⟨front, last, rfl⟩ := (List.eq_nil_or_concat' entries).resolve_left hne
  have hmax : (((front ++ [last]).map ReplicationEntry.sequence).max?) = some last.sequence := by
    rw [List.max?_eq_some_iff]
    rw [List.map_append, List.map_singleton] at h ⊢
    refine ⟨List.mem_append_right _ List.mem_cons_self, fun n hn => ?_⟩
    rcases List.mem_append.mp hn with hn | hn
    · exact ((List.pairwise_append.mp h).2.2 n hn _ (List.mem_singleton_self _)).le
    · exact (List.mem_singleton.mp hn).le
  rw [Replica.maxSeq, hmax, List.getLast?_concat]
  rfl

end LsmTree

/-- A primary, a replica that pulls from it, the page on its way, and the entries that the
replica has stored. -/
structure Pulling where
  primary : Primary
  tree : LsmTree
  time : Nat
  fetched : Option (List ReplicationEntry)
  applied : List ReplicationEntry

namespace Pulling
open LsmTree LogShipping

inductive Event where
  | primary (call : StoreCall)
  | fetch (limit : Nat)
  | apply
  deriving DecidableEq, Repr

def start (primaryThreshold replicaThreshold : Nat) : Pulling :=
  ⟨.start primaryThreshold, fresh replicaThreshold .replica, 0, none, []⟩

/-- The page behind the position of the replica; an error of the primary is no page. -/
def fetch (c : Codec) (r : Pulling) (limit : Nat) : Pulling :=
  match exec (readWalForReplication c r.tree.lastPrimarySequence limit) []
      (r.primary.tree, r.primary.time) with
  | .finished (.ok entries) _ st =>
    { r with primary := ⟨st.1, st.2, r.primary.appended⟩, fetched := some entries }
  | .finished (.error _) _ st =>
    { r with primary := ⟨st.1, st.2, r.primary.appended⟩, fetched := none }
  | .blocked _ _ st => { r with primary := ⟨st.1, st.2, r.primary.appended⟩, fetched := none }

/-- `apply_replication_batch` of the page, whatever it returns. -/
def apply (p : Platform) (c : Codec) (env : Env) (r : Pulling) (entries : List ReplicationEntry) :
    Pulling :=
  let outcome := exec (applyReplicationBatch p c env entries) [] (r.tree, r.time)
  { r with
    tree := outcome.state.1
    time := outcome.state.2
    fetched := none
    applied := if takesBatch c env (r.tree, r.time) entries then r.applied ++ entries else r.applied }

def step (p : Platform) (c : Codec) (env env' : Env) (r : Pulling) : Event → Pulling
  | .primary call => { r with primary := r.primary.step p c env call }
  | .fetch limit => fetch c r limit
  | .apply => (r.fetched.map (apply p c env' r)).getD r

/-- The primary's inserts log whole records, and it flushes only what the replica's position
covers. -/
def Orderly (p : Platform) (c : Codec) (env : Env) (r : Pulling) : Event → Prop
  | .primary call => r.primary.Logs p c env call ∧ (call = .flushMemtable →
      r.primary.tree.memtable.chain = [] ∨
        ∀ e ∈ r.primary.appended, ∃ s ∈ r.tree.lastPrimarySequence, e.sequence ≤ s)
  | .fetch _ => True
  | .apply => True

instance (p : Platform) (c : Codec) (env : Env) (r : Pulling) (e : Event) :
    Decidable (r.Orderly p c env e) :=
  match e with
  | .primary _ => inferInstanceAs (Decidable (_ ∧ (_ → _ ∨ ∀ _ ∈ _, ∃ _ ∈ _, _)))
  | .fetch _ => isTrue trivial
  | .apply => isTrue trivial

/-- The replica has stored nothing but records of the primary, and all of them up to its
position. -/
structure NoGap (r : Pulling) : Prop where
  sound : ∀ e ∈ r.applied, e ∈ r.primary.appended
  complete : Complete ReplicationEntry.sequence r.primary.appended (· ∈ r.applied)
    r.tree.lastPrimarySequence

structure Inv (c : Codec) (r : Pulling) : Prop extends NoGap r where
  streams : ∃ gone held first, r.primary.Streams c gone held first ∧
    ∀ e ∈ gone, ∃ s ∈ r.tree.lastPrimarySequence, e.sequence ≤ s
  role : r.tree.role = .replica
  levels : r.tree.compaction.levels ≠ []
  position : ∀ s ∈ r.tree.lastPrimarySequence, s < r.primary.tree.wal.sequence
  fits : ∀ batch ∈ r.fetched, batch <+: SortedPages.beyond ReplicationEntry.sequence
    r.tree.lastPrimarySequence r.primary.appended

variable {p : Platform} {c : Codec} {env env' : Env} {r : Pulling}

theorem inv_start (c : Codec) (primaryThreshold replicaThreshold : Nat) :
    Inv c (start primaryThreshold replicaThreshold) where
  sound := List.forall_mem_nil _
  complete := complete_none _ _
  streams := ⟨[], [], 0, Primary.streams_start c primaryThreshold, List.forall_mem_nil _⟩
  role := rfl
  levels := List.cons_ne_nil _ _
  position := nofun
  fits := nofun

theorem inv_insertion (h : Inv c r) {call : InsertCall}
    (hlogs : r.primary.Logs p c env (.insertion call)) :
    Inv c (step p c env env' r (.primary (.insertion call))) := by
  obtain ⟨gone, held, first, hstreams, hgone⟩ := h.streams
  obtain ⟨new, hstreams', hnew⟩ := Primary.streams_insertion hstreams hlogs
  have happended : (r.primary.step p c env (.insertion call)).appended =
      r.primary.appended ++ new := by
    rw [hstreams'.appended, hstreams.appended, List.append_assoc]
  have hsequence : r.primary.tree.wal.sequence ≤
      (r.primary.step p c env (.insertion call)).tree.wal.sequence := by
    rw [hstreams'.sequence, hstreams.sequence, List.length_append]
    omega
  refine ⟨⟨fun e he => ?_, ?_⟩, ⟨gone, held ++ new, first, hstreams', hgone⟩, h.role, h.levels,
    fun s hs => (h.position s hs).trans_le hsequence, fun batch hbatch => ?_⟩
  · change e ∈ (r.primary.step p c env (.insertion call)).appended
    rw [happended]
    exact List.mem_append_left new (h.sound e he)
  · have hpast : ∀ e ∈ new, ∀ s ∈ r.tree.lastPrimarySequence, s < e.sequence := fun e he s hs =>
      (h.position s hs).trans_le (hnew e he)
    have hcomplete := h.complete.append hpast
    rwa [← happended] at hcomplete
  · change batch <+: SortedPages.beyond ReplicationEntry.sequence r.tree.lastPrimarySequence
      (r.primary.step p c env (.insertion call)).appended
    rw [happended, SortedPages.beyond, List.filter_append]
    exact (h.fits batch hbatch).trans (List.prefix_append _ _)

theorem inv_flushMemtable (h : Inv c r) (hcovered : r.primary.tree.memtable.chain = [] ∨
    ∀ e ∈ r.primary.appended, ∃ s ∈ r.tree.lastPrimarySequence, e.sequence ≤ s) :
    Inv c (step p c env env' r (.primary .flushMemtable)) := by
  obtain ⟨gone, held, first, hstreams, hgone⟩ := h.streams
  rcases Primary.streams_flushMemtable hstreams p env with hstreams' | ⟨hchain, hstreams'⟩
  · exact ⟨⟨h.sound, h.complete⟩, ⟨gone, held, first, hstreams', hgone⟩, h.role, h.levels,
      fun s hs => (h.position s hs).trans_eq (hstreams.sequence.trans hstreams'.sequence.symm), h.fits⟩
  · refine ⟨⟨h.sound, h.complete⟩, ⟨gone ++ held, [], _, hstreams', fun e he => ?_⟩, h.role, h.levels,
      fun s hs => (h.position s hs).trans_eq hstreams'.sequence.symm, h.fits⟩
    rw [← hstreams.appended] at he
    exact hcovered.resolve_left hchain e he

/-- A pull gives a page of everything that was ever appended. -/
theorem Inv.fetch_eq (h : Inv c r) (limit : Nat) :
    fetch c r limit = { r with
      primary := ⟨r.primary.tree, r.primary.time + 1, r.primary.appended⟩
      fetched := some (SortedPages.page ReplicationEntry.sequence r.primary.appended
        r.tree.lastPrimarySequence limit) } := by
  obtain ⟨gone, held, first, hstreams, hgone⟩ := h.streams
  have hnone : SortedPages.beyond ReplicationEntry.sequence r.tree.lastPrimarySequence gone = [] := by
    rw [List.eq_nil_iff_forall_not_mem]
    intro e he
    obtain ⟨hmem, hpast⟩ := mem_beyond.mp he
    obtain ⟨s, hs, hle⟩ := hgone e hmem
    exact absurd hle (not_le.mpr (hpast s hs))
  have hbeyond : SortedPages.beyond ReplicationEntry.sequence r.tree.lastPrimarySequence
      r.primary.appended =
        SortedPages.beyond ReplicationEntry.sequence r.tree.lastPrimarySequence held := by
    rw [hstreams.appended, SortedPages.beyond, List.filter_append]
    rw [SortedPages.beyond] at hnone
    rw [hnone]
    rfl
  rw [fetch, hstreams.read, SortedPages.page, SortedPages.page, hbeyond]

theorem inv_fetch (h : Inv c r) (limit : Nat) : Inv c (fetch c r limit) := by
  obtain ⟨gone, held, first, hstreams, hgone⟩ := h.streams
  rw [h.fetch_eq]
  refine ⟨⟨h.sound, h.complete⟩, ⟨gone, held, first, hstreams.same ⟨List.prefix_rfl, id⟩ rfl rfl, hgone⟩,
    h.role, h.levels, h.position, fun batch hbatch => ?_⟩
  obtain rfl := Option.some.inj hbatch
  exact List.take_prefix limit _

theorem Inv.increasing (h : Inv c r) :
    (r.primary.appended.map ReplicationEntry.sequence).Pairwise (· < ·) := by
  obtain ⟨gone, held, first, hstreams, -⟩ := h.streams
  exact hstreams.increasing

theorem Inv.sound_fetched (h : Inv c r) {batch : List ReplicationEntry} (hbatch : batch ∈ r.fetched) :
    ∀ e ∈ batch, e ∈ r.primary.appended :=
  fun _ he => (mem_beyond.mp ((h.fits batch hbatch).subset he)).1

/-- A page that moves the position moves it to its last entry. -/
theorem Inv.moves (h : Inv c r) {batch : List ReplicationEntry} (hbatch : batch ∈ r.fetched)
    (hne : batch ≠ []) : ∃ x ∈ batch.getLast?, Replica.maxSeq batch = x.sequence ∧
      ∀ s ∈ r.tree.lastPrimarySequence, s < x.sequence := by
  have hsorted : (batch.map ReplicationEntry.sequence).Pairwise (· < ·) :=
    (SortedPages.sorted_beyond _ h.increasing _).sublist ((h.fits batch hbatch).sublist.map _)
  obtain ⟨x, hx, hmax⟩ := Option.map_eq_some_iff.mp (maxSeq_eq hsorted hne).symm
  exact ⟨x, hx, hmax.symm,
    (mem_beyond.mp ((h.fits batch hbatch).subset (List.mem_of_getLast? hx))).2⟩

theorem inv_apply (h : Inv c r) {batch : List ReplicationEntry} (hbatch : batch ∈ r.fetched) :
    Inv c (apply p c env r batch) := by
  obtain ⟨gone, held, first, hstreams, hgone⟩ := h.streams
  rw [apply]
  by_cases hne : batch = []
  · subst hne
    rw [applyReplicationBatch, if_pos rfl, List.append_nil, ite_self]
    exact ⟨⟨h.sound, h.complete⟩, h.streams, h.role, h.levels, h.position,
      fun _ hb => by cases hb⟩
  obtain ⟨r', s', time', hexec, happlied⟩ := exec_apply p c env h.role h.levels r.time hne
  rw [hexec]
  generalize hall : (if takesBatch c env (r.tree, r.time) batch = true then r.applied ++ batch
    else r.applied) = applied
  have hmore : ∀ e ∈ r.applied, e ∈ applied := by
    rw [← hall]
    split_ifs
    · exact fun e he => List.mem_append_left batch he
    · exact fun e he => he
  have hsound : ∀ e ∈ applied, e ∈ r.primary.appended := by
    rw [← hall]
    split_ifs
    · exact fun e he => (List.mem_append.mp he).elim (h.sound e) (h.sound_fetched hbatch e)
    · exact h.sound
  have hposition : Complete ReplicationEntry.sequence r.primary.appended (· ∈ applied)
        s'.lastPrimarySequence ∧ (∀ s ∈ s'.lastPrimarySequence, s < r.primary.tree.wal.sequence) ∧
      ∀ s ∈ r.tree.lastPrimarySequence, ∃ s'' ∈ s'.lastPrimarySequence, s ≤ s'' := by
    rcases happlied.position with hsame | ⟨htakes, hmoved⟩
    · rw [hsame]
      exact ⟨h.complete.mono hmore, h.position, fun s hs => ⟨s, hs, le_rfl⟩⟩
    · rw [if_pos htakes] at hall
      obtain ⟨x, hx, hmax, hpast⟩ := h.moves hbatch hne
      rw [hmoved, hmax]
      refine ⟨(h.complete.mono hmore).advance h.increasing (h.fits batch hbatch) (fun e he => ?_) hx,
        ?_, fun s hs => ⟨_, rfl, (hpast s hs).le⟩⟩
      · rw [← hall]
        exact List.mem_append_right _ he
      · rintro _ ⟨⟩
        exact hstreams.below x (h.sound_fetched hbatch x (List.mem_of_getLast? hx))
  refine ⟨⟨hsound, hposition.1⟩, ⟨gone, held, first, hstreams, fun e he => ?_⟩,
    happlied.role.trans h.role, happlied.levels, hposition.2.1,
    fun _ hb => by cases hb⟩
  obtain ⟨s, hs, hle⟩ := hgone e he
  obtain ⟨s'', hs'', hle'⟩ := hposition.2.2 s hs
  exact ⟨s'', hs'', hle.trans hle'⟩

theorem inv_step (p : Platform) (c : Codec) (env env' : Env) (r : Pulling) (e : Event) (h : Inv c r)
    (horderly : r.Orderly p c env e) : Inv c (step p c env env' r e) := by
  cases e with
  | primary call =>
    cases call with
    | insertion call => exact inv_insertion h horderly.1
    | flushMemtable => exact inv_flushMemtable h (horderly.2 rfl)
  | fetch limit => exact inv_fetch h limit
  | apply =>
    rw [step]
    cases hfetched : r.fetched with
    | none => exact h
    | some batch => exact inv_apply h hfetched

/-- Pulls leave no gap. -/
theorem pulls_leave_no_gap (p : Platform) (c : Codec) (env env' : Env)
    (primaryThreshold replicaThreshold : Nat) (events : List Event)
    (h : Guarded (step p c env env') (Orderly p c env) (start primaryThreshold replicaThreshold)
      events) :
    Always (step p c env env') NoGap (start primaryThreshold replicaThreshold) events :=
  always_of_guarded (Inv c) (fun _ => Inv.toNoGap) (inv_step p c env env')
    (inv_start c primaryThreshold replicaThreshold) h

set_option maxRecDepth 20000 in
/-- An insert between a pull and its arrival, a second page, and a flush of what both had. -/
theorem pulls_leave_no_gap_two_pages :
    Always (step .simple History.versionsCodec .calm .calm) NoGap (start 10 10)
      [.primary (History.insertA 1), .fetch 500, .primary (History.insertA 2), .apply, .fetch 500,
        .apply, .primary .flushMemtable] :=
  pulls_leave_no_gap .simple History.versionsCodec .calm .calm 10 10 _ (by decide +kernel)

end Pulling

end Graphite
