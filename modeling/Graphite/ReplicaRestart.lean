import Graphite.ReplicaFiles

/-! What a replica finds when it is restarted after a crash in the middle of a batch. The
rows are in the log before the position is written, so whatever the position says is backed
by rows; but `replication.json` is written in place, and a text that is cut off fails the
open. -/

namespace Graphite
open BigEndian KeyedRows LockProgram

/-- Of the rows applied in this order, each one with a position up to the last one is held,
or a later one of its key is. -/
def HeldUpTo (last : Option Nat) (applied : List (Nat × Tick)) (held : Tick → Prop) : Prop :=
  ∀ front sequence x back, applied = front ++ (sequence, x) :: back →
    (∃ s, last = some s ∧ sequence ≤ s) → ∃ y ∈ x :: back.map Prod.snd, y.key = x.key ∧ held y

/-- Every row applied is held, or a later one of its key is. -/
def HeldOrNewer (rows : List Tick) (held : Tick → Prop) : Prop :=
  ∀ front x back, rows = front ++ x :: back → ∃ y ∈ x :: back, y.key = x.key ∧ held y

theorem HeldOrNewer.upTo {applied : List (Nat × Tick)} {held : Tick → Prop}
    (h : HeldOrNewer (applied.map Prod.snd) held) (last : Option Nat) :
    HeldUpTo last applied held := by
  intro front sequence x back happlied _
  refine h (front.map Prod.snd) x (back.map Prod.snd) ?_
  rw [happlied, List.map_append, List.map_cons]

theorem HeldOrNewer.mono {rows : List Tick} {held held' : Tick → Prop} (h : HeldOrNewer rows held)
    (himp : ∀ x, held x → held' x) : HeldOrNewer rows held' := by
  intro front x back hrows
  obtain ⟨y, hy, hkey, hheld⟩ := h front x back hrows
  exact ⟨y, hy, hkey, himp y hheld⟩

/-- The memtable with more rows holds the last one of each of their keys, and what it held of
other keys. -/
theorem exists_mem_insertAll (m : SkipList) (ticks : List Tick) {x : Tick}
    (hx : x ∈ ticks ∨ x ∈ m.chain) :
    ∃ y, y.key = x.key ∧ y ∈ (m.insertAll ticks).chain ∧ (y ∈ ticks ∨ x ∉ ticks ∧ y = x) := by
  have hget := SkipList.get_insertAll m ticks x.key
  cases hfirst : firstAt Tick.key ticks.reverse x.key with
  | some y =>
    obtain ⟨hmem, hkey⟩ := firstAt_eq_some Tick.key hfirst
    rw [hfirst, Option.some_or] at hget
    exact ⟨y, hkey, ((SkipList.get_eq_some_iff _ x.key y).mp hget).1,
      Or.inl (List.mem_reverse.mp hmem)⟩
  | none =>
    have hnot : x ∉ ticks := fun h =>
      (firstAt_eq_none_iff Tick.key).mp hfirst x (List.mem_reverse.mpr h) rfl
    have hold := (SkipList.get_eq_some_iff m x.key x).mpr ⟨hx.resolve_left hnot, rfl⟩
    rw [hfirst, Option.none_or, hold] at hget
    exact ⟨x, rfl, ((SkipList.get_eq_some_iff _ x.key x).mp hget).1, Or.inr ⟨hnot, rfl⟩⟩

/-- More rows in the memtable, behind those that are held. -/
theorem HeldOrNewer.insertAll {rows ticks : List Tick} {m : SkipList} {other : Tick → Prop}
    (h : HeldOrNewer rows fun y => y ∈ m.chain ∨ other y) :
    HeldOrNewer (rows ++ ticks) fun y => y ∈ (m.insertAll ticks).chain ∨ other y := by
  intro front x back happlied
  have hnew : ∀ more, ticks = more ++ x :: back → ∃ y ∈ x :: back, y.key = x.key ∧
      (y ∈ (m.insertAll ticks).chain ∨ other y) := by
    rintro more rfl
    have hsplit : m.insertAll (more ++ x :: back) = (m.insertAll more).insertAll (x :: back) :=
      List.foldl_append
    obtain ⟨y, hkey, hmem, hy | ⟨hy, -⟩⟩ := exists_mem_insertAll (m.insertAll more) (x :: back)
      (Or.inl List.mem_cons_self)
    · exact ⟨y, hy, hkey, Or.inl (hsplit ▸ hmem)⟩
    · exact absurd List.mem_cons_self hy
  rcases List.append_eq_append_iff.mp happlied with ⟨more, -, hticks⟩ | ⟨more, hrows, hback⟩
  · exact hnew more hticks
  · cases more with
    | nil => exact hnew [] hback.symm
    | cons z more =>
      obtain ⟨rfl, rfl⟩ := List.cons.inj hback
      obtain ⟨y, hy, hkey, hmem | hother⟩ := h front x more hrows
      · obtain ⟨y', hkey', hmem', hy'⟩ := exists_mem_insertAll m ticks (Or.inr hmem)
        refine ⟨y', ?_, hkey'.trans hkey, Or.inl hmem'⟩
        rcases hy' with hy' | ⟨-, rfl⟩
        · exact List.mem_cons_of_mem x (List.mem_append_right more hy')
        · exact (List.subset_append_left (x :: more) ticks) hy
      · exact ⟨y, (List.subset_append_left (x :: more) ticks) hy, hkey, Or.inr hother⟩

/-- A replica at rest: its tree, the tables in its directory, and what it has applied. -/
structure Replica (c : Codec) where
  tree : LsmTree
  tables : List Table
  /-- The rows with their positions, in the order in which they were applied. -/
  applied : List (Nat × Tick)
  first : Nat
  records : List WalRecord
  role : tree.role = .replica
  covers : LsmTree.LogCovers c tree first records
  held : HeldOrNewer (applied.map Prod.snd) fun y =>
    y ∈ tree.memtable.chain ∨ ∃ t ∈ tables, y ∈ t.rows
  position : ∀ sequence, tree.lastPrimarySequence = some sequence → sequence < 2 ^ 64

/-- The Insert entries of a batch: their positions and the rows under the ids of the replica. -/
def SymbolDictionary.appliedRows (dict : SymbolDictionary) (entries : List ReplicationEntry) :
    List (Nat × Tick) :=
  ((entries.filter fun e => e.record matches .insert _).map ReplicationEntry.sequence).zip
    (dict.resolveEntries entries).1

theorem SymbolDictionary.length_resolveEntries (dict : SymbolDictionary)
    (entries : List ReplicationEntry) : (dict.resolveEntries entries).1.length =
      (entries.filter fun e => e.record matches .insert _).length := by
  induction entries generalizing dict with
  | nil => rfl
  | cons entry entries ih =>
    obtain ⟨sequence, record, symbol⟩ := entry
    cases record with
    | insert tick =>
      cases symbol with
      | some symbol => exact congrArg Nat.succ (ih _)
      | none => exact congrArg Nat.succ (ih dict)
    | delete key => exact ih dict
    | checkpoint sequence => exact ih dict

theorem SymbolDictionary.map_snd_appliedRows (dict : SymbolDictionary)
    (entries : List ReplicationEntry) :
    (dict.appliedRows entries).map Prod.snd = (dict.resolveEntries entries).1 :=
  List.map_snd_zip (by rw [List.length_map, dict.length_resolveEntries])

namespace Replica
open LsmTree

variable {c : Codec} (fmt : StateFormat) (r : Replica c)

/-- `replication.json` as the last batch has left it. -/
def json : Option Bytes := r.tree.lastPrimarySequence.map fmt.toStringPretty

/-- The position of a batch. -/
def maxSeq (entries : List ReplicationEntry) : Nat :=
  ((entries.map ReplicationEntry.sequence).max?).getD 0

/-- The position when the batch has been applied. -/
def positionAfter (entries : List ReplicationEntry) : Option Nat :=
  if maxSeq entries ≥ r.tree.lastPrimarySequence.getD 0 then some (maxSeq entries)
  else r.tree.lastPrimarySequence

/-- In whatever order the directory is listed, it opens with the position before or behind the
batch, and holds the rows that this position promises. -/
def Restarts (p : Platform) (entries : List ReplicationEntry) (st : ReplicaDisk) : Prop :=
  ∀ files, files.Perm st.1.2 → ∃ tree,
    openReplica fmt p c r.tree.flushThreshold st.1.1.1.wal.file files st.2 = .ok tree ∧
      (tree.lastPrimarySequence = r.tree.lastPrimarySequence ∨
        tree.lastPrimarySequence = r.positionAfter entries) ∧
      HeldUpTo tree.lastPrimarySequence (r.applied ++ r.tree.symbolDict.appliedRows entries)
        fun y => y ∈ tree.memtable.chain ∨ InTable tree y

section Stages

variable {fmt : StateFormat} {r : Replica c} {good : ReplicaDisk → Prop} {p : Platform} {env : Env}
  {left : Option Nat}

theorem through_writeStateUpTo {text : Bytes} {st : ReplicaDisk} (hst : good st)
    (hcut : ∀ n, good (st.1, some (text.take n))) (n : Nat) :
    ThroughOp good (fun r st' => r = .ok () ∧ st' = (st.1, some (text.take n)))
      (writeStateUpTo text n) st := by
  induction n with
  | zero => exact through_attempt hst (hcut 0) ⟨rfl, rfl⟩
  | succ n ih =>
    refine through_bind (Through.mono ?_ ih)
    rintro r st' hst' ⟨rfl, rfl⟩
    exact through_attempt hst' (hcut (n + 1)) ⟨rfl, rfl⟩

theorem through_writeState (env : Env) (left : Option Nat) {text : Bytes} {s : LsmTree} {time : Nat}
    {files : List TableFile} {json : Option Bytes} (hst : good (((s, time), files), json))
    (htime : good (((s, time + 1), files), json))
    (hcut : ∀ n, good (((s, time + 1), files), some (text.take n))) :
    ThroughOp good (fun _ _ => True) (writeState env left text) (((s, time), files), json) := by
  refine through_bind (through_attempt hst htime ?_)
  dsimp only
  cases env.io time with
  | true => exact Through.mono (fun _ _ _ _ => trivial) (through_writeStateUpTo htime hcut _)
  | false =>
    cases left with
    | none => exact through_throw htime trivial
    | some n =>
      refine through_bind (Through.mono ?_ (through_writeStateUpTo htime hcut _))
      rintro r st' hst' ⟨rfl, rfl⟩
      exact through_throw hst' trivial

theorem through_flushFilesIfFull {good : OnDisk → Prop} {st : OnDisk} (hst : good st)
    {memtableLen : Nat} (hlt : memtableLen < st.1.1.flushThreshold) :
    ThroughOp good (fun r st' => r = .ok () ∧ st' = st) (flushFilesIfFull p env left memtableLen)
      st := by
  refine through_bind (through_beside (through_gets hst ?_))
  dsimp only
  rw [if_neg (Nat.not_le.mpr hlt)]
  exact through_pure hst ⟨rfl, rfl⟩

/-- What `replication.json` may hold in the course of a batch. -/
def Leaves (fmt : StateFormat) (r : Replica c) (entries : List ReplicationEntry)
    (json : Option Bytes) : Prop :=
  json = r.json fmt ∨ r.positionAfter entries = some (maxSeq entries) ∧
    ∃ n, json = some ((fmt.toStringPretty (maxSeq entries)).take n)

theorem through_advanceState {entries : List ReplicationEntry} {s : LsmTree} {time : Nat}
    {files : List TableFile} (hlast : s.lastPrimarySequence = r.tree.lastPrimarySequence) :
    ThroughOp (fun st => st.1.2 = files ∧ Leaves fmt r entries st.2) (fun _ _ => True)
      (advanceState fmt env left (maxSeq entries)) (((s, time), files), r.json fmt) := by
  have hstart : ∀ s' time', (fun st : ReplicaDisk => st.1.2 = files ∧ Leaves fmt r entries st.2)
      (((s', time'), files), r.json fmt) := fun _ _ => ⟨rfl, Or.inl rfl⟩
  refine through_bind (through_gets (hstart s time) ?_)
  dsimp only
  split_ifs with hge
  · rw [hlast] at hge
    refine through_bind (through_attempt (hstart s time) (hstart _ time) ?_)
    refine through_writeState env left (hstart _ time) (hstart _ (time + 1)) fun n => ⟨rfl, Or.inr ?_⟩
    exact ⟨if_pos hge, n, rfl⟩
  · exact through_pure (hstart s time) trivial

/-- Below the flush threshold a batch touches no table, and `replication.json` only at its
end. -/
theorem leaves_of_mem_stages {entries : List ReplicationEntry} {time : Nat}
    {n : Nat} (happend : (r.tree.logReplicated c (env.disk time) entries).1 = .ok n)
    (hbelow : (r.tree.memtable.insertAll (r.tree.symbolDict.resolveEntries entries).1).len <
      r.tree.flushThreshold) {st : ReplicaDisk}
    (hst : st ∈ stages (applyFiles fmt p c env left entries) []
      (((r.tree, time), r.tables.map .complete), r.json fmt)) :
    st.1.2 = r.tables.map .complete ∧ Leaves fmt r entries st.2 := by
  have hbeside : ∀ {α : Type} {x : LsmOp α}, st ∈ stages (beside (beside x)) []
      (((r.tree, time), r.tables.map .complete), r.json fmt) →
        st.1.2 = r.tables.map .complete ∧ Leaves fmt r entries st.2 := by
    intro α x h
    obtain ⟨h, hjson⟩ := mem_stages_beside h
    exact ⟨(mem_stages_beside h).2, Or.inl hjson⟩
  unfold applyFiles at hst
  split_ifs at hst
  · rw [List.mem_singleton.mp hst]
    exact ⟨rfl, Or.inl rfl⟩
  rcases mem_stages_bind_cases hst with hst | ⟨role, held, st₁, hexec, hst⟩
  · exact hbeside hst
  cases hexec
  have hrole : ¬ r.tree.role ≠ .replica := not_not.mpr r.role
  change st ∈ stages (if r.tree.role ≠ .replica then _ else _) []
    (((r.tree, time), r.tables.map .complete), r.json fmt) at hst
  rw [if_neg hrole] at hst
  rcases mem_stages_bind_cases hst with hst | ⟨memtableLen, held, st₁, hexec, hst⟩
  · exact hbeside hst
  rw [exec_beside, exec_beside, exec_storeReplicated_of_ok happend] at hexec
  cases hexec
  let good : ReplicaDisk → Prop := fun st =>
    st.1.2 = r.tables.map .complete ∧ Leaves fmt r entries st.2
  have hstored : ∀ s' time', good (((s', time'), r.tables.map .complete), r.json fmt) :=
    fun _ _ => ⟨rfl, Or.inl rfl⟩
  refine Through.mem_stages (?_ : LockProgram.Through good (fun _ _ => True) _ _) [] st hst
  refine through_bind (through_beside (Through.mono ?_ (through_flushFilesIfFull (hstored _ _) hbelow)))
  rintro r' st' hst' ⟨rfl, rfl⟩
  refine through_bind (through_withGuard hst' (Through.mono ?_ (through_advanceState rfl)))
  rintro (e | a) st'' hst'' -
  · trivial
  · exact through_pure hst'' trivial

theorem cut_mem_stages_writeStateUpTo {text : Bytes} {n count : Nat} (hn : n ≤ count)
    (held : Held Lock) (st : ReplicaDisk) :
    (st.1, some (text.take n)) ∈ stages (writeStateUpTo text count) held st := by
  induction count with
  | zero =>
    rw [Nat.le_zero.mp hn, List.take_zero]
    exact List.mem_cons_of_mem _ List.mem_cons_self
  | succ count ih =>
    rcases Nat.le_succ_iff.mp hn with hle | rfl
    · exact mem_stages_bind (ih hle) _
    · refine mem_stages_bind_ok (exec_writeStateUpTo text count held st) ?_
      exact List.mem_cons_of_mem _ List.mem_cons_self

/-- Every prefix of the new text is in `replication.json` at some point of a batch that goes
well. -/
theorem cut_mem_stages {entries : List ReplicationEntry} {time : Nat} (hne : entries ≠ [])
    {n : Nat} (happend : (r.tree.logReplicated c (env.disk time) entries).1 = .ok n)
    (hbelow : (r.tree.memtable.insertAll (r.tree.symbolDict.resolveEntries entries).1).len <
      r.tree.flushThreshold) (hio : env.io (time + 1) = true)
    (hge : maxSeq entries ≥ r.tree.lastPrimarySequence.getD 0) {count : Nat}
    (hcount : count ≤ (fmt.toStringPretty (maxSeq entries)).length) :
    ((({ (r.tree.logged c (env.disk time) entries).take
      (r.tree.symbolDict.resolveEntries entries).1 with
        lastPrimarySequence := some (maxSeq entries) }, time + 1 + 1), r.tables.map .complete),
          some ((fmt.toStringPretty (maxSeq entries)).take count)) ∈
      stages (applyFiles fmt p c env left entries) []
        (((r.tree, time), r.tables.map .complete), r.json fmt) := by
  have hrole : ¬ r.tree.role ≠ .replica := not_not.mpr r.role
  let s₁ := (r.tree.logged c (env.disk time) entries).take
    (r.tree.symbolDict.resolveEntries entries).1
  let files : List TableFile := r.tables.map .complete
  have hexecRole : exec (beside (beside (gets fun st => st.1.role)) :
      Op Lock ReplicaDisk (Stop LsmError) NodeRole) [] (((r.tree, time), files), r.json fmt) =
        .finished (.ok r.tree.role) [] (((r.tree, time), files), r.json fmt) := rfl
  have hstore : exec (beside (beside (storeReplicated c env entries))) []
      (((r.tree, time), files), r.json fmt) = .finished
        (.ok (r.tree.take (r.tree.symbolDict.resolveEntries entries).1).memtable.len) []
          (((s₁, time + 1), files), r.json fmt) := by
    rw [exec_beside, exec_beside, exec_storeReplicated_of_ok happend]
    rfl
  have hflush : exec (beside (flushFilesIfFull p env left
      (r.tree.take (r.tree.symbolDict.resolveEntries entries).1).memtable.len)) []
        (((s₁, time + 1), files), r.json fmt) = .finished (.ok ()) []
          (((s₁, time + 1), files), r.json fmt) := by
    have hthreshold : exec (beside (gets fun st => st.1.flushThreshold) :
        Op Lock OnDisk (Stop LsmError) Nat) [] ((s₁, time + 1), files) =
          .finished (.ok r.tree.flushThreshold) [] ((s₁, time + 1), files) := rfl
    rw [exec_beside, flushFilesIfFull, exec_bind_ok hthreshold,
      if_neg (by exact Nat.not_le.mpr hbelow)]
    rfl
  rw [applyFiles, if_neg hne]
  refine mem_stages_bind_ok hexecRole ?_
  rw [if_neg hrole]
  refine mem_stages_bind_ok hstore (mem_stages_bind_ok hflush (mem_stages_bind ?_ _))
  refine mem_stages_withGuard (by decide) ?_
  have hlast : exec (gets fun st => st.1.1.1.lastPrimarySequence :
      Op Lock ReplicaDisk (Stop LsmError) (Option Nat)) [(.replication, .write)]
        (((s₁, time + 1), files), r.json fmt) = .finished (.ok r.tree.lastPrimarySequence)
          [(.replication, .write)] (((s₁, time + 1), files), r.json fmt) := rfl
  refine mem_stages_bind_ok hlast ?_
  rw [maxSeq] at hge
  rw [if_pos hge]
  refine mem_stages_bind_ok (exec_attempt _ _ _) (mem_stages_bind_ok (exec_attempt _ _ _) ?_)
  dsimp only
  rw [hio]
  exact cut_mem_stages_writeStateUpTo hcount _ _

end Stages

theorem lastPrimarySequence_openFiles {p : Platform} {flushThreshold : Nat} {role : NodeRole}
    {walLog : Bytes} {files : List TableFile} {last : Option Nat} {tree : LsmTree}
    (h : openFiles p c flushThreshold role walLog files last = .ok tree) :
    tree.lastPrimarySequence = last := by
  unfold openFiles at h
  cases hwal : (Wal.open c walLog).mapError (Stop.map LsmError.wal) with
  | error e =>
    rw [hwal] at h
    cases h
  | ok wal =>
    cases hload : files.mapM fun f => (f.load p).mapError (Stop.map LsmError.ssTable) with
    | error e =>
      rw [hwal, hload] at h
      cases h
    | ok tables =>
      rw [hwal, hload] at h
      cases h
      rfl

variable {fmt r}

/-- The log once it has the batch. -/
theorem covers_logged {disk : Wal.Disk} {entries : List ReplicationEntry} {n : Nat} {wal : Wal}
    (hcodec : ∀ x ∈ (r.tree.symbolDict.resolveEntries entries).1, c.Inverts (.insert x))
    (happend : r.tree.logReplicated c disk entries = (.ok n, wal)) :
    LogCovers c ((r.tree.take (r.tree.symbolDict.resolveEntries entries).1).withWal wal) r.first
      (r.records ++ (r.tree.symbolDict.resolveEntries entries).1.map .insert) := by
  obtain ⟨hwal, hsequence, hbound⟩ := Wal.appendBatch_eq_ok happend
  refine r.covers.extend hwal rfl ?_ hcodec
  rcases hbound with hnil | hlt
  · rw [List.map_eq_nil_iff.mp hnil, List.length_nil, Nat.add_zero, r.covers.sequence]
    exact r.covers.bounded
  · rw [hsequence, hwal, Wal.extend, List.length_map] at hlt
    exact hlt

/-- With the batch in the log and a position that can be read, the replica restarts. -/
theorem restarts_of_openTracker {p : Platform} {disk : Wal.Disk} {entries : List ReplicationEntry}
    {n : Nat} {wal : Wal}
    (hcodec : ∀ x ∈ (r.tree.symbolDict.resolveEntries entries).1, c.Inverts (.insert x))
    (happend : r.tree.logReplicated c disk entries = (.ok n, wal)) {st : ReplicaDisk}
    (hwal : st.1.1.1.wal = wal) (hfiles : st.1.2 = r.tables.map .complete) {last : Option Nat}
    (hopen : fmt.openTracker st.2 = some last)
    (hlast : last = r.tree.lastPrimarySequence ∨ last = r.positionAfter entries) :
    r.Restarts fmt p entries st := by
  intro files hperm
  have hcovers := covers_logged hcodec happend
  obtain ⟨wal', hwal', hreplayed⟩ := hcovers.open_eq
  have hload : ∀ f ∈ files, ∃ t, f.load p = .ok t := by
    intro f hf
    obtain ⟨t, -, rfl⟩ := List.mem_map.mp (hfiles ▸ hperm.mem_iff.mp hf)
    exact ⟨t.reopen, rfl⟩
  have hfile : st.1.1.1.wal.file = wal.file := by rw [hwal]
  rcases openFiles_spec hwal' p r.tree.flushThreshold .replica files last with
    ⟨-, tree, htree, hmemtable, htables⟩ | ⟨⟨f, hf, hrefused⟩, -⟩
  · have hposition := lastPrimarySequence_openFiles htree
    refine ⟨tree, ?_, hposition ▸ hlast, ?_⟩
    · rw [openReplica, hfile, hopen]
      change (do
        let _ ← ((Wal.open c wal.file).mapError (Stop.map LsmError.wal)).mapError RestartError.lsm
        (openFiles p c r.tree.flushThreshold .replica wal.file files last).mapError
          RestartError.lsm) = .ok tree
      have hwal'' : Wal.open c wal.file = .ok wal' := hwal'
      have htree' : openFiles p c r.tree.flushThreshold .replica wal.file files last = .ok tree :=
        htree
      rw [hwal'', htree']
      rfl
    · refine HeldOrNewer.upTo ?_ _
      rw [List.map_append, SymbolDictionary.map_snd_appliedRows]
      refine r.held.insertAll.mono fun y hy => ?_
      rcases hy with hy | ⟨t, ht, hy⟩
      · rw [hmemtable, hreplayed]
        exact Or.inl (hcovers.memtable y hy)
      · refine Or.inr ((htables y).mpr (fileHolds_complete (hperm.mem_iff.mpr ?_) hy))
        rw [hfiles]
        exact List.mem_map_of_mem ht
  · obtain ⟨t, ht⟩ := hload f hf
    exact absurd ht (hrefused t)

/-- The replica of an empty directory. -/
def fresh (c : Codec) (flushThreshold : Nat) : Replica c where
  tree := LsmTree.fresh flushThreshold .replica
  tables := []
  applied := []
  first := 0
  records := []
  role := rfl
  covers := logCovers_fresh c flushThreshold .replica
  held := fun front x back h => by cases front <;> cases h
  position := fun _ h => by cases h

theorem maxSeq_lt {entries : List ReplicationEntry} (h : ∀ e ∈ entries, e.sequence < 2 ^ 64) :
    maxSeq entries < 2 ^ 64 := by
  rw [maxSeq]
  cases hmax : (entries.map ReplicationEntry.sequence).max? with
  | none => exact Nat.two_pow_pos 64
  | some sequence =>
    obtain ⟨e, he, rfl⟩ := List.mem_map.mp (List.max?_mem hmax)
    exact h e he

/-- The replica behind a batch that has returned below the flush threshold. -/
def after (r : Replica c) (disk : Wal.Disk) (entries : List ReplicationEntry) {n : Nat} {wal : Wal}
    (hsequences : ∀ e ∈ entries, e.sequence < 2 ^ 64)
    (hcodec : ∀ x ∈ (r.tree.symbolDict.resolveEntries entries).1, c.Inverts (.insert x))
    (happend : r.tree.logReplicated c disk entries = (.ok n, wal)) : Replica c where
  tree := { (r.tree.logged c disk entries).take (r.tree.symbolDict.resolveEntries entries).1 with
    lastPrimarySequence := r.positionAfter entries }
  tables := r.tables
  applied := r.applied ++ r.tree.symbolDict.appliedRows entries
  first := r.first
  records := r.records ++ (r.tree.symbolDict.resolveEntries entries).1.map .insert
  role := r.role
  covers := by
    obtain ⟨hfile, hsequence, hbounded, hinverts, hmemtable⟩ := covers_logged hcodec happend
    have hwal : (r.tree.logged c disk entries).wal = wal := congrArg Prod.snd happend
    refine ⟨?_, ?_, hbounded, hinverts, hmemtable⟩
    · exact (congrArg Wal.file hwal).trans hfile
    · exact (congrArg Wal.sequence hwal).trans hsequence
  held := by
    rw [List.map_append, SymbolDictionary.map_snd_appliedRows]
    exact r.held.insertAll
  position := by
    intro sequence h
    change r.positionAfter entries = some sequence at h
    rw [positionAfter] at h
    split_ifs at h
    · cases h
      exact maxSeq_lt hsequences
    · exact r.position sequence h

theorem advance_eq {env : Env} {time : Nat} (hio : env.io time = true) (sequence : Nat)
    (s : LsmTree) : ∃ time', advance env sequence (s, time) = (.ok (), ({ s with
      lastPrimarySequence := if sequence ≥ s.lastPrimarySequence.getD 0 then some sequence
        else s.lastPrimarySequence }, time')) := by
  rw [advance, DiskM.current_bind]
  split_ifs
  · refine ⟨time + 1, ?_⟩
    change fileOp env (LsmError.replication .io) (_, time) = _
    rw [fileOp, hio]
    rfl
  · exact ⟨time, rfl⟩

/-- A batch that returns leaves the replica `after`. -/
theorem exec_apply (p : Platform) {env : Env} {time : Nat} {entries : List ReplicationEntry}
    (hne : entries ≠ []) (hsequences : ∀ e ∈ entries, e.sequence < 2 ^ 64)
    (hcodec : ∀ x ∈ (r.tree.symbolDict.resolveEntries entries).1, c.Inverts (.insert x))
    {n : Nat} {wal : Wal} (happend : r.tree.logReplicated c (env.disk time) entries = (.ok n, wal))
    (hbelow : (r.tree.memtable.insertAll (r.tree.symbolDict.resolveEntries entries).1).len <
      r.tree.flushThreshold) (hio : env.io (time + 1) = true) :
    ∃ time', exec (applyReplicationBatch p c env entries) [] (r.tree, time) =
      .finished (.ok entries.length) []
        ((r.after (env.disk time) entries hsequences hcodec happend).tree, time') := by
  have hrole : ¬ r.tree.role ≠ .replica := not_not.mpr r.role
  rw [applyReplicationBatch, if_neg hne, exec_bind_ok (exec_gets _ _ _), if_neg hrole,
    exec_bind_ok (exec_storeReplicated_of_ok (congrArg Prod.fst happend))]
  have hflush : exec (flushIfFull p env
      (r.tree.take (r.tree.symbolDict.resolveEntries entries).1).memtable.len) []
        ((r.tree.logged c (env.disk time) entries).take
          (r.tree.symbolDict.resolveEntries entries).1, time + 1) = .finished (.ok ()) []
        ((r.tree.logged c (env.disk time) entries).take
          (r.tree.symbolDict.resolveEntries entries).1, time + 1) := by
    rw [flushIfFull, exec_bind_ok (exec_gets _ _ _), if_neg (by exact Nat.not_le.mpr hbelow)]
    rfl
  obtain ⟨time', hadvance⟩ := advance_eq hio (maxSeq entries)
    ((r.tree.logged c (env.disk time) entries).take (r.tree.symbolDict.resolveEntries entries).1)
  refine ⟨time', ?_⟩
  rw [exec_bind_ok hflush]
  exact exec_bind_ok (exec_withGuard_attempt (by decide) hadvance) _

theorem not_restarts_of_cut {p : Platform} {entries : List ReplicationEntry} {st : ReplicaDisk}
    {n : Nat} (hn : n < (fmt.toStringPretty (maxSeq entries)).length)
    (hcut : st.2 = some ((fmt.toStringPretty (maxSeq entries)).take n)) :
    ¬ r.Restarts fmt p entries st := by
  intro h
  obtain ⟨tree, htree, -⟩ := h st.1.2 (List.Perm.refl _)
  rw [openReplica, hcut, StateFormat.openTracker, fmt.cut _ n hn] at htree
  cases hopen : Wal.open c st.1.1.1.wal.file with
  | error e =>
    rw [hopen] at htree
    cases htree
  | ok wal' =>
    rw [hopen] at htree
    cases htree

def firstBatch : List ReplicationEntry := [⟨3, .insert (flatTick 0 5 1), some "A"⟩]

def firstReplica : Replica (Codec.forTicks [flatTick 0 5 1]) := fresh _ 10

/-- The first batch of a new replica is in its log and its memtable, and `replication.json`
is being written. -/
def firstBatchState (json : Option Bytes) : ReplicaDisk :=
  ((({ (firstReplica.tree.logged (Codec.forTicks [flatTick 0 5 1]) .sound firstBatch).take
    [flatTick 0 5 1] with lastPrimarySequence := some 3 }, 2), []), json)

theorem appended_firstBatch : (firstReplica.tree.logReplicated (Codec.forTicks [flatTick 0 5 1])
    (Env.calm.disk 0) firstBatch).1 = .ok 1 := by
  decide +kernel

theorem firstBatchState_mem_stages {count : Nat}
    (hcount : count ≤ (StateFormat.json.toStringPretty 3).length) :
    firstBatchState (some ((StateFormat.json.toStringPretty 3).take count)) ∈
      stages (applyFiles .json .simple (Codec.forTicks [flatTick 0 5 1]) .calm none firstBatch) []
        (((firstReplica.tree, 0), firstReplica.tables.map .complete), firstReplica.json .json) :=
  cut_mem_stages (by decide) appended_firstBatch (by decide +kernel) rfl (by decide) hcount

end Replica

end Graphite
