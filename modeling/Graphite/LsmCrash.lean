import Graphite.LsmCalls
import Graphite.LsmFlush
import Graphite.TableFiles
import Graphite.WalRecovery

/-! What is recovered when the process stops in the middle of a flush. The log is cut off
last, so up to then it still holds the rows; but an unfinished table file makes the whole
directory unreadable, since `open` fails with the first table that does not open. -/

namespace Graphite
open BigEndian KeyedRows LockProgram

/-- The tree and the time, and the table files of its directory. -/
abbrev OnDisk := (LsmTree × Nat) × List TableFile

namespace LsmTree

/-- `flush_memtable` with its effects on the directory. -/
def flushFiles (p : Platform) (env : Env) (left : Option Nat) :
    Op Lock OnDisk (Stop LsmError) Unit := do
  let ticks ← beside (withGuard .memtable .write (attempt drainMemtable))
  if ticks = [] then return ()
  else do
    let nanos ← beside (attempt (now env))
    let dict ← beside (withGuard .symbolDict .read (gets fun st => st.1.symbolDict))
    let table ← writeTableFile p env left .ssTable (tableName 0 nanos) ticks 0 dict
    beside (withGuard .compaction .write (attempt (addToLevel0 table)))
    beside (withGuard .wal .write (attempt (truncateWal env)))

/-- To the tree it does what `flushMemtable` does. -/
theorem refines_flushFiles (p : Platform) (env : Env) (left : Option Nat) :
    Refines (flushFiles p env left) (flushMemtable p env) := by
  refine (refines_beside _).bind fun ticks => ?_
  split_ifs
  · exact refines_pure ()
  refine (refines_beside _).bind fun nanos => (refines_beside _).bind fun dict => ?_
  refine (refines_writeTableFile p env left _ _ ticks 0 dict).bind fun table => ?_
  exact (refines_beside _).bind fun _ => refines_beside _

/-- `LsmTree::open` on the files of a directory, in the order of the listing: the first table
that does not open fails it. -/
def openFiles (p : Platform) (c : Codec) (flushThreshold : Nat) (role : NodeRole) (walLog : Bytes)
    (files : List TableFile) (lastPrimarySequence : Option Nat) :
    Except (Stop LsmError) LsmTree := do
  let wal ← (Wal.open c walLog).mapError (Stop.map .wal)
  let tables ← files.mapM fun f => (f.load p).mapError (Stop.map .ssTable)
  return {
    memtable := recoverFromWal wal.replayed
    wal
    compaction := tables.foldl loadSstable (CompactionManager.new SymbolDictionary.new)
    symbolDict := SymbolDictionary.new
    totalRows := 0
    flushThreshold
    role
    lastPrimarySequence }

/-- On complete files this is `open`. -/
theorem openFiles_complete (p : Platform) (c : Codec) (flushThreshold : Nat) (role : NodeRole)
    (dir : Directory) :
    openFiles p c flushThreshold role dir.walLog (dir.tables.map .complete) dir.lastPrimarySequence =
      LsmTree.«open» c flushThreshold role dir := by
  have hload : (dir.tables.map TableFile.complete).mapM (fun f => (f.load p).mapError
      (Stop.map LsmError.ssTable)) = .ok (dir.tables.map Table.reopen) := by
    induction dir.tables with
    | nil => rfl
    | cons t tables ih =>
      rw [List.map_cons, List.mapM_cons, ih]
      rfl
  rw [openFiles, LsmTree.«open», hload]
  cases Wal.open c dir.walLog with
  | error e => rfl
  | ok wal =>
    simp only [loadSstables, List.foldl_map, Except.mapError, bind, Except.bind, pure, Except.pure]

theorem mem_modify_addTable {t x : Table} {levels : List Level} {i : Nat} (h : i < levels.length) :
    x ∈ (levels.modify i (·.addTable t)).flatMap Level.tables ↔
      x ∈ levels.flatMap Level.tables ∨ x = t := by
  induction levels generalizing i with
  | nil => cases h
  | cons l levels ih =>
    cases i with
    | zero =>
      simp only [List.modify_zero_cons, List.flatMap_cons, Level.addTable, List.mem_append,
        List.mem_singleton]
      exact or_right_comm
    | succ i =>
      rw [List.modify_succ_cons, List.flatMap_cons, List.flatMap_cons, List.mem_append,
        List.mem_append, ih (Nat.lt_of_succ_lt_succ h), or_assoc]

theorem mem_loadSstable (m : CompactionManager) (t x : Table) :
    x ∈ (loadSstable m t).levels.flatMap Level.tables ↔
      x ∈ m.levels.flatMap Level.tables ∨ x = t := by
  have hmissing : ∀ is : List Nat, (is.map Level.new).flatMap Level.tables = [] := by
    intro is
    rw [List.flatMap_eq_nil_iff]
    rintro l hl
    obtain ⟨i, -, rfl⟩ := List.mem_map.mp hl
    rfl
  rw [loadSstable]
  dsimp only
  rw [mem_modify_addTable, List.flatMap_append, hmissing, List.append_nil]
  rw [List.length_append, List.length_map, List.length_range']
  omega

theorem mem_foldl_loadSstable (tables : List Table) (m : CompactionManager) (x : Table) :
    x ∈ (tables.foldl loadSstable m).levels.flatMap Level.tables ↔
      x ∈ m.levels.flatMap Level.tables ∨ x ∈ tables := by
  induction tables generalizing m with
  | nil => simp
  | cons t tables ih =>
    rw [List.foldl_cons, ih, mem_loadSstable, List.mem_cons, or_assoc]

variable {p : Platform} {c : Codec} {flushThreshold : Nat} {role : NodeRole} {walLog : Bytes}
  {files : List TableFile} {last : Option Nat}

/-- Some file that opens has the row. -/
def FileHolds (p : Platform) (files : List TableFile) (x : Tick) : Prop :=
  ∃ f ∈ files, ∃ t, f.load p = .ok t ∧ x ∈ t.rows

theorem mapM_load (files : List TableFile) :
    ((∀ f ∈ files, ∃ t, f.load p = .ok t) ∧ ∃ tables,
      files.mapM (fun f => (f.load p).mapError (Stop.map LsmError.ssTable)) = .ok tables ∧
        ∀ t, t ∈ tables ↔ ∃ f ∈ files, f.load p = .ok t) ∨
    (∃ e, files.mapM (fun f => (f.load p).mapError (Stop.map LsmError.ssTable)) = .error e) ∧
      ∃ f ∈ files, ∀ t, f.load p ≠ .ok t := by
  induction files with
  | nil => exact Or.inl ⟨List.forall_mem_nil _, [], rfl, by simp⟩
  | cons f files ih =>
    rw [List.mapM_cons]
    cases hf : f.load p with
    | error e => exact Or.inr ⟨⟨_, rfl⟩, f, List.mem_cons_self, fun t ht => by rw [hf] at ht; cases ht⟩
    | ok t =>
      rcases ih with ⟨hall, tables, htables, hmem⟩ | ⟨⟨e, he⟩, g, hg, hrefused⟩
      · rw [htables]
        refine Or.inl ⟨List.forall_mem_cons.mpr ⟨⟨t, hf⟩, hall⟩, t :: tables, rfl, fun x => ?_⟩
        rw [List.mem_cons, hmem, List.exists_mem_cons_iff, hf]
        exact or_congr_left ⟨fun h => by rw [h], fun h => (Except.ok.inj h).symm⟩
      · rw [he]
        exact Or.inr ⟨⟨_, rfl⟩, g, List.mem_cons_of_mem f hg, hrefused⟩

/-- What `open` finds. -/
theorem openFiles_spec {wal : Wal} (hwal : Wal.open c walLog = .ok wal) (p : Platform)
    (flushThreshold : Nat) (role : NodeRole) (files : List TableFile) (last : Option Nat) :
    ((∀ f ∈ files, ∃ t, f.load p = .ok t) ∧
      ∃ tree, openFiles p c flushThreshold role walLog files last = .ok tree ∧
        tree.memtable = recoverFromWal wal.replayed ∧ ∀ x, InTable tree x ↔ FileHolds p files x) ∨
    (∃ f ∈ files, ∀ t, f.load p ≠ .ok t) ∧
      ∃ e, openFiles p c flushThreshold role walLog files last = .error e := by
  unfold openFiles
  rw [hwal]
  rcases mapM_load (p := p) files with ⟨hall, tables, htables, hmem⟩ | ⟨⟨e, he⟩, hrefused⟩
  · rw [htables]
    refine Or.inl ⟨hall, _, rfl, rfl, fun x => ?_⟩
    have hlevels (t : Table) := mem_foldl_loadSstable tables (CompactionManager.new .new) t
    constructor
    · rintro ⟨t, ht, hx⟩
      rcases (hlevels t).mp ht with h | h
      · cases h
      · obtain ⟨f, hf, hload⟩ := (hmem t).mp h
        exact ⟨f, hf, t, hload, hx⟩
    · rintro ⟨f, hf, t, hload, hx⟩
      exact ⟨t, (hlevels t).mpr (Or.inr ((hmem t).mpr ⟨f, hf, hload⟩)), hx⟩
  · rw [he]
    exact Or.inr ⟨hrefused, e, rfl⟩

/-- The log replays and gives the tick back. -/
def InLog (c : Codec) (walLog : Bytes) (x : Tick) : Prop :=
  ∃ wal, Wal.open c walLog = .ok wal ∧ x ∈ (recoverFromWal wal.replayed).chain

/-- The tick is in the memtable or in one of the table files. -/
def Stored (s : LsmTree) (tables : List Table) (x : Tick) : Prop :=
  x ∈ s.memtable.chain ∨ ∃ t ∈ tables, x ∈ t.rows

/-- In whatever order the directory is listed, it opens, and the tree holds these ticks. -/
def Recovers (p : Platform) (c : Codec) (flushThreshold : Nat) (role : NodeRole)
    (last : Option Nat) (wanted : Tick → Prop) (st : OnDisk) : Prop :=
  ∀ files, files.Perm st.2 → ∃ tree,
    openFiles p c flushThreshold role st.1.1.wal.file files last = .ok tree ∧
      ∀ x, wanted x → x ∈ tree.memtable.chain ∨ InTable tree x

/-- What a flush keeps at all times for these rows of the memtable. -/
structure Backed (p : Platform) (c : Codec) (rows : Tick → Prop) (st : OnDisk) : Prop where
  opens : ∃ wal, Wal.open c st.1.1.wal.file = .ok wal
  held : ∀ x, rows x → InLog c st.1.1.wal.file x ∨ FileHolds p st.2 x

theorem fileHolds_complete {t : Table} {x : Tick} (ht : .complete t ∈ files) (hx : x ∈ t.rows) :
    FileHolds p files x := ⟨_, ht, t.reopen, rfl, hx⟩

theorem recovers_iff {s : LsmTree} {acked : Tick → Prop} {st : OnDisk}
    (h : Backed p c (fun x => x ∈ s.memtable.chain ∧ acked x) st) (tables : List Table) :
    Recovers p c flushThreshold role last (fun x => s.Stored tables x ∧ acked x) st ↔
      (∀ f ∈ st.2, ∃ t, f.load p = .ok t) ∧
        ∀ t ∈ tables, .complete t ∉ st.2 → ∀ x ∈ t.rows, acked x →
          InLog c st.1.1.wal.file x ∨ FileHolds p st.2 x := by
  obtain ⟨wal, hwal⟩ := h.opens
  constructor
  · intro hrecovers
    obtain ⟨tree, htree, hholds⟩ := hrecovers st.2 (List.Perm.refl _)
    rcases openFiles_spec hwal p flushThreshold role st.2 last with
      ⟨hload, tree', htree', hmemtable, htables⟩ | ⟨-, e, he⟩
    · obtain rfl : tree' = tree := Except.ok.inj (htree'.symm.trans htree)
      refine ⟨hload, fun t ht _ x hx hack => ?_⟩
      refine (hholds x ⟨Or.inr ⟨t, ht, hx⟩, hack⟩).imp (fun hmem => ?_) (htables x).mp
      exact ⟨wal, hwal, by rwa [← hmemtable]⟩
    · rw [he] at htree
      cases htree
  · rintro ⟨hload, hreplaced⟩ files hperm
    rcases openFiles_spec hwal p flushThreshold role files last with
      ⟨-, tree, htree, hmemtable, htables⟩ | ⟨⟨f, hf, hrefused⟩, -⟩
    · have hheld (x : Tick) (hx : InLog c st.1.1.wal.file x ∨ FileHolds p st.2 x) :
          x ∈ tree.memtable.chain ∨ InTable tree x := by
        rcases hx with ⟨wal', hwal', hx⟩ | ⟨f, hf, t, ht, hx⟩
        · obtain rfl : wal = wal' := Except.ok.inj (hwal.symm.trans hwal')
          exact Or.inl (by rwa [hmemtable])
        · exact Or.inr ((htables x).mpr ⟨f, hperm.mem_iff.mpr hf, t, ht, hx⟩)
      refine ⟨tree, htree, fun x hx => hheld x ?_⟩
      rcases hx with ⟨hx | ⟨t, ht, hx⟩, hack⟩
      · exact h.held x ⟨hx, hack⟩
      · by_cases hleft : .complete t ∈ st.2
        · exact Or.inr (fileHolds_complete hleft hx)
        · exact hreplaced t ht hleft x hx hack
    · obtain ⟨t, ht⟩ := hload f (hperm.mem_iff.mp hf)
      exact absurd ht (hrefused t)

theorem file_truncate (cut synced : Bool) (w : Wal) :
    (Wal.truncate cut synced w).2.file = w.file ∨ (Wal.truncate cut synced w).2.file = [] := by
  unfold Wal.truncate
  split_ifs
  · exact Or.inl rfl
  · exact Or.inr rfl
  · exact Or.inr rfl

theorem wal_addToLevel0 {t : Table} {st st' : LsmTree × Nat} {r : Except (Stop LsmError) Unit}
    (h : addToLevel0 t st = (r, st')) : st'.1.wal = st.1.wal := by
  obtain ⟨s, time⟩ := st
  unfold addToLevel0 at h
  dsimp only at h
  split at h <;> cases h <;> rfl

/-- A flush keeps the log until the table with the rows is complete. -/
theorem through_flushFiles {s : LsmTree} {time : Nat} {env : Env} {left : Option Nat}
    (hopens : ∃ wal, Wal.open c s.wal.file = .ok wal)
    {acked : Tick → Prop} (hlog : ∀ x ∈ s.memtable.chain, acked x → InLog c s.wal.file x) :
    ThroughOp (Backed p c fun x => x ∈ s.memtable.chain ∧ acked x) (fun _ _ => True) (flushFiles p env left)
      ((s, time), files) := by
  have hbacked (s' : LsmTree) (time' : Nat) (files' : List TableFile) (hfile : s'.wal = s.wal) :
      Backed p c (fun x => x ∈ s.memtable.chain ∧ acked x) ((s', time'), files') :=
    ⟨by rw [hfile]; exact hopens, fun x hx => Or.inl (by rw [hfile]; exact hlog x hx.1 hx.2)⟩
  have hs := hbacked s time files rfl
  refine through_bind (through_beside (through_withGuard hs (through_attempt hs ?_ ?_)))
  · exact hbacked s.drained time files rfl
  rw [drainMemtable_eq]
  dsimp only
  have hdrained := hbacked s.drained time files rfl
  split_ifs
  · exact through_pure hdrained trivial
  refine through_bind (through_beside (through_attempt hdrained ?_ ?_))
  · exact hbacked s.drained (time + 1) files rfl
  refine through_bind (through_beside (through_withGuard ?_ (through_gets ?_ ?_)))
  · exact hbacked s.drained (time + 1) files rfl
  · exact hbacked s.drained (time + 1) files rfl
  refine through_bind (Through.mono ?_ (through_writeTableFile p env left LsmError.ssTable 0
    s.symbolDict (hbacked s.drained (time + 1) files rfl) (hbacked s.drained (time + 2) files rfl)
    (fun bytes => hbacked _ _ _ rfl) fun t _ _ _ => hbacked _ _ _ rfl))
  rintro r st hst (⟨e, rfl⟩ | ⟨t, rfl, hrows, -, rfl⟩)
  · trivial
  have hcomplete (s' : LsmTree) (time' : Nat) (hopens' : ∃ wal, Wal.open c s'.wal.file = .ok wal) :
      Backed p c (fun x => x ∈ s.memtable.chain ∧ acked x) ((s', time'), (TableFile.complete t).put files) := by
    refine ⟨hopens', fun x hx => Or.inr (fileHolds_complete (t := t) ?_ (by rw [hrows]; exact hx.1))⟩
    exact TableFile.mem_put.mpr (Or.inr rfl)
  refine through_bind (through_beside (through_withGuard hst (through_attempt hst ?_ ?_)))
  all_goals rcases hadd : addToLevel0 t (s.drained, time + 1 + 1) with ⟨r, s₁, time₁⟩
  all_goals have hwal : s₁.wal = s.wal := wal_addToLevel0 hadd
  · exact hcomplete s₁ time₁ (by rw [hwal]; exact hopens)
  · have hadded := hcomplete s₁ time₁ (by rw [hwal]; exact hopens)
    cases r with
    | error e => trivial
    | ok _ =>
      refine through_beside (through_withGuard hadded (through_attempt hadded ?_ trivial))
      rw [truncateWal_eq]
      refine hcomplete _ _ ?_
      rcases file_truncate (env.io time₁) (env.disk time₁).synced s₁.wal with hsame | hcut
      · rw [withWal]
        dsimp only
        rw [truncated, hsame, hwal]
        exact hopens
      · rw [withWal]
        dsimp only
        rw [truncated, hcut]
        exact ⟨_, rfl⟩

section Promise

/-- The log consists of whole records, and they give the memtable back. -/
structure LogCovers (c : Codec) (s : LsmTree) (first : Nat) (records : List WalRecord) : Prop where
  file : s.wal.file = Wal.logBytes c first records
  sequence : s.wal.sequence = first + records.length
  bounded : first + records.length < 2 ^ 64
  inverts : ∀ r ∈ records, c.Inverts r
  memtable : ∀ x ∈ s.memtable.chain, x ∈ (recoverFromWal records).chain

variable {s : LsmTree} {first : Nat} {records : List WalRecord}

theorem LogCovers.open_eq (h : LogCovers c s first records) :
    ∃ wal, Wal.open c s.wal.file = .ok wal ∧ wal.replayed = records := by
  obtain ⟨fuel, offset, -, hloop⟩ := Wal.replayLoop_logBytes c records h.inverts first
    ((Wal.logBytes c first records ++ []).length + 1) 0 [] (Or.inr h.bounded) (Nat.lt_succ_self _)
  have hnil : ([] : Bytes).length < 4 := Nat.succ_pos 3
  rw [Wal.replayLoop_short c hnil, List.append_nil, ← h.file] at hloop
  refine ⟨_, Wal.open_of_replayLoop hloop, ?_⟩
  simp [Function.comp_def]

theorem LogCovers.opens (h : LogCovers c s first records) :
    ∃ wal, Wal.open c s.wal.file = .ok wal := by
  obtain ⟨wal, hwal, -⟩ := h.open_eq
  exact ⟨wal, hwal⟩

theorem LogCovers.inLog (h : LogCovers c s first records) :
    ∀ x ∈ s.memtable.chain, InLog c s.wal.file x := by
  obtain ⟨wal, hwal, hreplayed⟩ := h.open_eq
  exact fun x hx => ⟨wal, hwal, by rw [hreplayed]; exact h.memtable x hx⟩

theorem recoverFromWal_append (records : List WalRecord) (ticks : List Tick) :
    recoverFromWal (records ++ ticks.map .insert) = (recoverFromWal records).insertAll ticks := by
  rw [recoverFromWal, List.foldl_append, List.foldl_map]
  rfl

theorem mem_insertAll_mono {m m' : SkipList} (h : ∀ x ∈ m.chain, x ∈ m'.chain) {ticks : List Tick}
    {x : Tick} (hx : x ∈ (m.insertAll ticks).chain) : x ∈ (m'.insertAll ticks).chain := by
  have hget : (m.insertAll ticks).get x.key = some x :=
    (SkipList.get_eq_some_iff _ _ x).mpr ⟨hx, rfl⟩
  refine ((SkipList.get_eq_some_iff _ x.key x).mp ?_).1
  rw [SkipList.get_insertAll] at hget ⊢
  cases hlast : firstAt Tick.key ticks.reverse x.key with
  | some y =>
    rw [hlast] at hget
    exact hget
  | none =>
    rw [hlast, Option.none_or] at hget
    rw [Option.none_or]
    exact (SkipList.get_eq_some_iff _ _ x).mpr ⟨h x ((SkipList.get_eq_some_iff _ _ x).mp hget).1, rfl⟩

theorem logCovers_fresh (c : Codec) (flushThreshold : Nat) (role : NodeRole) :
    LogCovers c (fresh flushThreshold role) 0 [] :=
  ⟨rfl, rfl, by decide, List.forall_mem_nil _, List.forall_mem_nil _⟩

/-- What a call that stores its ticks does to the log. -/
theorem log_eq_ok {env : Env} {call : InsertCall} {time : Nat} {ticks : List Tick}
    {dict : SymbolDictionary} (h : call.Stores c env s time ticks dict) :
    (call.log c (env.disk time) s ticks).2 = Wal.extend c s.wal (ticks.map .insert) ∧
      s.wal.sequence + ticks.length < 2 ^ 64 := by
  obtain ⟨n, hn⟩ := h.logged
  have hticks := InsertCall.stored_ne_nil h.stored h.nonempty
  have hbatch (hn : (Wal.appendBatch c (env.disk time) s.wal (ticks.map .insert)).1 = .ok n) :
      (Wal.appendBatch c (env.disk time) s.wal (ticks.map .insert)).2 =
        Wal.extend c s.wal (ticks.map .insert) ∧ s.wal.sequence + ticks.length < 2 ^ 64 := by
    obtain ⟨hwal, hsequence, hbound⟩ := Wal.appendBatch_eq_ok (Prod.ext hn rfl)
    refine ⟨hwal, ?_⟩
    have hlast := hbound.resolve_left fun hnil => hticks (List.map_eq_nil_iff.mp hnil)
    rw [hsequence, hwal, Wal.extend, List.length_map] at hlast
    exact hlast
  cases call with
  | insert symbol tick =>
    cases h.stored
    obtain ⟨hwal, hsequence, hbound⟩ := Wal.append_eq_ok (Prod.ext hn rfl)
    refine ⟨hwal, ?_⟩
    rw [hwal] at hsequence
    rw [hsequence] at hbound
    exact hbound
  | insertBatch symbol batch => exact hbatch hn
  | insertMulti symbolTicks => exact hbatch hn

/-- Rows that go to the log and into the memtable. -/
theorem LogCovers.extend {s' : LsmTree} {ticks : List Tick} (h : LogCovers c s first records)
    (hwal : s'.wal = Wal.extend c s.wal (ticks.map .insert))
    (hmemtable : s'.memtable = s.memtable.insertAll ticks)
    (hbound : s.wal.sequence + ticks.length < 2 ^ 64)
    (hinverts : ∀ x ∈ ticks, c.Inverts (.insert x)) :
    LogCovers c s' first (records ++ ticks.map .insert) := by
  refine ⟨?_, ?_, ?_, ?_, fun x hx => ?_⟩
  · rw [hwal, Wal.extend, h.file, h.sequence, Wal.logBytes_append]
  · rw [hwal, Wal.extend, h.sequence, List.length_append, Nat.add_assoc]
  · rw [List.length_append, List.length_map, ← Nat.add_assoc, ← h.sequence]
    exact hbound
  · intro r hr
    rcases List.mem_append.mp hr with hr | hr
    · exact h.inverts r hr
    · obtain ⟨x, hx, rfl⟩ := List.mem_map.mp hr
      exact hinverts x hx
  · rw [recoverFromWal_append]
    rw [hmemtable] at hx
    exact mem_insertAll_mono h.memtable hx

/-- A call that stores its ticks keeps the log covering the memtable. -/
theorem LogCovers.store {env : Env} {call : InsertCall} {time : Nat} {ticks : List Tick}
    {dict : SymbolDictionary} (h : LogCovers c s first records)
    (hstores : call.Stores c env s time ticks dict)
    (hinverts : ∀ x ∈ ticks, c.Inverts (.insert x)) :
    LogCovers c (call.after c env s time ticks dict) first (records ++ ticks.map .insert) := by
  obtain ⟨hwal, hbound⟩ := log_eq_ok hstores
  exact h.extend hwal rfl hbound hinverts

end Promise

/-- At each point of a flush where the process may stop, the directory recovers what was
acknowledged exactly when each of its files opens, and the rows of a file whose name the new
one has taken are in the log or in another file. -/
theorem flush_crash_recoverable_iff (p : Platform) (c : Codec) (env : Env) (left : Option Nat)
    (s : LsmTree) (time : Nat) (tables : List Table) (flushThreshold : Nat) (role : NodeRole)
    (last : Option Nat) (acked : Tick → Prop) (hopens : ∃ wal, Wal.open c s.wal.file = .ok wal)
    (hlog : ∀ x ∈ s.memtable.chain, acked x → InLog c s.wal.file x) (st : OnDisk)
    (hst : st ∈ stages (flushFiles p env left) [] ((s, time), tables.map .complete)) :
    Recovers p c flushThreshold role last (fun x => s.Stored tables x ∧ acked x) st ↔
      (∀ f ∈ st.2, ∃ t, f.load p = .ok t) ∧
        ∀ t ∈ tables, .complete t ∉ st.2 → ∀ x ∈ t.rows, acked x →
          InLog c st.1.1.wal.file x ∨ FileHolds p st.2 x :=
  recovers_iff (Through.mem_stages (through_flushFiles hopens hlog) [] st hst) tables

/-- A new tree after its first insert. -/
def firstInsert : LsmTree :=
  (InsertCall.insert "A" (flatTick 7 5 1)).after (Codec.forTicks [flatTick 0 5 1]) .calm
    (fresh 10 .primary) 0 [flatTick 0 5 1] (SymbolDictionary.new.getOrInsert "A").2

theorem logCovers_firstInsert : LogCovers (Codec.forTicks [flatTick 0 5 1]) firstInsert 0
    [.insert (flatTick 0 5 1)] := by
  refine (logCovers_fresh _ 10 .primary).store ⟨rfl, rfl, rfl, 1, by decide +kernel⟩ ?_
  exact List.forall_mem_singleton.mpr ⟨_, rfl, by decide +kernel, by decide +kernel⟩

/-- The process stops before there is a table file. -/
theorem flush_crash_recoverable_after_drain :
    Recovers .simple (Codec.forTicks [flatTick 0 5 1]) 10 .primary none
        (fun x => firstInsert.Stored [] x ∧ x = flatTick 0 5 1) ((firstInsert.drained, 0), []) ↔
      (∀ f ∈ ([] : List TableFile), ∃ t, f.load .simple = .ok t) ∧
        ∀ t ∈ ([] : List Table), .complete t ∉ ([] : List TableFile) → ∀ x ∈ t.rows,
          x = flatTick 0 5 1 → InLog (Codec.forTicks [flatTick 0 5 1]) firstInsert.wal.file x ∨
            FileHolds .simple [] x :=
  flush_crash_recoverable_iff .simple (Codec.forTicks [flatTick 0 5 1]) .calm none firstInsert 0 []
    10 .primary none (fun x => x = flatTick 0 5 1) logCovers_firstInsert.opens
    (fun x hx _ => logCovers_firstInsert.inLog x hx) _ (List.mem_cons_of_mem _ List.mem_cons_self)

/-- The process stops when the new table file has been created and is still empty: the log
holds the tick, but the directory does not open. -/
theorem empty_table_file_is_not_recoverable :
    ((firstInsert.drained, 2), [.cut "L0_000000.sst" []]) ∈
        stages (flushFiles .simple .calm none) [] ((firstInsert, 0), []) ∧
      InLog (Codec.forTicks [flatTick 0 5 1]) firstInsert.drained.wal.file (flatTick 0 5 1) ∧
      ¬ Recovers .simple (Codec.forTicks [flatTick 0 5 1]) 10 .primary none
        (fun x => firstInsert.Stored [] x ∧ x = flatTick 0 5 1)
        ((firstInsert.drained, 2), [.cut "L0_000000.sst" []]) := by
  refine ⟨?_, logCovers_firstInsert.inLog _ ?_, fun h => ?_⟩
  · have hwritten : (SsTable.write .simple (tableName 0 0) [flatTick 0 5 1] 0
        firstInsert.symbolDict).isSome = true := by decide +kernel
    obtain ⟨⟨file, sst⟩, hwrite⟩ := Option.isSome_iff_exists.mp hwritten
    have hdrain : exec (beside (withGuard .memtable .write (attempt drainMemtable)) :
        Op Lock OnDisk (Stop LsmError) (List Tick)) [] ((firstInsert, 0), []) =
          .finished (.ok [flatTick 0 5 1]) [] ((firstInsert.drained, 0), []) := rfl
    have hnow : exec (beside (attempt (now .calm)) : Op Lock OnDisk (Stop LsmError) Nat) []
        ((firstInsert.drained, 0), []) = .finished (.ok 0) [] ((firstInsert.drained, 1), []) := rfl
    have hdict : exec (beside (withGuard .symbolDict .read (gets fun st => st.1.symbolDict)) :
        Op Lock OnDisk (Stop LsmError) SymbolDictionary) [] ((firstInsert.drained, 1), []) =
          .finished (.ok firstInsert.symbolDict) [] ((firstInsert.drained, 1), []) := rfl
    have houtcome : exec (fileOutcome .calm : Op Lock OnDisk (Stop LsmError) Bool) []
        ((firstInsert.drained, 1), []) =
          .finished (.ok true) [] ((firstInsert.drained, 2), []) := rfl
    refine mem_stages_bind_ok hdrain ?_
    rw [if_neg (List.cons_ne_nil _ _)]
    refine mem_stages_bind_ok hnow (mem_stages_bind_ok hdict (mem_stages_bind ?_ _))
    refine mem_stages_bind_ok houtcome ?_
    rw [hwrite]
    exact mem_stages_bind (created_mem_stages _ _ _ _ _) _
  · decide +kernel
  · obtain ⟨tree, htree, -⟩ := h _ (List.Perm.refl _)
    obtain ⟨wal, hwal⟩ := logCovers_firstInsert.opens
    rcases openFiles_spec hwal .simple 10 .primary [.cut "L0_000000.sst" []] none with
      ⟨hload, -⟩ | ⟨-, e, he⟩
    · obtain ⟨t, ht⟩ := hload _ List.mem_cons_self
      cases ht
    · rw [show firstInsert.drained.wal.file = firstInsert.wal.file from rfl, he] at htree
      cases htree

end LsmTree

end Graphite
