import Graphite.LsmCrash
import Graphite.TableNames

/-! The sizes of levels and the bytes read. `SsTable::write` notes the length of the file,
`SsTable::open` notes 0, so a reopened tree has forgotten every size and a compaction never
counts what it reads. -/

namespace Graphite
open BigEndian LockProgram GuardedRuns

/-- The table is as it was written. -/
def Table.Written (p : Platform) (t : Table) : Prop :=
  ∃ path level dict file, SsTable.write p path t.rows level dict = some (file, t.sst)

theorem SsTable.fileSize_of_write {p : Platform} {path : String} {ticks : List Tick} {level : Nat}
    {symbolDict : SymbolDictionary} {file : Bytes} {sst : SsTable}
    (h : SsTable.write p path ticks level symbolDict = some (file, sst)) :
    sst.tableMeta.fileSize = file.length ∧ 0 < file.length := by
  unfold SsTable.write at h
  obtain ⟨bloom, -, h⟩ := Option.bind_eq_some_iff.mp h
  obtain ⟨data, -, h⟩ := Option.bind_eq_some_iff.mp h
  cases h
  exact ⟨rfl, Nat.zero_lt_succ _⟩

theorem Table.Written.fileSize_pos {p : Platform} {t : Table} (h : t.Written p) :
    0 < t.sst.tableMeta.fileSize := by
  obtain ⟨path, level, dict, file, hwrite⟩ := h
  obtain ⟨hsize, hpos⟩ := SsTable.fileSize_of_write hwrite
  rwa [hsize]

namespace FileEvent

/-- What the event adds to the lengths of the files read. -/
def readLength : FileEvent → Nat
  | read t => t.sst.tableMeta.fileSize
  | write _ _ _ => 0

end FileEvent

namespace CompactionManager

def levelSizes (m : CompactionManager) : List Nat := m.levels.map Level.totalSize

/-- Two managers that decide alike about the next compaction. -/
structure SameSizes (p : Platform) (m m' : CompactionManager) : Prop where
  levelSizes : m'.levelSizes = m.levelSizes
  needsCompaction : m'.needsCompaction = m.needsCompaction
  due : m'.due p = m.due p

theorem totalSize_eq_zero_iff {l : Level} :
    l.totalSize = 0 ↔ ∀ t ∈ l.tables, t.sst.tableMeta.fileSize = 0 := by
  rw [Level.totalSize, List.sum_eq_zero_iff_forall_eq_nat]
  simp

/-- The sizes are all 0 exactly when every registered table has size 0. -/
theorem levelSizes_zero_iff {m : CompactionManager} :
    (∀ size ∈ m.levelSizes, size = 0) ↔ ∀ t ∈ m.registered, t.sst.tableMeta.fileSize = 0 := by
  simp only [levelSizes, registered, List.mem_map, List.mem_flatMap, forall_exists_index, and_imp,
    forall_apply_eq_imp_iff₂, totalSize_eq_zero_iff]
  exact ⟨fun h t l hl ht => h l hl t ht, fun h l hl t ht => h t l hl ht⟩

theorem sameSizes_of_empty (p : Platform) {m m' : CompactionManager} (hm : m.registered = [])
    (hlen : m.levels.length = 1) (hm' : m'.registered = []) (hlen' : m'.levels.length = 1) :
    SameSizes p m m' := by
  have hempty : ∀ {m : CompactionManager}, m.registered = [] → m.levels.length = 1 →
      m.levelSizes = [0] ∧ m.needsCompaction = some false := by
    intro m hm hlen
    obtain ⟨l0, hl0⟩ := List.length_eq_one_iff.mp hlen
    have htables : l0.tables = [] := by
      rw [registered, hl0, List.flatMap_singleton] at hm
      exact hm
    constructor
    · rw [levelSizes, hl0, List.map_singleton, Level.totalSize, htables]
      rfl
    · simp [needsCompaction, hl0, htables, L0_MAX_TABLES, deeperNeeds]
  obtain ⟨hsizes, hneeds⟩ := hempty hm hlen
  obtain ⟨hsizes', hneeds'⟩ := hempty hm' hlen'
  exact ⟨hsizes'.trans hsizes.symm, hneeds'.trans hneeds.symm,
    (due_eq_nil p hneeds').trans (due_eq_nil p hneeds).symm⟩

/-- After `LsmTree::open` every size is 0. -/
theorem levelSizes_open {c : Codec} {flushThreshold : Nat} {role : NodeRole}
    {dir : LsmTree.Directory} {s : LsmTree}
    (h : LsmTree.«open» c flushThreshold role dir = .ok s) :
    (∀ size ∈ s.compaction.levelSizes, size = 0) ∧
      (dir.tables = [] → s.compaction.registered = [] ∧ s.compaction.levels.length = 1) := by
  have hcompaction : s.compaction =
      (dir.tables.map Table.reopen).foldl LsmTree.loadSstable (new SymbolDictionary.new) := by
    unfold LsmTree.«open» at h
    cases hwal : (Wal.open c dir.walLog).mapError (Stop.map LsmError.wal) with
    | error e =>
      rw [hwal] at h
      cases h
    | ok wal =>
      rw [hwal] at h
      cases h
      exact List.foldl_map.symm
  rw [hcompaction]
  refine ⟨levelSizes_zero_iff.mpr fun t ht => ?_, fun htables => ?_⟩
  · rcases (LsmTree.mem_foldl_loadSstable _ _ t).mp ht with ht | ht
    · cases ht
    · obtain ⟨t', -, rfl⟩ := List.mem_map.mp ht
      rfl
  · rw [htables]
    exact ⟨rfl, rfl⟩

/-- The manager and the events so far of a compaction that found `bytesRead` bytes counted. -/
structure Counted (p : Platform) (bytesRead : Nat) (st : CompactionManager × List FileEvent) :
    Prop where
  registered : ∀ t ∈ st.1.registered, t.Written p
  reads : ∀ t, .read t ∈ st.2 → t.Written p
  bytesRead : st.1.bytesRead = bytesRead

theorem registered_subset {m m' : CompactionManager}
    (h : ∀ n, m'.tablesAt n ⊆ m.tablesAt n) : m'.registered ⊆ m.registered := by
  intro t ht
  obtain ⟨n, hn⟩ := (mem_registered_iff m' t).mp ht
  exact (mem_registered_iff m t).mpr ⟨n, h n hn⟩

theorem mem_registered_addTable {m : CompactionManager} {level : Nat} {t x : Table}
    (h : x ∈ (m.addTable level t).registered) : x ∈ m.registered ∨ x = t := by
  by_cases hlevel : level < m.levels.length
  · exact (LsmTree.mem_modify_addTable hlevel).mp h
  · left
    rw [registered, addTable, List.modify_eq_self (not_lt.mp hlevel)] at h
    exact h

/-- Reopened tables have no size, so nothing is ever counted. -/
theorem counted_steps (p : Platform) (bytesRead : Nat) : StepInvariant p (Counted p bytesRead) where
  read {m log t} h ht := by
    refine ⟨h.registered, fun u hu => ?_, h.bytesRead⟩
    rcases List.mem_append.mp hu with hu | hu
    · exact h.reads u hu
    · cases List.mem_singleton.mp hu
      exact h.registered t ht
  clear i h := by
    refine ⟨fun t ht => h.registered t (registered_subset (fun n => ?_) ht), h.reads, h.bytesRead⟩
    rw [tablesAt_clearLevel]
    split_ifs
    · exact List.nil_subset _
    · exact List.Subset.refl _
  ensure {m log} i h := by
    refine ⟨fun t ht => h.registered t (registered_subset (fun n => ?_) ht), h.reads, ?_⟩
    · rw [tablesAt_ensureLevel]
      exact List.Subset.refl _
    · rw [← h.bytesRead, ensureLevel]
      split_ifs <;> rfl
  unwritten level nanos h := by
    refine ⟨h.registered, fun t ht => h.reads t ?_, h.bytesRead⟩
    simpa using ht
  written h hwrite := by
    refine ⟨fun t ht => ?_, fun t ht => h.reads t ?_, h.bytesRead⟩
    · rcases mem_registered_addTable ht with ht | rfl
      · exact h.registered t ht
      · exact ⟨_, _, _, _, hwrite⟩
    · simpa using ht

section FirstRead

variable {p : Platform} {m : CompactionManager} {log : List FileEvent} {time : Nat}

/-- The events so far begin with these. -/
def Begins (front : List FileEvent) (st : CompactionManager × List FileEvent) : Prop :=
  front <+: st.2

theorem begins_steps (p : Platform) (front : List FileEvent) : StepInvariant p (Begins front) where
  read h _ := h.trans (List.prefix_append _ _)
  clear _ h := h
  ensure _ h := h
  unwritten _ _ h := h.trans (List.prefix_append _ _)
  written h _ := h.trans (List.prefix_append _ _)

/-- The next event is that a table is read, or its file cannot be opened and that is all. -/
def ReadsFirst (env : Env) (x : LoggedM Unit) (m : CompactionManager) (log : List FileEvent)
    (time : Nat) : Prop :=
  (env.io time = true ∧ ∃ t, Begins (log ++ [.read t]) (x ((m, log), time)).2.1) ∨
    (env.io time = false ∧ ∃ e, x ((m, log), time) = (.error e, ((m, log), time + 1)))

theorem ReadsFirst.bind {env : Env} {x : LoggedM Unit} {f : Unit → LoggedM Unit}
    (hx : ReadsFirst env x m log time)
    (hf : ∀ front, DiskM.Keeps (Begins front) (f ())) :
    ReadsFirst env (x >>= f) m log time := by
  rcases hx with ⟨hio, t, ht⟩ | ⟨hio, e, he⟩
  · exact Or.inl ⟨hio, t, DiskM.bind_keeps ht fun _ => hf _⟩
  · exact Or.inr ⟨hio, e, DiskM.bind_error he f⟩

theorem readsFirst_compactLevel (p : Platform) (env : Env) {i : Nat} {level : Level}
    (hlevel : m.levels[i]? = some level) (hne : level.tables ≠ []) :
    ReadsFirst env (Logged.compactLevel p env i) m log time := by
  have hcurrent : silent current ((m, log), time) = (.ok m, ((m, log), time)) := rfl
  obtain ⟨t, tables, htables⟩ := List.exists_cons_of_ne_nil hne
  have hmem : ∀ u ∈ tables, u ∈ (m.counted t).registered := fun u hu =>
    mem_registered_of_getElem? (m := m) hlevel (htables ▸ List.mem_cons_of_mem t hu)
  rw [ReadsFirst, Logged.compactLevel, DiskM.bind_ok hcurrent, hlevel]
  dsimp only
  rw [if_neg hne, htables]
  rcases readTables_cons_cases env t tables m log time with ⟨hio, hres⟩ | ⟨hio, hres⟩
  · exact Or.inr ⟨hio, _, DiskM.bind_error hres _⟩
  · refine Or.inl ⟨hio, t, ?_⟩
    have hsteps := begins_steps p (log ++ [.read t])
    have hfront : Begins (log ++ [.read t]) (m.counted t, log ++ [.read t]) := List.prefix_refl _
    have hread : Begins (log ++ [.read t])
        (Logged.readTables env (t :: tables) ((m, log), time)).2.1 := by
      rcases hres with hres | hres
      · rw [hres]
        exact hfront
      · rw [hres]
        exact DiskM.bind_keeps (keeps_readTables env hsteps hfront hmem _) fun _ =>
          DiskM.keeps_pure _
    refine DiskM.bind_keeps hread fun ticks => ?_
    refine (keeps_silent_update fun _ _ => hsteps.clear i).bind fun _ => ?_
    exact (keeps_silent_update fun _ _ => hsteps.ensure (i + 1)).bind fun _ =>
      keeps_writeChunks env hsteps (i + 1) _

/-- The loop gets to the level that `needsCompaction` has found. -/
theorem readsFirst_deeper (p : Platform) (env : Env) {i : Nat} {deeper : List Level}
    (hdeeper : m.levels.drop i = deeper) (hneeds : deeperNeeds i deeper = some true) :
    ReadsFirst env (forM (List.range' i deeper.length) (Logged.compactDeeper p env)) m log
      time := by
  induction deeper generalizing i with
  | nil => cases hneeds
  | cons level deeper ih =>
    have hlevel : m.levels[i]? = some level := by
      rw [← List.head?_drop, hdeeper]
      rfl
    have hrest : m.levels.drop (i + 1) = deeper := by
      rw [← List.drop_drop, hdeeper]
      rfl
    have hcurrent : silent current ((m, log), time) = (.ok m, ((m, log), time)) := rfl
    rw [List.length_cons, List.range'_succ, List.forM_cons]
    rw [deeperNeeds] at hneeds
    cases htarget : targetSize i with
    | none => simp [htarget] at hneeds
    | some target =>
      simp only [htarget, Option.bind_eq_bind, Option.bind_some] at hneeds
      by_cases hsize : level.totalSize > target
      · have hne : level.tables ≠ [] := by
          intro hnil
          rw [Level.totalSize, hnil] at hsize
          exact absurd hsize (Nat.not_lt_zero _)
        have hfirst : ReadsFirst env (Logged.compactDeeper p env i) m log time := by
          have hlevelFirst : ReadsFirst env (Logged.compactLevel p env i) m log time :=
            readsFirst_compactLevel p env hlevel hne
          rw [ReadsFirst, Logged.compactDeeper, DiskM.bind_ok hcurrent, htarget, hlevel]
          dsimp only
          rw [if_pos hsize]
          exact hlevelFirst
        exact hfirst.bind fun front =>
          DiskM.keeps_forM (keeps_compactDeeper env (begins_steps p front))
      · rw [if_neg hsize] at hneeds
        have hskip : Logged.compactDeeper p env i ((m, log), time) =
            (.ok (), ((m, log), time)) := by
          rw [Logged.compactDeeper, DiskM.bind_ok hcurrent, htarget, hlevel]
          dsimp only
          rw [if_neg hsize]
          rfl
        have hloop := ih hrest hneeds
        rw [ReadsFirst] at hloop ⊢
        rwa [DiskM.bind_ok hskip]

theorem readsFirst_compact (p : Platform) (env : Env) (hneeds : m.needsCompaction = some true) :
    ReadsFirst env (Logged.compact p env) m log time := by
  have hcurrent : silent current ((m, log), time) = (.ok m, ((m, log), time)) := rfl
  rw [ReadsFirst, Logged.compact, DiskM.bind_ok hcurrent, hneeds]
  dsimp only
  unfold needsCompaction at hneeds
  cases hlevels : m.levels with
  | nil =>
    rw [hlevels] at hneeds
    cases hneeds
  | cons l0 deeper =>
    rw [hlevels] at hneeds
    dsimp only at hneeds
    by_cases hfull : l0.tables.length ≥ L0_MAX_TABLES
    · have hne : l0.tables ≠ [] := by
        intro hnil
        rw [hnil] at hfull
        exact absurd hfull (by decide)
      have hlevel : m.levels[0]? = some l0 := by rw [hlevels]; rfl
      have hfirst : ReadsFirst env (Logged.compactFirst p env) m log time := by
        have hlevelFirst : ReadsFirst env (Logged.compactLevel p env 0) m log time :=
          readsFirst_compactLevel p env hlevel hne
        rw [ReadsFirst, Logged.compactFirst, DiskM.bind_ok hcurrent, hlevels]
        dsimp only
        rw [if_pos hfull]
        exact hlevelFirst
      exact hfirst.bind fun front => keeps_silent_current.bind fun m' =>
        DiskM.keeps_forM (keeps_compactDeeper env (begins_steps p front))
    · rw [if_neg hfull] at hneeds
      have hskip : Logged.compactFirst p env ((m, log), time) = (.ok (), ((m, log), time)) := by
        rw [Logged.compactFirst, DiskM.bind_ok hcurrent, hlevels]
        dsimp only
        rw [if_neg hfull]
        rfl
      rw [DiskM.bind_ok hskip, DiskM.bind_ok hcurrent, hlevels, List.length_cons,
        Nat.add_sub_cancel]
      exact readsFirst_deeper p env (by rw [hlevels]; rfl) hneeds

/-- A compaction reads no table exactly when none is due or the first one cannot be opened. -/
theorem readLengths_eq_zero_iff (env : Env) (hwritten : ∀ t ∈ m.registered, t.Written p) :
    ((events p env m time).map FileEvent.readLength).sum = 0 ↔
      ¬ (m.needsCompaction = some true ∧ env.io time = true) := by
  have hcounted : Counted p m.bytesRead (m, []) := ⟨hwritten, by simp, rfl⟩
  have hreads := (compact_keeps env (counted_steps p m.bytesRead) hcounted time).reads
  by_cases hneeds : m.needsCompaction = some true
  · have hfirst : ReadsFirst env (Logged.compact p env) m [] time := readsFirst_compact p env hneeds
    rcases hfirst with ⟨hio, t, more, hmore⟩ | ⟨hio, e, he⟩
    · have hevents : events p env m time = .read t :: more := hmore.symm
      have hpos := (hreads t (hevents ▸ List.mem_cons_self)).fileSize_pos
      rw [hevents, List.map_cons, List.sum_cons, FileEvent.readLength]
      exact iff_of_false (by omega) fun h => h ⟨hneeds, hio⟩
    · have hevents : events p env m time = [] := by rw [events, he]
      rw [hevents]
      exact iff_of_true rfl fun h => Bool.false_ne_true (hio.symm.trans h.2)
  · have hevents : events p env m time = [] := by
      have hcurrent : silent current ((m, []), time) = (.ok m, ((m, []), time)) := rfl
      rw [events, Logged.compact, DiskM.bind_ok hcurrent]
      cases hm : m.needsCompaction with
      | none => rfl
      | some needed =>
        cases needed with
        | false => rfl
        | true => exact absurd hm hneeds
    rw [hevents]
    exact iff_of_true rfl fun h => hneeds h.1

end FirstRead

end CompactionManager

namespace TreeCall
open LsmTree CompactionManager

variable (p : Platform) (c : Codec) (env : Env)

/-- A state with the lengths of the files read so far. -/
def countedStep (st : (LsmTree × Nat) × Nat) (call : TreeCall) : (LsmTree × Nat) × Nat :=
  (step p c env st.1 call, st.2 + ((events p env st.1 call).map FileEvent.readLength).sum)

def CountsReads (st : (LsmTree × Nat) × Nat) : Prop := st.1.1.compaction.bytesRead = st.2

/-- A compaction has nothing to do or cannot open the first file. -/
def ReadsNothing (env : Env) (st : (LsmTree × Nat) × Nat) : TreeCall → Prop
  | insertion _ => True
  | flushMemtable => True
  | compact => ¬ (st.1.1.compaction.needsCompaction = some true ∧ env.io st.1.2 = true)

variable {p c env}

/-- The counter stays where it was. -/
theorem counted_step {s : LsmTree} (hlevels : s.compaction.levels ≠ []) {bytesRead : Nat}
    (h : Counted p bytesRead (s.compaction, [])) (time : Nat) (call : TreeCall) :
    Counted p bytesRead ((step p c env (s, time) call).1.compaction, []) := by
  have hmoves := moves p c env hlevels time call
  generalize (step p c env (s, time) call).1 = s' at hmoves
  cases hmoves with
  | stored => exact h
  | stuck => exact h
  | idle => exact h
  | unwritten => exact h
  | @flushed time' t ht wal =>
    refine ⟨fun u hu => ?_, by simp, h.bytesRead⟩
    have hpos : 0 < s.compaction.levels.length := List.length_pos_of_ne_nil hlevels
    rcases (mem_modify_addTable hpos).mp hu with hu | rfl
    · exact h.registered u hu
    · rw [flushTable] at ht
      split_ifs at ht
      obtain ⟨w, hw, rfl⟩ := Option.map_eq_some_iff.mp ht
      exact ⟨_, _, _, _, hw⟩
  | compacted time' =>
    obtain ⟨hregistered, -, hbytes⟩ := compact_keeps env (counted_steps p bytesRead) h time'
    exact ⟨hregistered, by simp, hbytes⟩

theorem readLengths_eq_zero {st : (LsmTree × Nat) × Nat}
    (hwritten : ∀ t ∈ st.1.1.compaction.registered, t.Written p) (call : TreeCall) :
    ((events p env st.1 call).map FileEvent.readLength).sum = 0 ↔ ReadsNothing env st call := by
  cases call with
  | insertion call => exact iff_of_true rfl trivial
  | flushMemtable =>
    refine iff_of_true ?_ trivial
    rw [events]
    split_ifs <;> rfl
  | compact => exact readLengths_eq_zero_iff env hwritten

/-- A run from an empty directory. -/
theorem counted_run (calls : List TreeCall) {st : LsmTree × Nat}
    (hlevels : st.1.compaction.levels ≠ []) (h : Counted p 0 (st.1.compaction, [])) :
    Counted p 0 ((run (step p c env) st calls).1.compaction, []) := by
  induction calls generalizing st with
  | nil => exact h
  | cons call calls ih => exact ih (levels_step hlevels st.2 call) (counted_step hlevels h st.2 call)

theorem counted_fresh (p : Platform) (flushThreshold : Nat) (role : NodeRole) :
    Counted p 0 ((fresh flushThreshold role).compaction, []) :=
  ⟨List.forall_mem_nil _, by simp, rfl⟩

theorem sameSizes_iff {flushThreshold : Nat} {role : NodeRole} {s s' : LsmTree} {dir : Directory}
    (hwritten : ∀ t ∈ s.compaction.registered, t.Written p)
    (hlisted : ∀ t, t ∈ dir.tables ↔ t ∈ s.compaction.registered)
    (hopen : LsmTree.«open» c flushThreshold role dir = .ok s') :
    SameSizes p s.compaction s'.compaction ↔
      s.compaction.registered = [] ∧ s.compaction.levels.length = 1 := by
  obtain ⟨hzero, hempty⟩ := levelSizes_open hopen
  have hnone : s.compaction.registered = [] → dir.tables = [] := fun h =>
    List.eq_nil_iff_forall_not_mem.mpr fun t ht => by
      have hmem := (hlisted t).mp ht
      rw [h] at hmem
      cases hmem
  constructor
  · intro h
    rw [h.levelSizes, levelSizes_zero_iff] at hzero
    have hregistered : s.compaction.registered = [] :=
      List.eq_nil_iff_forall_not_mem.mpr fun t ht => (hwritten t ht).fileSize_pos.ne' (hzero t ht)
    have hlen := congrArg List.length h.levelSizes
    rw [CompactionManager.levelSizes, CompactionManager.levelSizes, List.length_map,
      List.length_map, (hempty (hnone hregistered)).2] at hlen
    exact ⟨hregistered, hlen.symm⟩
  · rintro ⟨hregistered, hlen⟩
    obtain ⟨hregistered', hlen'⟩ := hempty (hnone hregistered)
    exact sameSizes_of_empty p hregistered hlen hregistered' hlen'

/-- Reopening the directory behind a run from an empty one keeps the sizes exactly when no
table is registered and no level below level 0 exists, and the counter says what has been
read in each state of the run exactly when none of its compactions reads a table. -/
theorem sizes_survive_iff (p : Platform) (c : Codec) (env : Env) (flushThreshold : Nat)
    (role : NodeRole) (calls : List TreeCall) (dir : Directory) (s' : LsmTree)
    (hlisted : ∀ t, t ∈ dir.tables ↔
      t ∈ (run (step p c env) (fresh flushThreshold role, 0) calls).1.compaction.registered)
    (hopen : LsmTree.«open» c flushThreshold role dir = .ok s') :
    (SameSizes p (run (step p c env) (fresh flushThreshold role, 0) calls).1.compaction
        s'.compaction ↔
      (run (step p c env) (fresh flushThreshold role, 0) calls).1.compaction.registered = [] ∧
      (run (step p c env) (fresh flushThreshold role, 0) calls).1.compaction.levels.length = 1) ∧
    (Always (countedStep p c env) CountsReads ((fresh flushThreshold role, 0), 0) calls ↔
      Guarded (countedStep p c env) (ReadsNothing env) ((fresh flushThreshold role, 0), 0)
        calls) := by
  have hfresh := counted_fresh p flushThreshold role
  have hlevels : (fresh flushThreshold role).compaction.levels ≠ [] := List.cons_ne_nil _ _
  refine ⟨sameSizes_iff (counted_run calls hlevels hfresh).registered hlisted hopen, ?_⟩
  refine always_iff_guarded (fun st : (LsmTree × Nat) × Nat => st.1.1.compaction.levels ≠ [] ∧
    Counted p 0 (st.1.1.compaction, []) ∧ st.2 = 0) (fun _ h => h.2.1.bytesRead.trans h.2.2.symm)
      ?_ ?_ ⟨hlevels, hfresh, rfl⟩ calls
  · rintro ⟨st, total⟩ call ⟨hlevels, hcounted, rfl⟩ hguard
    refine ⟨levels_step hlevels st.2 call, counted_step hlevels hcounted st.2 call, ?_⟩
    rw [countedStep, (readLengths_eq_zero hcounted.registered call).mpr hguard]
  · rintro ⟨st, total⟩ call ⟨hlevels, hcounted, rfl⟩ hguard hcounts
    refine hguard ((readLengths_eq_zero hcounted.registered call).mp ?_)
    have hbytes : (step p c env st call).1.compaction.bytesRead = _ :=
      (counted_step hlevels hcounted st.2 call).bytesRead
    have hzero : 0 + ((events p env st call).map FileEvent.readLength).sum = 0 :=
      hcounts.symm.trans hbytes
    rwa [Nat.zero_add] at hzero

/-- A tree with one table, and what is left of its size. -/
theorem sizes_survive_one_table :
    let s := (run (step .simple (ticksCodec [1]) .calm) (fresh 10 .primary, 0) (flushes [1])).1
    let s' : LsmTree := { fresh 10 .primary with
      compaction := loadSstables (.new .new) s.compaction.registered }
    (SameSizes .simple s.compaction s'.compaction ↔
      s.compaction.registered = [] ∧ s.compaction.levels.length = 1) ∧
    (Always (countedStep .simple (ticksCodec [1]) .calm) CountsReads ((fresh 10 .primary, 0), 0)
        (flushes [1]) ↔
      Guarded (countedStep .simple (ticksCodec [1]) .calm) (ReadsNothing .calm)
        ((fresh 10 .primary, 0), 0) (flushes [1])) :=
  sizes_survive_iff .simple (ticksCodec [1]) .calm 10 .primary (flushes [1])
    ⟨[], (run (step .simple (ticksCodec [1]) .calm) (fresh 10 .primary, 0)
      (flushes [1])).1.compaction.registered, none⟩ _ (fun _ => Iff.rfl) rfl

/-- Four tables are flushed: reopened, their level has size 0, and a compaction that reads
them counts no byte. -/
theorem sizes_forgotten :
    (let s := (run (step .simple (ticksCodec [1, 2, 3, 4]) .calm) (fresh 10 .primary, 0)
      (flushes [1, 2, 3, 4])).1
    ¬ SameSizes .simple s.compaction (loadSstables (.new .new) s.compaction.registered)) ∧
    ¬ Always (countedStep .simple (ticksCodec [1, 2, 3, 4]) .calm) CountsReads
      ((fresh 10 .primary, 0), 0) (flushes [1, 2, 3, 4] ++ [.compact]) := by
  constructor
  · intro s h
    have hsizes := h.levelSizes
    revert hsizes
    decide +kernel
  · intro h
    have hcounts := h _ (List.prefix_refl _)
    revert hcounts
    unfold CountsReads
    decide +kernel

end TreeCall

end Graphite
