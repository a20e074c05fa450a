import Graphite.CompactionPartition
import Graphite.TableNames

/-! The directory while a compaction runs. A level's files are removed before the first file of
the next level is written, so a stop between the two loses every key that no other level has. -/

namespace Graphite
open KeyedRows LockProgram

namespace CompactionManager

abbrev FiledM := Op Lock ((CompactionManager × Nat) × List TableFile) (Stop CompactionError)

/-- A step that leaves the directory alone. -/
def inMemory {α : Type} (x : CompactM α) : FiledM α := beside (attempt x)

namespace Filed

/-- `remove_file` of the tables' files, which are there. -/
def removeTables : List Table → FiledM Unit
  | [] => return ()
  | table :: tables => do
    onFiles (List.filter (·.path ≠ table.sst.path))
    removeTables tables

def writeChunks (p : Platform) (env : Env) (left : Option Nat) (nextLevel : Nat) :
    List (List Tick) → FiledM Unit
  | [] => return ()
  | chunk :: rest => do
    let nanos ← inMemory (now env)
    let m ← inMemory current
    let table ← writeTableFile p env left .ssTable (tableName nextLevel nanos) chunk nextLevel
      m.symbolDict
    inMemory (update (addTable nextLevel table))
    writeChunks p env left nextLevel rest

def compactLevel (p : Platform) (env : Env) (left : Option Nat) (levelIdx : Nat) : FiledM Unit := do
  let m ← inMemory current
  match m.levels[levelIdx]? with
  | none => throw .panic
  | some level =>
    if level.tables = [] then return ()
    else do
      let allTicks ← inMemory (readTables env level.tables)
      removeTables level.tables
      inMemory (update (clearLevel levelIdx))
      let merged := mergeRows Tick.key allTicks
      inMemory (update (ensureLevel (levelIdx + 1)))
      writeChunks p env left (levelIdx + 1) (chunks CHUNK_SIZE merged)

def compactDeeper (p : Platform) (env : Env) (left : Option Nat) (i : Nat) : FiledM Unit := do
  let m ← inMemory current
  match targetSize i, m.levels[i]? with
  | some target, some level =>
    if level.totalSize > target then compactLevel p env left i
    else return ()
  | _, _ => throw .panic

def compactFirst (p : Platform) (env : Env) (left : Option Nat) : FiledM Unit := do
  let m ← inMemory current
  match m.levels with
  | [] => throw .panic
  | l0 :: _ =>
    if l0.tables.length ≥ L0_MAX_TABLES then compactLevel p env left 0
    else return ()

/-- `compact` with its effects on the directory; a write that fails leaves `left` bytes. -/
def compact (p : Platform) (env : Env) (left : Option Nat) : FiledM Unit := do
  let m ← inMemory current
  match m.needsCompaction with
  | none => throw .panic
  | some false => return ()
  | some true => do
    compactFirst p env left
    let m ← inMemory current
    forM (List.range' 1 (m.levels.length - 1)) (compactDeeper p env left)

end Filed

section Refinement

variable {α β : Type}

/-- Apart from the files the first program is the second one. -/
def Files (x' : FiledM α) (x : CompactM α) : Prop := Refines x' (attempt x)

theorem files_inMemory (x : CompactM α) : Files (inMemory x) x := refines_beside (attempt x)

theorem files_pure (a : α) : Files (pure a) (pure a) := fun _ _ files => ⟨files, rfl⟩

theorem files_throw (e : Stop CompactionError) : Files (throw e : FiledM α) (throw e) :=
  fun _ _ files => ⟨files, rfl⟩

theorem Files.exec {x' : FiledM α} {x : CompactM α} (h : Files x' x) (held : Held Lock)
    (st : CompactionManager × Nat) (files : List TableFile) :
    ∃ files', exec x' held (st, files) = .finished (x st).1 held ((x st).2, files') := by
  obtain ⟨files', hexec⟩ := h held st files
  exact ⟨files', hexec⟩

theorem Files.bind {x' : FiledM α} {x : CompactM α} {f' : α → FiledM β} {f : α → CompactM β}
    (hx : Files x' x) (hf : ∀ a, Files (f' a) (f a)) : Files (x' >>= f') (x >>= f) := by
  intro held st files
  obtain ⟨files₁, h⟩ := hx.exec held st files
  rw [exec_bind, h, exec_attempt, DiskM.bind_apply]
  cases hst : x st with
  | mk r st₁ =>
    cases r with
    | error e => exact ⟨files₁, rfl⟩
    | ok a => exact hf a held st₁ files₁

/-- A step on the files alone. -/
theorem Files.onFiles_bind {f : List TableFile → List TableFile} {f' : Unit → FiledM α}
    {x : CompactM α} (h : Files (f' ()) x) : Files (onFiles f >>= f') x :=
  fun held st files => h held st (f files)

theorem files_removeTables_bind (tables : List Table) {f' : Unit → FiledM α} {x : CompactM α}
    (h : Files (f' ()) x) : Files (Filed.removeTables tables >>= f') x := by
  induction tables with
  | nil => exact h
  | cons t tables ih =>
    intro held st files
    obtain ⟨files', hexec⟩ := ih held st (files.filter (·.path ≠ t.sst.path))
    exact ⟨files', hexec⟩

variable (p : Platform) (env : Env) (left : Option Nat)

theorem files_writeChunks (level : Nat) (parts : List (List Tick)) :
    Files (Filed.writeChunks p env left level parts) (writeChunks p env level parts) := by
  induction parts with
  | nil => exact files_pure ()
  | cons chunk parts ih =>
    refine (files_inMemory _).bind fun nanos => (files_inMemory _).bind fun m => ?_
    refine Files.bind (refines_writeTableFile p env left _ _ _ _ _) fun table => ?_
    exact (files_inMemory _).bind fun _ => ih

theorem files_compactLevel (i : Nat) :
    Files (Filed.compactLevel p env left i) (compactLevel p env i) := by
  refine (files_inMemory current).bind fun m => ?_
  cases m.levels[i]? with
  | none => exact files_throw _
  | some level =>
    dsimp only
    split_ifs
    · exact files_pure ()
    · refine (files_inMemory _).bind fun ticks => files_removeTables_bind _ ?_
      refine (files_inMemory _).bind fun _ => (files_inMemory _).bind fun _ => ?_
      exact files_writeChunks p env left _ _

theorem files_compactDeeper (i : Nat) :
    Files (Filed.compactDeeper p env left i) (compactDeeper p env i) := by
  refine (files_inMemory current).bind fun m => ?_
  cases targetSize i with
  | none => exact files_throw _
  | some target =>
    cases m.levels[i]? with
    | none => exact files_throw _
    | some level =>
      dsimp only
      split_ifs
      · exact files_compactLevel p env left i
      · exact files_pure ()

theorem files_compactFirst : Files (Filed.compactFirst p env left) (compactFirst p env) := by
  refine (files_inMemory current).bind fun m => ?_
  cases m.levels with
  | nil => exact files_throw _
  | cons l0 deeper =>
    dsimp only
    split_ifs
    · exact files_compactLevel p env left 0
    · exact files_pure ()

theorem files_forM {is : List Nat} {f' : Nat → FiledM Unit} {f : Nat → CompactM Unit}
    (h : ∀ i, Files (f' i) (f i)) : Files (forM is f') (forM is f) := by
  induction is with
  | nil => exact files_pure ()
  | cons i is ih =>
    rw [List.forM_cons, List.forM_cons]
    exact (h i).bind fun _ => ih

/-- The files stand beside the compaction and change nothing in it. -/
theorem files_compact : Files (Filed.compact p env left) (compact p env) := by
  refine (files_inMemory current).bind fun m => ?_
  cases m.needsCompaction with
  | none => exact files_throw _
  | some needed =>
    cases needed with
    | false => exact files_pure ()
    | true =>
      refine (files_compactFirst p env left).bind fun _ => (files_inMemory _).bind fun m' => ?_
      exact files_forM (files_compactDeeper p env left)

end Refinement

section Keys

/-- The keys of the registered tables. -/
def keys (m : CompactionManager) : List Key := m.registered.flatMap fun t => t.rows.map Tick.key

/-- The keys of the files that are complete. -/
def storedKeys (files : List TableFile) : List Key :=
  files.flatMap fun f =>
    match f with
    | .complete t => t.rows.map Tick.key
    | .cut _ _ => []

variable {m : CompactionManager} {files : List TableFile} {k : Key}

theorem mem_keys : k ∈ m.keys ↔ ∃ t ∈ m.registered, k ∈ t.rows.map Tick.key := List.mem_flatMap

theorem mem_storedKeys :
    k ∈ storedKeys files ↔ ∃ t, TableFile.complete t ∈ files ∧ k ∈ t.rows.map Tick.key := by
  rw [storedKeys, List.mem_flatMap]
  constructor
  · rintro ⟨f, hf, hk⟩
    cases f with
    | complete t => exact ⟨t, hf, hk⟩
    | cut path bytes => cases hk
  · rintro ⟨t, ht, hk⟩
    exact ⟨.complete t, ht, hk⟩

/-- What lies on the levels beside this one. -/
def elsewhere (m : CompactionManager) (i : Nat) : List Table :=
  (m.levels.take i).flatMap Level.tables ++ (m.levels.drop (i + 1)).flatMap Level.tables

theorem flatMap_modify_perm {levels : List Level} {i : Nat} {level : Level}
    (h : levels[i]? = some level) (f : Level → Level) :
    ((levels.modify i f).flatMap Level.tables).Perm ((f level).tables ++
      ((levels.take i).flatMap Level.tables ++ (levels.drop (i + 1)).flatMap Level.tables)) := by
  obtain ⟨hi, rfl⟩ := List.getElem?_eq_some_iff.mp h
  rw [List.modify_eq_take_cons_drop hi, List.flatMap_append, List.flatMap_cons]
  exact List.perm_append_comm_assoc _ _ _

theorem registered_perm {i : Nat} {level : Level} (h : m.levels[i]? = some level) :
    m.registered.Perm (level.tables ++ m.elsewhere i) := by
  have hperm := flatMap_modify_perm h id
  rwa [List.modify_id] at hperm

theorem registered_clearLevel_perm {i : Nat} {level : Level} (h : m.levels[i]? = some level) :
    (m.clearLevel i).registered.Perm (m.elsewhere i) :=
  flatMap_modify_perm h fun l => { l with tables := [] }

theorem registered_addTable_perm {i : Nat} (hi : i < m.levels.length) (t : Table) :
    (m.addTable i t).registered.Perm (t :: m.registered) := by
  have h : m.levels[i]? = some m.levels[i] := List.getElem?_eq_getElem hi
  have hadded := flatMap_modify_perm h (·.addTable t)
  have hcons : (m.levels[i].tables ++ [t] ++ m.elsewhere i).Perm
      (t :: (m.levels[i].tables ++ m.elsewhere i)) := by
    rw [List.append_assoc]
    exact List.perm_middle
  exact (hadded.trans hcons).trans ((registered_perm h).symm.cons t)

theorem registered_ensureLevel (i : Nat) : (m.ensureLevel i).registered = m.registered := by
  unfold ensureLevel
  split_ifs
  · rw [registered, List.flatMap_append]
    exact List.append_nil _
  · rfl

end Keys

section Stages

/-- The directory has the files of the registered tables, one for each. -/
structure OnDisk (m : CompactionManager) (files : List TableFile) : Prop where
  complete : ∀ t ∈ m.registered, TableFile.complete t ∈ files
  registered : ∀ f ∈ files, ∃ t ∈ m.registered, f = .complete t
  distinct : m.DistinctPaths

/-- No clock reading from this moment on repeats another one or has named a registered table. -/
structure NewNames (env : Env) (m : CompactionManager) (time : Nat) : Prop where
  unused : ∀ t ∈ m.registered, ∀ n, time ≤ n → ∀ level, t.sst.path ≠ tableName level (env.now n)
  distinct : ∀ a b, time ≤ a → a < b → env.now a ≠ env.now b

/-- The keys are in the directory and in the registered tables. -/
structure Kept (K : List Key) (st : (CompactionManager × Nat) × List TableFile) : Prop where
  stored : ∀ k ∈ K, k ∈ storedKeys st.2
  registered : ∀ k ∈ K, k ∈ st.1.1.keys

/-- A state before a level is looked at, with these keys. -/
structure Ready (K : List Key) (env : Env) (m : CompactionManager) (time : Nat)
    (files : List TableFile) : Prop where
  onDisk : OnDisk m files
  newNames : NewNames env m time
  keys : ∀ k, k ∈ m.keys ↔ k ∈ K

variable {K : List Key} {p : Platform} {env : Env} {left : Option Nat} {m : CompactionManager}
  {time : Nat} {files : List TableFile}

theorem NewNames.mono (h : NewNames env m time) {m' : CompactionManager} {time' : Nat}
    (hsub : ∀ t ∈ m'.registered, t ∈ m.registered) (htime : time ≤ time') :
    NewNames env m' time' where
  unused t ht n hn := h.unused t (hsub t ht) n (htime.trans hn)
  distinct a b ha := h.distinct a b (htime.trans ha)

/-- The tables with the keys are still there. -/
theorem kept_of_complete (hcomplete : ∀ t ∈ m.registered, TableFile.complete t ∈ files)
    (hkeys : ∀ k ∈ K, k ∈ m.keys) : Kept K ((m, time), files) where
  stored k hk := by
    obtain ⟨t, ht, hkt⟩ := mem_keys.mp (hkeys k hk)
    exact mem_storedKeys.mpr ⟨t, hcomplete t ht, hkt⟩
  registered := hkeys

theorem Ready.kept (h : Ready K env m time files) : Kept K ((m, time), files) :=
  kept_of_complete h.onDisk.complete fun k => (h.keys k).mpr

theorem through_inMemory {α : Type} {good : (CompactionManager × Nat) × List TableFile → Prop}
    {post : Except (Stop CompactionError) α → (CompactionManager × Nat) × List TableFile → Prop}
    {x : CompactM α} {st : (CompactionManager × Nat) × List TableFile} (hst : good st)
    (hx : good ((x st.1).2, st.2)) (h : post (x st.1).1 ((x st.1).2, st.2)) :
    ThroughOp good post (inMemory x) st :=
  ⟨hst, hx, h⟩

/-- A new file takes no other one's place. -/
theorem complete_mem_put (h : OnDisk m files) {f : TableFile}
    (hnew : ∀ t ∈ m.registered, t.sst.path ≠ f.path) :
    ∀ t ∈ m.registered, TableFile.complete t ∈ f.put files :=
  fun t ht => TableFile.mem_put.mpr (Or.inl ⟨h.complete t ht, hnew t ht⟩)

theorem mem_registered_addTable_iff {level : Nat} (hlevel : level < m.levels.length) {t u : Table} :
    u ∈ (m.addTable level t).registered ↔ u = t ∨ u ∈ m.registered := by
  rw [(registered_addTable_perm hlevel t).mem_iff, List.mem_cons]

theorem OnDisk.addTable (h : OnDisk m files) {level : Nat} (hlevel : level < m.levels.length)
    {t : Table} (hnew : ∀ u ∈ m.registered, u.sst.path ≠ t.sst.path) :
    OnDisk (m.addTable level t) ((TableFile.complete t).put files) where
  complete u hu := by
    rcases (mem_registered_addTable_iff hlevel).mp hu with rfl | hu
    · exact TableFile.mem_put.mpr (Or.inr rfl)
    · exact complete_mem_put h (f := .complete t) hnew u hu
  registered f hf := by
    rcases TableFile.mem_put.mp hf with ⟨hf, -⟩ | rfl
    · obtain ⟨u, hu, rfl⟩ := h.registered f hf
      exact ⟨u, (mem_registered_addTable_iff hlevel).mpr (Or.inr hu), rfl⟩
    · exact ⟨t, (mem_registered_addTable_iff hlevel).mpr (Or.inl rfl), rfl⟩
  distinct := by
    have hpaths := (registered_addTable_perm hlevel t).map fun u => u.sst.path
    refine hpaths.nodup_iff.mpr (List.nodup_cons.mpr ⟨fun hmem => ?_, h.distinct⟩)
    obtain ⟨u, hu, hsame⟩ := List.mem_map.mp hmem
    exact hnew u hu hsame

theorem NewNames.addTable (h : NewNames env m time) {level : Nat} (hlevel : level < m.levels.length)
    {t : Table} (hpath : t.sst.path = tableName level (env.now time)) {time' : Nat}
    (htime : time < time') : NewNames env (m.addTable level t) time' where
  unused u hu n hn level' := by
    rcases (mem_registered_addTable_iff hlevel).mp hu with rfl | hu
    · rw [hpath]
      intro hsame
      exact h.distinct time n le_rfl (htime.trans_le hn) (tableName_inj.mp hsame).2
    · exact h.unused u hu n (htime.le.trans hn) level'
  distinct a b ha := h.distinct a b (htime.le.trans ha)

/-- The table that has been written is registered. -/
theorem Ready.addTable (h : Ready K env m time files) {level : Nat}
    (hlevel : level < m.levels.length) {t : Table}
    (hpath : t.sst.path = tableName level (env.now time))
    (hrows : ∀ x ∈ t.rows, x.key ∈ K) {time' : Nat} (htime : time < time') :
    Ready K env (m.addTable level t) time' ((TableFile.complete t).put files) where
  onDisk := h.onDisk.addTable hlevel (hpath ▸ fun u hu => h.newNames.unused u hu time le_rfl level)
  newNames := h.newNames.addTable hlevel hpath htime
  keys k := by
    rw [← h.keys k, mem_keys, mem_keys]
    constructor
    · rintro ⟨u, hu, hk⟩
      rcases (mem_registered_addTable_iff hlevel).mp hu with rfl | hu
      · obtain ⟨x, hx, rfl⟩ := List.mem_map.mp hk
        exact mem_keys.mp ((h.keys _).mpr (hrows x hx))
      · exact ⟨u, hu, hk⟩
    · rintro ⟨u, hu, hk⟩
      exact ⟨u, (mem_registered_addTable_iff hlevel).mpr (Or.inr hu), hk⟩

theorem Ready.later (h : Ready K env m time files) {time' : Nat} (htime : time ≤ time') :
    Ready K env m time' files :=
  ⟨h.onDisk, h.newNames.mono (fun _ => id) htime, h.keys⟩

theorem Ready.congr (h : Ready K env m time files) {m' : CompactionManager}
    (hsame : m'.registered = m.registered) : Ready K env m' time files where
  onDisk := ⟨hsame ▸ h.onDisk.complete, hsame ▸ h.onDisk.registered, by
    rw [DistinctPaths, hsame]
    exact h.onDisk.distinct⟩
  newNames := h.newNames.mono (fun t ht => hsame ▸ ht) le_rfl
  keys k := by
    rw [CompactionManager.keys, hsame]
    exact h.keys k

/-- Writing the chunks loses nothing. -/
theorem through_writeChunks {level : Nat} (hlevel : level < m.levels.length)
    (parts : List (List Tick)) (hparts : ∀ chunk ∈ parts, ∀ x ∈ chunk, x.key ∈ K)
    (h : Ready K env m time files) :
    ThroughOp (Kept K) (fun r st => r = .ok () → Ready K env st.1.1 st.1.2 st.2)
      (Filed.writeChunks p env left level parts) ((m, time), files) := by
  induction parts generalizing m time files with
  | nil => exact through_pure h.kept fun _ => h
  | cons chunk parts ih =>
    have hnext := (h.later (Nat.le_succ time)).kept
    have hwritten := (h.later (Nat.le_add_right time 2)).kept
    refine through_bind (through_inMemory h.kept hnext ?_)
    refine through_bind (through_inMemory hnext hnext ?_)
    have hput (f : TableFile) (hpath : f.path = tableName level (env.now time)) :
        Kept K ((m, time + 1 + 1), f.put files) := by
      refine kept_of_complete (complete_mem_put h.onDisk fun t ht => ?_) hwritten.registered
      rw [hpath]
      exact h.newNames.unused t ht time le_rfl level
    refine through_bind (Through.mono ?_ (through_writeTableFile p env left _ level _ hnext hwritten
      (fun bytes => hput _ rfl) fun t file _ hsst => hput _ (SsTable.path_of_write hsst)))
    rintro r st hst (⟨e, rfl⟩ | ⟨t, rfl, hrows, hpath, rfl⟩)
    · exact fun hok => by cases hok
    · have hadded : Ready K env (m.addTable level t) (time + 1 + 1)
          ((TableFile.complete t).put files) :=
        h.addTable hlevel hpath (hrows ▸ hparts chunk List.mem_cons_self) (by omega)
      refine through_bind (through_inMemory hst hadded.kept ?_)
      refine ih ?_ (fun c hc => hparts c (List.mem_cons_of_mem _ hc)) hadded
      rwa [CompactionManager.addTable, List.length_modify]

/-- What is left when the files of these tables are removed. -/
def remaining (tables : List Table) (files : List TableFile) : List TableFile :=
  files.filter fun f => tables.all fun t => f.path ≠ t.sst.path

theorem mem_remaining {tables : List Table} {f : TableFile} :
    f ∈ remaining tables files ↔ f ∈ files ∧ ∀ t ∈ tables, f.path ≠ t.sst.path := by
  simp [remaining]

theorem remaining_cons (t : Table) (tables : List Table) :
    remaining tables (files.filter (·.path ≠ t.sst.path)) = remaining (t :: tables) files := by
  simp [remaining, List.filter_filter, Bool.and_comm]

theorem exec_removeTables (tables : List Table) (held : Held Lock) (st : CompactionManager × Nat) :
    exec (Filed.removeTables tables) held (st, files) =
      .finished (.ok ()) held (st, remaining tables files) := by
  induction tables generalizing files with
  | nil => simp [Filed.removeTables, remaining]
  | cons t tables ih =>
    rw [Filed.removeTables, exec_bind_ok (exec_onFiles _ _ _), ih, remaining_cons]

theorem through_removeTables {good : (CompactionManager × Nat) × List TableFile → Prop}
    {tables : List Table} {st : CompactionManager × Nat}
    (h : ∀ files', (∀ f ∈ remaining tables files, f ∈ files') → good (st, files')) :
    ThroughOp good (fun r st' => r = .ok () ∧ st' = (st, remaining tables files))
      (Filed.removeTables tables) (st, files) := by
  induction tables generalizing files with
  | nil =>
    have hall : remaining [] files = files := by simp [remaining]
    rw [hall] at h ⊢
    exact through_pure (h files fun _ => id) ⟨rfl, rfl⟩
  | cons t tables ih =>
    rw [← remaining_cons] at h ⊢
    have hnow : good (st, files) := h files fun f hf =>
      (List.mem_filter.mp (mem_remaining.mp hf).1).1
    have hnext : good (st, files.filter (·.path ≠ t.sst.path)) := h _ fun f hf =>
      (mem_remaining.mp hf).1
    exact through_bind (through_attempt hnow hnext (ih h))

theorem fileOp_eq {σ ε : Type} (env : Env) (e : ε) (s : σ) (time : Nat) :
    (env.io time = true ∧ fileOp env e (s, time) = (.ok (), (s, time + 1))) ∨
      (env.io time = false ∧ fileOp env e (s, time) = (.error (.error e), (s, time + 1))) := by
  rw [fileOp]
  cases env.io time with
  | true => exact Or.inl ⟨rfl, rfl⟩
  | false => exact Or.inr ⟨rfl, rfl⟩

/-- Every table is opened twice; the first open that fails ends the reading. -/
theorem readTables_cases (env : Env) (tables : List Table) (m : CompactionManager) (time : Nat) :
    (∃ m', readTables env tables (m, time) =
        (.ok (tables.flatMap Table.rows), (m', time + 2 * tables.length)) ∧
      m'.levels = m.levels ∧ ∀ j < 2 * tables.length, env.io (time + j) = true) ∨
    ∃ e m' time', readTables env tables (m, time) = (.error e, (m', time')) ∧
      m'.levels = m.levels ∧ ∃ j < 2 * tables.length, env.io (time + j) = false := by
  induction tables generalizing m time with
  | nil => exact Or.inl ⟨m, rfl, rfl, fun j hj => absurd hj (Nat.not_lt_zero j)⟩
  | cons t tables ih =>
    have hlength : 2 * (t :: tables).length = 2 * tables.length + 2 := by
      rw [List.length_cons, Nat.mul_succ]
    rw [readTables, hlength]
    rcases fileOp_eq env (CompactionError.ssTable .io) m time with ⟨hio, hop⟩ | ⟨hio, hop⟩
    · rw [DiskM.bind_ok hop, DiskM.update_bind]
      rcases fileOp_eq env (CompactionError.ssTable .io) (m.counted t) (time + 1) with
        ⟨hio', hop'⟩ | ⟨hio', hop'⟩
      · rcases ih (m.counted t) (time + 1 + 1) with
          ⟨m', hread, hlevels, hall⟩ | ⟨e, m', time', hread, hlevels, j, hj, hfails⟩
        · refine Or.inl ⟨m', ?_, hlevels, fun j hj => ?_⟩
          · change (fileOp env _ >>= _) (m.counted t, time + 1) = _
            have hsum : time + 1 + 1 + 2 * tables.length = time + (2 * tables.length + 2) := by
              omega
            rw [DiskM.bind_ok hop', DiskM.bind_ok hread, Table.scan_all, List.flatMap_cons, hsum]
            rfl
          · match j with
            | 0 => exact hio
            | 1 => exact hio'
            | j + 2 =>
              have hrest := hall j (by omega)
              rwa [Nat.add_assoc time 1 1, Nat.add_assoc, Nat.add_comm (1 + 1)] at hrest
        · refine Or.inr ⟨e, m', time', ?_, hlevels, j + 2, by omega, ?_⟩
          · change (fileOp env _ >>= _) (m.counted t, time + 1) = _
            rw [DiskM.bind_ok hop', DiskM.bind_error hread]
          · rwa [Nat.add_assoc time 1 1, Nat.add_assoc, Nat.add_comm (1 + 1)] at hfails
      · exact Or.inr ⟨.error (.ssTable .io), m.counted t, time + 1 + 1, DiskM.bind_error hop' _,
          rfl, 1, by omega, hio'⟩
    · exact Or.inr ⟨.error (.ssTable .io), m, time + 1, DiskM.bind_error hop _, rfl, 0, by omega,
        hio⟩

/-- The other levels have the keys of this one. -/
def Redundant (m : CompactionManager) (i : Nat) : Prop :=
  ∀ t ∈ m.tablesAt i, ∀ x ∈ t.rows, x.key ∈ (m.clearLevel i).keys

/-- Merging the level is harmless: it has no tables, or one of them cannot be opened, or the
other levels have its keys too. -/
def Harmless (env : Env) (i : Nat) (m : CompactionManager) (time : Nat) : Prop :=
  m.tablesAt i = [] ∨ (∃ j < 2 * (m.tablesAt i).length, env.io (time + j) = false) ∨ m.Redundant i

instance (m : CompactionManager) (i : Nat) : Decidable (m.Redundant i) :=
  inferInstanceAs (Decidable (∀ t ∈ m.tablesAt i, ∀ x ∈ t.rows, x.key ∈ (m.clearLevel i).keys))

instance (env : Env) (i : Nat) (m : CompactionManager) (time : Nat) :
    Decidable (Harmless env i m time) :=
  inferInstanceAs (Decidable (_ ∨ _ ∨ _))

theorem mem_clearLevel_iff {i : Nat} {level : Level} (hlevel : m.levels[i]? = some level)
    (hdistinct : m.DistinctPaths) {t : Table} :
    t ∈ (m.clearLevel i).registered ↔
      t ∈ m.registered ∧ ∀ u ∈ level.tables, t.sst.path ≠ u.sst.path := by
  have hperm := registered_perm hlevel
  have hnodup : (m.registered.map fun t => t.sst.path).Nodup := hdistinct
  have hsplit : ((level.tables ++ m.elsewhere i).map fun t => t.sst.path).Nodup :=
    (hperm.map fun t => t.sst.path).nodup_iff.mp hnodup
  have hpaths : (level.tables ++ m.elsewhere i).Pairwise fun u t => u.sst.path ≠ t.sst.path :=
    List.pairwise_map.mp hsplit
  rw [(registered_clearLevel_perm hlevel).mem_iff, hperm.mem_iff, List.mem_append]
  constructor
  · intro ht
    exact ⟨Or.inr ht, fun u hu => ((List.pairwise_append.mp hpaths).2.2 u hu t ht).symm⟩
  · rintro ⟨ht | ht, hother⟩
    · exact absurd rfl (hother t ht)
    · exact ht

theorem OnDisk.removed (h : OnDisk m files) {i : Nat} {level : Level}
    (hlevel : m.levels[i]? = some level) :
    OnDisk (m.clearLevel i) (remaining level.tables files) where
  complete t ht := by
    obtain ⟨ht, hother⟩ := (mem_clearLevel_iff hlevel h.distinct).mp ht
    exact mem_remaining.mpr ⟨h.complete t ht, hother⟩
  registered f hf := by
    obtain ⟨hf, hother⟩ := mem_remaining.mp hf
    obtain ⟨t, ht, rfl⟩ := h.registered f hf
    exact ⟨t, (mem_clearLevel_iff hlevel h.distinct).mpr ⟨ht, hother⟩, rfl⟩
  distinct := by
    have hbeside := (registered_clearLevel_perm hlevel).map fun t => t.sst.path
    have hall := (registered_perm hlevel).map fun t => t.sst.path
    refine hbeside.nodup_iff.mpr ((hall.nodup_iff.mp h.distinct).sublist ?_)
    exact (List.sublist_append_right _ _).map _

theorem keys_congr {m m' : CompactionManager} (h : m'.levels = m.levels) : m'.keys = m.keys := by
  rw [keys, keys, registered, registered, h]

/-- The keys of a level that the others have too are there without it. -/
theorem Redundant.keys_clearLevel {i : Nat} {level : Level} (h : m.Redundant i)
    (hlevel : m.levels[i]? = some level) (k : Key) : k ∈ (m.clearLevel i).keys ↔ k ∈ m.keys := by
  have hperm := registered_perm hlevel
  have hclear := registered_clearLevel_perm hlevel
  have htables : m.tablesAt i = level.tables := by
    rw [tablesAt, hlevel]
    rfl
  constructor
  · intro hk
    obtain ⟨t, ht, hkt⟩ := mem_keys.mp hk
    exact mem_keys.mpr ⟨t, hperm.mem_iff.mpr (List.mem_append_right _ (hclear.mem_iff.mp ht)), hkt⟩
  · intro hk
    obtain ⟨t, ht, hkt⟩ := mem_keys.mp hk
    rcases List.mem_append.mp (hperm.mem_iff.mp ht) with ht | ht
    · obtain ⟨x, hx, rfl⟩ := List.mem_map.mp hkt
      exact h t (htables ▸ ht) x hx
    · exact mem_keys.mpr ⟨t, hclear.mem_iff.mpr ht, hkt⟩

/-- The rows of the chunks are rows of the level. -/
theorem key_of_mem_chunks {tables : List Table} {chunk : List Tick}
    (h : chunk ∈ chunks CHUNK_SIZE (mergeRows Tick.key (tables.flatMap Table.rows))) {x : Tick}
    (hx : x ∈ chunk) : ∃ t ∈ tables, x.key ∈ t.rows.map Tick.key := by
  have hmerged : x ∈ mergeRows Tick.key (tables.flatMap Table.rows) := by
    have hflat := List.mem_flatten.mpr ⟨chunk, h, hx⟩
    rwa [flatten_chunks (by decide)] at hflat
  obtain ⟨y, hy, hkey⟩ := List.mem_map.mp
    ((mem_keys_mergeRows Tick.key _ x.key).mp (List.mem_map_of_mem hmerged))
  obtain ⟨t, ht, hyt⟩ := List.mem_flatMap.mp hy
  exact ⟨t, ht, hkey ▸ List.mem_map_of_mem hyt⟩

/-- The level's tables and files are gone, and nothing is lost. -/
theorem Ready.removed (h : Ready K env m time files) {i : Nat} {level : Level}
    (hlevel : m.levels[i]? = some level) (hredundant : m.Redundant i) {time' : Nat}
    (htime : time ≤ time') :
    Ready K env (m.clearLevel i) time' (remaining level.tables files) where
  onDisk := h.onDisk.removed hlevel
  newNames := h.newNames.mono
    (fun _ ht => ((mem_clearLevel_iff hlevel h.onDisk.distinct).mp ht).1) htime
  keys k := (hredundant.keys_clearLevel hlevel k).trans (h.keys k)

theorem through_compactLevel {i : Nat} (h : Ready K env m time files)
    (hharmless : Harmless env i m time) :
    ThroughOp (Kept K) (fun r st => r = .ok () → Ready K env st.1.1 st.1.2 st.2)
      (Filed.compactLevel p env left i) ((m, time), files) := by
  have hcurrent : (current : CompactM _) (m, time) = (.ok m, (m, time)) := rfl
  refine through_bind (through_inMemory h.kept h.kept ?_)
  rw [hcurrent]
  dsimp only
  cases hlevel : m.levels[i]? with
  | none => exact through_throw h.kept fun hok => by cases hok
  | some level =>
    have htables : m.tablesAt i = level.tables := by
      rw [tablesAt, hlevel]
      rfl
    dsimp only
    split_ifs with hnil
    · exact through_pure h.kept fun _ => h
    have hmoved {m' : CompactionManager} (hlevels : m'.levels = m.levels) (time' : Nat) :
        Kept K ((m', time'), files) := by
      refine kept_of_complete (fun t ht => h.onDisk.complete t ?_) fun k hk => ?_
      · rwa [registered, hlevels] at ht
      · exact keys_congr hlevels ▸ (h.keys k).mpr hk
    rcases readTables_cases env level.tables m time with
      ⟨m', hread, hlevels, hall⟩ | ⟨e, m', time', hread, hlevels, -⟩
    · have hredundant : m.Redundant i := by
        rcases hharmless with hempty | ⟨j, hj, hfails⟩ | hredundant
        · exact absurd (htables.symm.trans hempty) hnil
        · exact absurd (hall j (htables ▸ hj)) (by rw [hfails]; exact Bool.false_ne_true)
        · exact hredundant
      have hgone : Ready K env (m.clearLevel i) (time + 2 * level.tables.length)
          (remaining level.tables files) := h.removed hlevel hredundant (Nat.le_add_right _ _)
      have hcleared : (m'.clearLevel i).registered = (m.clearLevel i).registered := by
        rw [registered, clearLevel, hlevels]
        rfl
      have hensured := hgone.congr ((registered_ensureLevel (i + 1)).trans hcleared)
      refine through_bind (through_inMemory h.kept ?_ ?_)
      · rw [hread]
        exact hmoved hlevels _
      rw [hread]
      dsimp only
      refine through_bind (Through.mono ?_ (through_removeTables fun files' hfiles' => ?_))
      · rintro r st hst ⟨rfl, rfl⟩
        refine through_bind (through_inMemory hst (hgone.congr hcleared).kept ?_)
        refine through_bind (through_inMemory (hgone.congr hcleared).kept hensured.kept ?_)
        refine through_writeChunks ?_ _ (fun chunk hchunk x hx => ?_) hensured
        · exact (length_ensureLevel_clearLevel m' i
            (hlevels ▸ (List.getElem?_eq_some_iff.mp hlevel).1)).1
        · obtain ⟨t, ht, hk⟩ := key_of_mem_chunks hchunk hx
          have hregistered := (registered_perm hlevel).mem_iff.mpr (List.mem_append_left _ ht)
          exact (h.keys _).mp (mem_keys.mpr ⟨t, hregistered, hk⟩)
      · refine ⟨fun k hk => ?_, (hmoved hlevels _).registered⟩
        obtain ⟨t, ht, hkt⟩ := mem_keys.mp ((hgone.keys k).mpr hk)
        exact mem_storedKeys.mpr ⟨t, hfiles' _ (hgone.onDisk.complete t ht), hkt⟩
    · refine through_bind (through_inMemory h.kept ?_ ?_)
      · rw [hread]
        exact hmoved hlevels time'
      · rw [hread]
        exact fun hok => by cases hok

/-- Otherwise a key is nowhere once the level's files are removed. -/
theorem exists_lost (p : Platform) (left : Option Nat) {i : Nat} (h : Ready K env m time files)
    (hharmful : ¬ Harmless env i m time) (held : Held Lock) :
    ∃ st ∈ stages (Filed.compactLevel p env left i) held ((m, time), files),
      ∃ k ∈ K, k ∉ storedKeys st.2 := by
  obtain ⟨hne, hharmful⟩ := not_or.mp hharmful
  obtain ⟨hopens, hneeded⟩ := not_or.mp hharmful
  have hcurrent : exec (inMemory current) held ((m, time), files) =
      .finished (.ok m) held ((m, time), files) := rfl
  cases hlevel : m.levels[i]? with
  | none => exact absurd (by rw [tablesAt, hlevel]; rfl) hne
  | some level =>
    have htables : m.tablesAt i = level.tables := by
      rw [tablesAt, hlevel]
      rfl
    rcases readTables_cases env level.tables m time with
      ⟨m', hread, -, -⟩ | ⟨-, -, -, -, -, j, hj, hfails⟩
    · have hreading : exec (inMemory (readTables env level.tables)) held ((m, time), files) =
          .finished (.ok (level.tables.flatMap Table.rows)) held
            ((m', time + 2 * level.tables.length), files) := by
        rw [inMemory, exec_beside, exec_attempt, hread]
        rfl
      refine ⟨((m', time + 2 * level.tables.length), remaining level.tables files), ?_, ?_⟩
      · refine mem_stages_bind_ok hcurrent ?_
        rw [hlevel]
        dsimp only
        rw [if_neg (htables ▸ hne)]
        refine mem_stages_bind_ok hreading (mem_stages_bind ?_ _)
        have hlast := Prog.state_mem_stages (Filed.removeTables level.tables).run held
          ((m', time + 2 * level.tables.length), files)
        have hremoved : exec (Filed.removeTables level.tables) held
          ((m', time + 2 * level.tables.length), files) = _ := exec_removeTables _ _ _
        rw [exec] at hremoved
        rwa [hremoved] at hlast
      · have hlost : ∃ t ∈ m.tablesAt i, ∃ x ∈ t.rows, x.key ∉ (m.clearLevel i).keys := by
          by_contra hall
          push Not at hall
          exact hneeded hall
        obtain ⟨t, ht, x, hx, hgone⟩ := hlost
        have hregistered := (registered_perm hlevel).mem_iff.mpr
          (List.mem_append_left _ (htables ▸ ht))
        refine ⟨x.key, (h.keys _).mp (mem_keys.mpr ⟨t, hregistered, List.mem_map_of_mem hx⟩), ?_⟩
        intro hstored
        obtain ⟨u, hu, hk⟩ := mem_storedKeys.mp hstored
        obtain ⟨v, hv, hsame⟩ := (h.onDisk.removed hlevel).registered _ hu
        cases hsame
        exact hgone (mem_keys.mpr ⟨u, hv, hk⟩)
    · exact absurd ⟨j, htables ▸ hj, hfails⟩ hopens

/-- The level is over its limit now. -/
def overTarget (m : CompactionManager) : Nat → Bool
  | 0 => L0_MAX_TABLES ≤ (m.tablesAt 0).length
  | i + 1 => (targetSize (i + 1)).any fun target => target < fileSizes (m.tablesAt (i + 1))

def mergeStep (p : Platform) (env : Env) : Nat → CompactM Unit
  | 0 => compactFirst p env
  | i + 1 => compactDeeper p env (i + 1)

def Filed.mergeStep (p : Platform) (env : Env) (left : Option Nat) : Nat → FiledM Unit
  | 0 => Filed.compactFirst p env left
  | i + 1 => Filed.compactDeeper p env left (i + 1)

theorem files_mergeStep (p : Platform) (env : Env) (left : Option Nat) (i : Nat) :
    Files (Filed.mergeStep p env left i) (mergeStep p env i) := by
  cases i with
  | zero => exact files_compactFirst p env left
  | succ i => exact files_compactDeeper p env left (i + 1)

theorem compactFirst_cases (p : Platform) (env : Env) (left : Option Nat) :
    ∃ body : CompactionManager → FiledM Unit,
      Filed.compactFirst p env left = inMemory current >>= body ∧ ∀ m,
        (m.overTarget 0 = true ∧ body m = Filed.compactLevel p env left 0) ∨
        (m.overTarget 0 = false ∧ (body m = pure () ∨ body m = throw .panic)) := by
  refine ⟨_, rfl, fun m => ?_⟩
  cases hlevels : m.levels with
  | nil =>
    have hempty : m.tablesAt 0 = [] := by
      rw [tablesAt, hlevels]
      rfl
    refine Or.inr ⟨?_, Or.inr rfl⟩
    rw [overTarget, hempty]
    rfl
  | cons l0 deeper =>
    have hzero : m.tablesAt 0 = l0.tables := by
      rw [tablesAt, hlevels]
      rfl
    rw [overTarget, hzero]
    dsimp only
    split_ifs with hfull
    · exact Or.inl ⟨decide_eq_true hfull, rfl⟩
    · exact Or.inr ⟨decide_eq_false hfull, Or.inl rfl⟩

theorem compactDeeper_cases (p : Platform) (env : Env) (left : Option Nat) (i : Nat) :
    ∃ body : CompactionManager → FiledM Unit,
      Filed.compactDeeper p env left (i + 1) = inMemory current >>= body ∧ ∀ m,
        (m.overTarget (i + 1) = true ∧ body m = Filed.compactLevel p env left (i + 1)) ∨
        (m.overTarget (i + 1) = false ∧ (body m = pure () ∨ body m = throw .panic)) := by
  refine ⟨_, rfl, fun m => ?_⟩
  rw [overTarget]
  cases targetSize (i + 1) with
  | none => exact Or.inr ⟨rfl, Or.inr rfl⟩
  | some target =>
    cases hlevel : m.levels[i + 1]? with
    | none =>
      have hempty : m.tablesAt (i + 1) = [] := by
        rw [tablesAt, hlevel]
        rfl
      refine Or.inr ⟨?_, Or.inr rfl⟩
      rw [hempty]
      exact decide_eq_false (Nat.not_lt_zero target)
    | some level =>
      rw [← totalSize_eq hlevel]
      dsimp only
      split_ifs with hsize
      · exact Or.inl ⟨decide_eq_true hsize, rfl⟩
      · exact Or.inr ⟨decide_eq_false hsize, Or.inl rfl⟩

/-- A level is merged when it is over its limit, and else nothing happens. -/
theorem mergeStep_cases (p : Platform) (env : Env) (left : Option Nat) (i : Nat) :
    ∃ body : CompactionManager → FiledM Unit,
      Filed.mergeStep p env left i = inMemory current >>= body ∧ ∀ m,
        (m.overTarget i = true ∧ body m = Filed.compactLevel p env left i) ∨
        (m.overTarget i = false ∧ (body m = pure () ∨ body m = throw .panic)) := by
  cases i with
  | zero => exact compactFirst_cases p env left
  | succ i => exact compactDeeper_cases p env left i

theorem through_mergeStep (i : Nat) (h : Ready K env m time files)
    (hharmless : m.overTarget i = true → Harmless env i m time) :
    ThroughOp (Kept K) (fun r st => r = .ok () → Ready K env st.1.1 st.1.2 st.2)
      (Filed.mergeStep p env left i) ((m, time), files) := by
  obtain ⟨body, hbody, hcases⟩ := mergeStep_cases p env left i
  rw [hbody]
  refine through_bind (through_inMemory h.kept h.kept ?_)
  change ThroughOp _ _ (body m) _
  rcases hcases m with ⟨hover, hmerge⟩ | ⟨-, hpure | hthrow⟩
  · rw [hmerge]
    exact through_compactLevel h (hharmless hover)
  · rw [hpure]
    exact through_pure h.kept fun _ => h
  · rw [hthrow]
    exact through_throw h.kept fun hok => nomatch hok

theorem exists_lost_mergeStep (p : Platform) (left : Option Nat) {i : Nat}
    (h : Ready K env m time files) (hover : m.overTarget i = true)
    (hharmful : ¬ Harmless env i m time) (held : Held Lock) :
    ∃ st ∈ stages (Filed.mergeStep p env left i) held ((m, time), files),
      ∃ k ∈ K, k ∉ storedKeys st.2 := by
  obtain ⟨body, hbody, hcases⟩ := mergeStep_cases p env left i
  have hcurrent : exec (inMemory current) held ((m, time), files) =
      .finished (.ok m) held ((m, time), files) := rfl
  rcases hcases m with ⟨-, hmerge⟩ | ⟨hunder, -⟩
  · obtain ⟨st, hst, hlost⟩ := exists_lost p left h hharmful held
    rw [hbody]
    exact ⟨st, mem_stages_bind_ok hcurrent (hmerge ▸ hst), hlost⟩
  · exact absurd hover (hunder ▸ Bool.false_ne_true)

/-- Wherever the program stops the keys are in the directory, and where it stops with an error
they are in the registered tables too. -/
structure KeepsKeys {α : Type} (K : List Key) (x : FiledM α)
    (st : (CompactionManager × Nat) × List TableFile) : Prop where
  stored : ∀ st' ∈ stages x [] st, ∀ k ∈ K, k ∈ storedKeys st'.2
  registered : ∀ e held st', exec x [] st = .finished (.error e) held st' →
    ∀ k ∈ K, k ∈ st'.1.1.keys

theorem keepsKeys_of_through {α : Type} {x : FiledM α}
    {post : Except (Stop CompactionError) α → (CompactionManager × Nat) × List TableFile → Prop}
    {st : (CompactionManager × Nat) × List TableFile} (h : ThroughOp (Kept K) post x st) :
    KeepsKeys K x st where
  stored st' hst' := (Through.mem_stages h [] st' hst').stored
  registered _ _ _ hexec := (Through.of_run h hexec).1.registered

theorem keepsKeys_bind_iff {α β : Type} {x : FiledM α} {y : CompactM α} (hx : Files x y)
    {f : α → FiledM β} {st : (CompactionManager × Nat) × List TableFile} :
    KeepsKeys K (x >>= f) st ↔ KeepsKeys K x st ∧
      ∀ a st', exec x [] st = .finished (.ok a) [] st' → KeepsKeys K (f a) st' := by
  constructor
  · intro h
    refine ⟨⟨fun st' hst' => h.stored st' (mem_stages_bind hst' f), fun e held st' hexec => ?_⟩,
      fun a st' hexec => ⟨fun st'' hst'' => ?_, fun e held st'' hexec' => ?_⟩⟩
    · refine h.registered e held st' ?_
      rw [exec_bind, hexec]
    · exact h.stored st'' (mem_stages_bind_ok hexec hst'')
    · refine h.registered e held st'' ?_
      rw [exec_bind, hexec]
      exact hexec'
  · rintro ⟨hfirst, hrest⟩
    obtain ⟨files', hexec⟩ := hx.exec [] st.1 st.2
    refine ⟨fun st' hst' => ?_, fun e held st' herror => ?_⟩
    · rcases mem_stages_bind_cases hst' with hst' | ⟨a, held, st₁, hok, hst'⟩
      · exact hfirst.stored st' hst'
      · obtain ⟨-, rfl, -⟩ := Outcome.finished.inj (hok.symm.trans hexec)
        exact (hrest a st₁ hok).stored st' hst'
    · rw [exec_bind, hexec] at herror
      cases hresult : (y st.1).1 with
      | error e' =>
        rw [hresult] at hexec herror
        cases herror
        exact hfirst.registered e [] _ hexec
      | ok a =>
        rw [hresult] at hexec herror
        exact (hrest a _ hexec).registered e held st' herror

theorem keepsKeys_current_bind_iff {α : Type} {f : CompactionManager → FiledM α}
    {st : (CompactionManager × Nat) × List TableFile} :
    KeepsKeys K (inMemory current >>= f) st ↔ KeepsKeys K (f st.1.1) st := by
  have hstages : stages (inMemory current >>= f) [] st = st :: stages (f st.1.1) [] st := rfl
  have hfirst : st ∈ stages (f st.1.1) [] st := Prog.self_mem_stages _ _ _
  constructor
  · exact fun h => ⟨fun st' hst' => h.stored st' (hstages ▸ List.mem_cons_of_mem st hst'),
      h.registered⟩
  · refine fun h => ⟨fun st' hst' => ?_, h.registered⟩
    rw [hstages] at hst'
    rcases List.mem_cons.mp hst' with rfl | hst'
    · exact h.stored st' hfirst
    · exact h.stored st' hst'

/-- Every merge of a run over these levels is harmless, as long as the ones before return. -/
def AllHarmless (p : Platform) (env : Env) : List Nat → CompactionManager × Nat → Prop
  | [], _ => True
  | i :: is, st => (st.1.overTarget i = true → Harmless env i st.1 st.2) ∧
      match mergeStep p env i st with
      | (.ok _, st') => AllHarmless p env is st'
      | (.error _, _) => True

theorem keepsKeys_forM_iff (p : Platform) (left : Option Nat) (is : List Nat)
    (h : Ready K env m time files) :
    KeepsKeys K (forM is (Filed.mergeStep p env left)) ((m, time), files) ↔
      AllHarmless p env is (m, time) := by
  induction is generalizing m time files with
  | nil =>
    have hpure : ThroughOp (Kept K) (fun _ _ => True) (pure () : FiledM Unit) ((m, time), files) :=
      through_pure h.kept trivial
    exact iff_of_true (keepsKeys_of_through hpure) trivial
  | cons i is ih =>
    rw [List.forM_cons, keepsKeys_bind_iff (files_mergeStep p env left i), AllHarmless]
    obtain ⟨files', hexec⟩ := (files_mergeStep p env left i).exec [] (m, time) files
    by_cases hharmless : m.overTarget i = true → Harmless env i m time
    · have hthrough : ThroughOp (Kept K)
          (fun r st => r = .ok () → Ready K env st.1.1 st.1.2 st.2)
          (Filed.mergeStep p env left i) ((m, time), files) := through_mergeStep i h hharmless
      refine and_congr (iff_of_true (keepsKeys_of_through hthrough) hharmless) ?_
      cases hstep : mergeStep p env i (m, time) with
      | mk r st =>
        rw [hstep] at hexec
        cases r with
        | error e => exact iff_of_true (fun a st' hok => by rw [hexec] at hok; cases hok) trivial
        | ok a =>
          have hready := (Through.of_run hthrough hexec).2 rfl
          constructor
          · exact fun hrest => (ih hready).mp (hrest () _ hexec)
          · intro hrest a st' hok
            rw [hexec] at hok
            cases hok
            exact (ih hready).mpr hrest
    · refine iff_of_false (fun hkeeps => ?_) fun hall => hharmless hall.1
      obtain ⟨hover, hharmful⟩ := Classical.not_imp.mp hharmless
      obtain ⟨st, hst, k, hk, hgone⟩ := exists_lost_mergeStep p left h hover hharmful []
      exact hgone (hkeeps.1.stored st hst k hk)

theorem forM_compactDeeper_eq (p : Platform) (env : Env) (left : Option Nat) (i count : Nat) :
    (forM (List.range' (i + 1) count) (Filed.compactDeeper p env left) : FiledM Unit) =
      forM (List.range' (i + 1) count) (Filed.mergeStep p env left) := by
  induction count generalizing i with
  | zero => rfl
  | succ count ih =>
    rw [List.range'_succ, List.forM_cons, List.forM_cons, ih]
    rfl

/-- The levels that a compaction looks at. -/
theorem keepsKeys_levels_iff (p : Platform) (left : Option Nat) (h : Ready K env m time files)
    (hpos : 0 < m.levels.length) :
    KeepsKeys K (do
        Filed.compactFirst p env left
        let m ← inMemory current
        forM (List.range' 1 (m.levels.length - 1)) (Filed.compactDeeper p env left))
      ((m, time), files) ↔ AllHarmless p env (List.range m.checkedLevels) (m, time) := by
  have hchecked : m.checkedLevels = m.checkedLevels - 1 + 1 := by
    unfold checkedLevels
    split_ifs <;> omega
  rw [hchecked, List.range_eq_range', List.range'_succ, ← keepsKeys_forM_iff p left _ h,
    List.forM_cons, keepsKeys_bind_iff (files_mergeStep p env left 0),
    keepsKeys_bind_iff (files_compactFirst p env left)]
  refine and_congr Iff.rfl (forall_congr' fun _ => forall_congr' fun st' => ?_)
  refine imp_congr_right fun hexec => ?_
  obtain ⟨files', hfiles⟩ := (files_compactFirst p env left).exec [] (m, time) files
  obtain ⟨hok, -, rfl⟩ := Outcome.finished.inj (hexec.symm.trans hfiles)
  have hfirst : compactFirst p env (m, time) = (.ok (), (compactFirst p env (m, time)).2) :=
    Prod.ext hok.symm rfl
  have hlength := (compactFirst_eq_ok hfirst).2.1
  rw [keepsKeys_current_bind_iff, hlength]
  exact iff_of_eq (congrArg (fun x => KeepsKeys K x _) (forM_compactDeeper_eq p env left 0 _))

/-- A compaction that stops anywhere leaves every key behind exactly when it merges only levels
that it cannot read or whose keys the other levels have too. -/
theorem keepsKeys_compact_iff (p : Platform) (left : Option Nat) (h : Ready K env m time files) :
    KeepsKeys K (Filed.compact p env left) ((m, time), files) ↔
      (m.needsCompaction = some true →
        AllHarmless p env (List.range m.checkedLevels) (m, time)) := by
  rw [Filed.compact, keepsKeys_current_bind_iff]
  dsimp only
  cases hneeds : m.needsCompaction with
  | none =>
    have hthrow : ThroughOp (Kept K) (fun _ _ => True) (throw .panic : FiledM Unit)
      ((m, time), files) := through_throw h.kept trivial
    exact iff_of_true (keepsKeys_of_through hthrow) fun hsome => nomatch hsome
  | some needed =>
    cases needed with
    | false =>
      have hpure : ThroughOp (Kept K) (fun _ _ => True) (pure () : FiledM Unit)
        ((m, time), files) := through_pure h.kept trivial
      exact iff_of_true (keepsKeys_of_through hpure) fun hsome => nomatch hsome
    | true =>
      have hpos : 0 < m.levels.length := by
        cases hlevels : m.levels with
        | nil => simp [needsCompaction, hlevels] at hneeds
        | cons l0 deeper => exact Nat.succ_pos _
      rw [forall_prop_of_true rfl]
      exact keepsKeys_levels_iff p left h hpos

theorem ready_self (hdisk : OnDisk m files) (hnames : NewNames env m time) :
    Ready m.keys env m time files := ⟨hdisk, hnames, fun _ => Iff.rfl⟩

theorem onDisk_registered (h : m.DistinctPaths) :
    OnDisk m (m.registered.map TableFile.complete) where
  complete _ ht := List.mem_map_of_mem ht
  registered f hf := by
    obtain ⟨t, ht, rfl⟩ := List.mem_map.mp hf
    exact ⟨t, ht, rfl⟩
  distinct := h

end Stages

theorem onDisk_fourVersions :
    OnDisk fourVersions (fourVersions.registered.map TableFile.complete) := by
  refine onDisk_registered ?_
  rw [DistinctPaths]
  decide +kernel

theorem newNames_fourVersions : NewNames .calm fourVersions 5 where
  unused t ht n hn level hsame := by
    have hnamed : ∀ t ∈ fourVersions.registered, ∃ k < 5, t.sst.path = tableName 0 k := by
      decide +kernel
    obtain ⟨k, hk, hpath⟩ := hnamed t ht
    have hnow : k = n := (tableName_inj.mp (hpath.symm.trans hsame)).2
    omega
  distinct a b _ hab := hab.ne

/-- No key is lost by a compaction that stops, with an error or in a crash. -/
theorem compaction_loses_nothing_iff (p : Platform) (env : Env) (left : Option Nat)
    (m : CompactionManager) (time : Nat) (files : List TableFile) (hdisk : OnDisk m files)
    (hnames : NewNames env m time) :
    KeepsKeys m.keys (Filed.compact p env left) ((m, time), files) ↔
      (m.needsCompaction = some true →
        AllHarmless p env (List.range m.checkedLevels) (m, time)) :=
  keepsKeys_compact_iff p left (ready_self hdisk hnames)

theorem compaction_loses_nothing_fourVersions :
    KeepsKeys fourVersions.keys (Filed.compact .simple .calm none)
        ((fourVersions, 5), fourVersions.registered.map TableFile.complete) ↔
      (fourVersions.needsCompaction = some true →
        AllHarmless .simple .calm (List.range fourVersions.checkedLevels) (fourVersions, 5)) :=
  compaction_loses_nothing_iff .simple .calm none fourVersions 5 _ onDisk_fourVersions
    newNames_fourVersions

/-- Four tables with one key: when their files are removed it is nowhere. -/
theorem compaction_loses_key :
    ¬ ∀ (p : Platform) (env : Env) (left : Option Nat) (m : CompactionManager) (time : Nat)
      (files : List TableFile), OnDisk m files → NewNames env m time →
        KeepsKeys m.keys (Filed.compact p env left) ((m, time), files) := by
  intro h
  have hkeeps := h .simple .calm none fourVersions 5 _ onDisk_fourVersions newNames_fourVersions
  have hready := ready_self onDisk_fourVersions newNames_fourVersions
  have hneeds : fourVersions.needsCompaction = some true := by decide +kernel
  have hlevels : List.range fourVersions.checkedLevels = [0, 1] := by decide +kernel
  have hall := (keepsKeys_compact_iff .simple none hready).mp hkeeps hneeds
  rw [hlevels] at hall
  have hharmful : ¬ Harmless .calm 0 fourVersions 5 := by decide +kernel
  exact hharmful (hall.1 (by decide +kernel))

end CompactionManager

end Graphite
