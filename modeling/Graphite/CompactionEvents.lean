import Graphite.CompactionSteps

/-! The files that a compaction reads and writes. The program below is the compaction with a
list of these events beside the manager; without the list it is the compaction. -/

namespace Graphite
open KeyedRows

/-- A table's file is opened to be counted, or the manager is about to write a file of a level
under the name of a clock reading. -/
inductive FileEvent where
  | read (t : Table)
  | write (m : CompactionManager) (level nanos : Nat)
  deriving DecidableEq

namespace DiskM

variable {σ ε α β : Type} {I : σ → Prop}

/-- Every way through the program, failing or not, keeps the property of the state. -/
def Keeps (I : σ → Prop) (x : DiskM σ ε α) : Prop := ∀ s time, I s → I (x (s, time)).2.1

theorem keeps_pure (a : α) : Keeps I (pure a : DiskM σ ε α) := fun _ _ h => h

theorem keeps_throw (e : Stop ε) : Keeps I (throw e : DiskM σ ε α) := fun _ _ h => h

theorem keeps_update {f : σ → σ} (h : ∀ s, I s → I (f s)) : Keeps I (update f : DiskM σ ε Unit) :=
  fun s _ hs => h s hs

theorem bind_keeps {x : DiskM σ ε α} {f : α → DiskM σ ε β} {st : σ × Nat} (hx : I (x st).2.1)
    (hf : ∀ a, Keeps I (f a)) : I ((x >>= f) st).2.1 := by
  rw [DiskM.bind_apply]
  cases hr : x st with
  | mk r st₁ =>
    rw [hr] at hx
    cases r with
    | error e => exact hx
    | ok a => exact hf a st₁.1 st₁.2 hx

theorem Keeps.bind {x : DiskM σ ε α} {f : α → DiskM σ ε β} (hx : Keeps I x)
    (hf : ∀ a, Keeps I (f a)) : Keeps I (x >>= f) :=
  fun s time hs => bind_keeps (hx s time hs) hf

theorem keeps_forM {is : List Nat} {f : Nat → DiskM σ ε Unit} (h : ∀ i, Keeps I (f i)) :
    Keeps I (forM is f) := by
  induction is with
  | nil => exact keeps_pure ()
  | cons i is ih =>
    rw [List.forM_cons]
    exact (h i).bind fun _ => ih

end DiskM

namespace CompactionManager

abbrev LoggedM := DiskM (CompactionManager × List FileEvent) CompactionError

/-- A step that is no event. -/
def silent {α : Type} (x : CompactM α) : LoggedM α := fun ((m, log), time) =>
  ((x (m, time)).1, (((x (m, time)).2.1, log), (x (m, time)).2.2))

def note (e : CompactionManager → FileEvent) : LoggedM Unit :=
  update fun (m, log) => (m, log ++ [e m])

namespace Logged

def readTables (env : Env) : List Table → LoggedM (List Tick)
  | [] => return []
  | table :: tables => do
    silent (fileOp env (.ssTable .io))
    note fun _ => .read table
    silent (update fun m =>
      { m with bytesRead := m.bytesRead + table.reopen.sst.tableMeta.fileSize })
    silent (fileOp env (.ssTable .io))
    let ticks := table.reopen.scan none Int64.minValue Int64.maxValue
    let rest ← readTables env tables
    return ticks ++ rest

def writeChunks (p : Platform) (env : Env) (nextLevel : Nat) : List (List Tick) → LoggedM Unit
  | [] => return ()
  | chunk :: rest => do
    let nanos ← silent (now env)
    let m ← silent current
    note fun m => .write m nextLevel nanos
    let table ← silent
      (writeTable p env .ssTable (tableName nextLevel nanos) chunk nextLevel m.symbolDict)
    silent (update (addTable nextLevel table))
    writeChunks p env nextLevel rest

def compactLevel (p : Platform) (env : Env) (levelIdx : Nat) : LoggedM Unit := do
  let m ← silent current
  match m.levels[levelIdx]? with
  | none => throw .panic
  | some level =>
    if level.tables = [] then return ()
    else do
      let allTicks ← readTables env level.tables
      silent (update (clearLevel levelIdx))
      let merged := mergeRows Tick.key allTicks
      silent (update (ensureLevel (levelIdx + 1)))
      writeChunks p env (levelIdx + 1) (chunks CHUNK_SIZE merged)

def compactDeeper (p : Platform) (env : Env) (i : Nat) : LoggedM Unit := do
  let m ← silent current
  match targetSize i, m.levels[i]? with
  | some target, some level =>
    if level.totalSize > target then compactLevel p env i
    else return ()
  | _, _ => throw .panic

def compactFirst (p : Platform) (env : Env) : LoggedM Unit := do
  let m ← silent current
  match m.levels with
  | [] => throw .panic
  | l0 :: _ =>
    if l0.tables.length ≥ L0_MAX_TABLES then compactLevel p env 0
    else return ()

def compact (p : Platform) (env : Env) : LoggedM Unit := do
  let m ← silent current
  match m.needsCompaction with
  | none => throw .panic
  | some false => return ()
  | some true => do
    compactFirst p env
    let m ← silent current
    forM (List.range' 1 (m.levels.length - 1)) (compactDeeper p env)

end Logged

/-- What a compaction started now does to files. -/
def events (p : Platform) (env : Env) (m : CompactionManager) (time : Nat) : List FileEvent :=
  (Logged.compact p env ((m, []), time)).2.1.2

section Erasure

variable {α β : Type}

/-- Without its events the first program is the second one. -/
def Erases (x : LoggedM α) (y : CompactM α) : Prop :=
  ∀ m log time, ∃ more, x ((m, log), time) =
    ((y (m, time)).1, (((y (m, time)).2.1, log ++ more), (y (m, time)).2.2))

theorem erases_silent (y : CompactM α) : Erases (silent y) y :=
  fun _ log _ => ⟨[], by rw [List.append_nil]; rfl⟩

theorem erases_pure (a : α) : Erases (pure a) (pure a) :=
  fun _ log _ => ⟨[], by rw [List.append_nil]; rfl⟩

theorem erases_throw (e : Stop CompactionError) : Erases (throw e : LoggedM α) (throw e) :=
  fun _ log _ => ⟨[], by rw [List.append_nil]; rfl⟩

theorem Erases.bind {x : LoggedM α} {y : CompactM α} {f : α → LoggedM β} {g : α → CompactM β}
    (hx : Erases x y) (hf : ∀ a, Erases (f a) (g a)) : Erases (x >>= f) (y >>= g) := by
  intro m log time
  obtain ⟨more, h⟩ := hx m log time
  rw [DiskM.bind_apply, DiskM.bind_apply, h]
  cases hy : y (m, time) with
  | mk r st =>
    obtain ⟨m₁, time₁⟩ := st
    cases r with
    | error e => exact ⟨more, rfl⟩
    | ok a =>
      obtain ⟨more', h'⟩ := hf a m₁ (log ++ more) time₁
      refine ⟨more ++ more', ?_⟩
      dsimp only
      rw [h', List.append_assoc]

theorem Erases.note_bind {e : CompactionManager → FileEvent} {x : Unit → LoggedM α}
    {y : CompactM α} (h : Erases (x ()) y) : Erases (note e >>= x) y := by
  intro m log time
  obtain ⟨more, hx⟩ := h m (log ++ [e m]) time
  refine ⟨e m :: more, ?_⟩
  rw [← List.append_cons] at hx
  exact hx

variable (p : Platform) (env : Env)

theorem erases_readTables (tables : List Table) :
    Erases (Logged.readTables env tables) (readTables env tables) := by
  induction tables with
  | nil => exact erases_pure []
  | cons t tables ih =>
    refine (erases_silent _).bind fun _ => Erases.note_bind ?_
    refine (erases_silent _).bind fun _ => (erases_silent _).bind fun _ => ?_
    exact ih.bind fun _ => erases_pure _

theorem erases_writeChunks (level : Nat) (parts : List (List Tick)) :
    Erases (Logged.writeChunks p env level parts) (writeChunks p env level parts) := by
  induction parts with
  | nil => exact erases_pure ()
  | cons chunk parts ih =>
    refine (erases_silent _).bind fun _ => (erases_silent _).bind fun _ => Erases.note_bind ?_
    exact (erases_silent _).bind fun _ => (erases_silent _).bind fun _ => ih

theorem erases_compactLevel (i : Nat) :
    Erases (Logged.compactLevel p env i) (compactLevel p env i) := by
  refine (erases_silent current).bind fun m => ?_
  cases m.levels[i]? with
  | none => exact erases_throw _
  | some level =>
    dsimp only
    split_ifs
    · exact erases_pure ()
    · refine (erases_readTables env _).bind fun _ => (erases_silent _).bind fun _ => ?_
      exact (erases_silent _).bind fun _ => erases_writeChunks p env _ _

theorem erases_compactDeeper (i : Nat) :
    Erases (Logged.compactDeeper p env i) (compactDeeper p env i) := by
  refine (erases_silent current).bind fun m => ?_
  cases targetSize i with
  | none => exact erases_throw _
  | some target =>
    cases m.levels[i]? with
    | none => exact erases_throw _
    | some level =>
      dsimp only
      split_ifs
      · exact erases_compactLevel p env i
      · exact erases_pure ()

theorem erases_compactFirst : Erases (Logged.compactFirst p env) (compactFirst p env) := by
  refine (erases_silent current).bind fun m => ?_
  cases m.levels with
  | nil => exact erases_throw _
  | cons l0 deeper =>
    dsimp only
    split_ifs
    · exact erases_compactLevel p env 0
    · exact erases_pure ()

theorem erases_forM {is : List Nat} {f : Nat → LoggedM Unit} {g : Nat → CompactM Unit}
    (h : ∀ i, Erases (f i) (g i)) : Erases (forM is f) (forM is g) := by
  induction is with
  | nil => exact erases_pure ()
  | cons i is ih =>
    rw [List.forM_cons, List.forM_cons]
    exact (h i).bind fun _ => ih

/-- The events stand beside the compaction and change nothing in it. -/
theorem erases_compact : Erases (Logged.compact p env) (compact p env) := by
  refine (erases_silent current).bind fun m => ?_
  cases m.needsCompaction with
  | none => exact erases_throw _
  | some needed =>
    cases needed with
    | false => exact erases_pure ()
    | true =>
      refine (erases_compactFirst p env).bind fun _ => (erases_silent current).bind fun m' => ?_
      exact erases_forM (erases_compactDeeper p env)

theorem logged_compact_eq (m : CompactionManager) (time : Nat) :
    Logged.compact p env ((m, []), time) = ((compact p env (m, time)).1,
      (((compact p env (m, time)).2.1, events p env m time), (compact p env (m, time)).2.2)) := by
  obtain ⟨more, h⟩ := erases_compact p env m [] time
  rw [h, events, h]

end Erasure

/-- The tables of all levels. -/
def registered (m : CompactionManager) : List Table := m.levels.flatMap Level.tables

theorem mem_registered_of_getElem? {m : CompactionManager} {i : Nat} {level : Level}
    (hlevel : m.levels[i]? = some level) {t : Table} (ht : t ∈ level.tables) : t ∈ m.registered :=
  List.mem_flatMap.mpr ⟨level, List.mem_of_getElem? hlevel, ht⟩

theorem mem_registered_iff (m : CompactionManager) (t : Table) :
    t ∈ m.registered ↔ ∃ n, t ∈ m.tablesAt n := by
  constructor
  · intro h
    obtain ⟨l, hl, ht⟩ := List.mem_flatMap.mp h
    obtain ⟨n, hn, rfl⟩ := List.mem_iff_getElem.mp hl
    exact ⟨n, by rw [tablesAt, List.getElem?_eq_getElem hn]; exact ht⟩
  · rintro ⟨n, ht⟩
    cases hn : m.levels[n]? with
    | none => simp [tablesAt, hn] at ht
    | some l =>
      rw [tablesAt, hn] at ht
      exact mem_registered_of_getElem? hn ht

section Invariants

variable {α : Type} {p : Platform} {I : CompactionManager × List FileEvent → Prop}
  {m : CompactionManager} {log : List FileEvent} (env : Env)

def counted (t : Table) (m : CompactionManager) : CompactionManager :=
  { m with bytesRead := m.bytesRead + t.reopen.sst.tableMeta.fileSize }

/-- A property of the manager and the events so far that every step of a compaction keeps. -/
structure StepInvariant (p : Platform) (I : CompactionManager × List FileEvent → Prop) : Prop where
  read : ∀ {m log t}, I (m, log) → t ∈ m.registered → I (m.counted t, log ++ [.read t])
  clear : ∀ {m log} i, I (m, log) → I (m.clearLevel i, log)
  ensure : ∀ {m log} i, I (m, log) → I (m.ensureLevel i, log)
  unwritten : ∀ {m log} level nanos, I (m, log) → I (m, log ++ [.write m level nanos])
  written : ∀ {m log level nanos t file}, I (m, log) →
    SsTable.write p (tableName level nanos) t.rows level m.symbolDict = some (file, t.sst) →
      I (m.addTable level t, log ++ [.write m level nanos])

theorem fileOp_bind_cases (e : CompactionError) (f : Unit → LoggedM α) (m : CompactionManager)
    (log : List FileEvent) (time : Nat) :
    (env.io time = true ∧
      (silent (fileOp env e) >>= f) ((m, log), time) = f () ((m, log), time + 1)) ∨
    (env.io time = false ∧ (silent (fileOp env e) >>= f) ((m, log), time) =
      (.error (.error e), ((m, log), time + 1))) := by
  have hop : silent (fileOp env e) ((m, log), time) =
      (if env.io time then .ok () else .error (.error e), ((m, log), time + 1)) := rfl
  cases hio : env.io time with
  | true =>
    rw [hio, if_pos rfl] at hop
    exact Or.inl ⟨rfl, DiskM.bind_ok hop f⟩
  | false =>
    rw [hio, if_neg Bool.false_ne_true] at hop
    exact Or.inr ⟨rfl, DiskM.bind_error hop f⟩

/-- The file of a table is opened twice. -/
theorem readTables_cons_cases (t : Table) (tables : List Table) (m : CompactionManager)
    (log : List FileEvent) (time : Nat) :
    (env.io time = false ∧ Logged.readTables env (t :: tables) ((m, log), time) =
      (.error (.error (.ssTable .io)), ((m, log), time + 1))) ∨
    (env.io time = true ∧
      (Logged.readTables env (t :: tables) ((m, log), time) =
          (.error (.error (.ssTable .io)), ((m.counted t, log ++ [.read t]), time + 1 + 1)) ∨
        Logged.readTables env (t :: tables) ((m, log), time) =
          (Logged.readTables env tables >>= fun rest =>
            return t.reopen.scan none Int64.minValue Int64.maxValue ++ rest)
              ((m.counted t, log ++ [.read t]), time + 1 + 1))) := by
  rw [Logged.readTables]
  rcases fileOp_bind_cases env (.ssTable .io) _ m log time with ⟨hio, hopen⟩ | ⟨hio, hopen⟩
  · refine Or.inr ⟨hio, ?_⟩
    rw [hopen]
    rcases fileOp_bind_cases env (.ssTable .io) (fun _ => Logged.readTables env tables >>=
      fun rest => return t.reopen.scan none Int64.minValue Int64.maxValue ++ rest) (m.counted t)
        (log ++ [.read t]) (time + 1) with ⟨-, hagain⟩ | ⟨-, hagain⟩
    · exact Or.inr hagain
    · exact Or.inl hagain
  · exact Or.inl ⟨hio, hopen⟩

theorem keeps_readTables (h : StepInvariant p I) {tables : List Table} (hI : I (m, log))
    (htables : ∀ t ∈ tables, t ∈ m.registered) (time : Nat) :
    I (Logged.readTables env tables ((m, log), time)).2.1 := by
  induction tables generalizing m log time with
  | nil => exact hI
  | cons t tables ih =>
    obtain ⟨ht, htables⟩ := List.forall_mem_cons.mp htables
    have hread := h.read hI ht
    rcases readTables_cons_cases env t tables m log time with ⟨-, hres⟩ | ⟨-, hres | hres⟩
    · rw [hres]
      exact hI
    · rw [hres]
      exact hread
    · rw [hres]
      exact DiskM.bind_keeps (ih hread htables (time + 1 + 1)) fun _ => DiskM.keeps_pure _

theorem keeps_writeChunks (h : StepInvariant p I) (level : Nat) (parts : List (List Tick)) :
    DiskM.Keeps I (Logged.writeChunks p env level parts) := by
  induction parts with
  | nil => exact DiskM.keeps_pure ()
  | cons chunk parts ih =>
    rintro ⟨m, log⟩ time hI
    have hnow : silent (now env) ((m, log), time) = (.ok (env.now time), ((m, log), time + 1)) := rfl
    have hcurrent : silent current ((m, log), time + 1) = (.ok m, ((m, log), time + 1)) := rfl
    have hnote : note (fun m => .write m level (env.now time)) ((m, log), time + 1) =
        (.ok (), ((m, log ++ [.write m level (env.now time)]), time + 1)) := rfl
    rw [Logged.writeChunks, DiskM.bind_ok hnow, DiskM.bind_ok hcurrent, DiskM.bind_ok hnote]
    rcases writeTable_cases p env CompactionError.ssTable (tableName level (env.now time)) chunk
      level m.symbolDict m (time + 1) with ⟨t, time', hwrite, rfl, file, hsst⟩ | ⟨e, time', hwrite⟩
    · have hsilent : silent (writeTable p env CompactionError.ssTable
          (tableName level (env.now time)) t.rows level m.symbolDict)
            ((m, log ++ [.write m level (env.now time)]), time + 1) =
              (.ok t, ((m, log ++ [.write m level (env.now time)]), time')) := by
        rw [silent, hwrite]
      have hupdate : silent (update (addTable level t))
          ((m, log ++ [.write m level (env.now time)]), time') =
            (.ok (), ((m.addTable level t, log ++ [.write m level (env.now time)]), time')) := rfl
      rw [DiskM.bind_ok hsilent, DiskM.bind_ok hupdate]
      exact ih _ _ (h.written hI hsst)
    · have hsilent : silent (writeTable p env CompactionError.ssTable
          (tableName level (env.now time)) chunk level m.symbolDict)
            ((m, log ++ [.write m level (env.now time)]), time + 1) =
              (.error e, ((m, log ++ [.write m level (env.now time)]), time')) := by
        rw [silent, hwrite]
      rw [DiskM.bind_error hsilent]
      exact h.unwritten level (env.now time) hI

theorem keeps_silent_update {f : CompactionManager → CompactionManager}
    (hf : ∀ m log, I (m, log) → I (f m, log)) : DiskM.Keeps I (silent (update f)) :=
  fun st _ hI => hf st.1 st.2 hI

theorem keeps_silent_current : DiskM.Keeps I (silent current) := fun _ _ hI => hI

theorem keeps_compactLevel (h : StepInvariant p I) (i : Nat) :
    DiskM.Keeps I (Logged.compactLevel p env i) := by
  rintro ⟨m, log⟩ time hI
  have hcurrent : silent current ((m, log), time) = (.ok m, ((m, log), time)) := rfl
  rw [Logged.compactLevel, DiskM.bind_ok hcurrent]
  cases hlevel : m.levels[i]? with
  | none => exact hI
  | some level =>
    dsimp only
    split_ifs
    · exact hI
    · have hread := keeps_readTables env h hI (fun _ ht => mem_registered_of_getElem? hlevel ht) time
      refine DiskM.bind_keeps hread fun ticks => ?_
      refine (keeps_silent_update fun _ _ => h.clear i).bind fun _ => ?_
      exact (keeps_silent_update fun _ _ => h.ensure (i + 1)).bind fun _ =>
        keeps_writeChunks env h (i + 1) _

theorem keeps_compactDeeper (h : StepInvariant p I) (i : Nat) :
    DiskM.Keeps I (Logged.compactDeeper p env i) := by
  refine keeps_silent_current.bind fun m => ?_
  cases targetSize i with
  | none => exact DiskM.keeps_throw _
  | some target =>
    cases m.levels[i]? with
    | none => exact DiskM.keeps_throw _
    | some level =>
      dsimp only
      split_ifs
      · exact keeps_compactLevel env h i
      · exact DiskM.keeps_pure ()

theorem keeps_compactFirst (h : StepInvariant p I) :
    DiskM.Keeps I (Logged.compactFirst p env) := by
  refine keeps_silent_current.bind fun m => ?_
  cases m.levels with
  | nil => exact DiskM.keeps_throw _
  | cons l0 deeper =>
    dsimp only
    split_ifs
    · exact keeps_compactLevel env h 0
    · exact DiskM.keeps_pure ()

theorem keeps_compact (h : StepInvariant p I) : DiskM.Keeps I (Logged.compact p env) := by
  refine keeps_silent_current.bind fun m => ?_
  cases m.needsCompaction with
  | none => exact DiskM.keeps_throw _
  | some needed =>
    cases needed with
    | false => exact DiskM.keeps_pure ()
    | true =>
      refine (keeps_compactFirst env h).bind fun _ => keeps_silent_current.bind fun m' => ?_
      exact DiskM.keeps_forM (keeps_compactDeeper env h)

/-- A compaction with its events keeps what each of its steps keeps. -/
theorem compact_keeps (h : StepInvariant p I) {m : CompactionManager} (hI : I (m, []))
    (time : Nat) : I ((compact p env (m, time)).2.1, events p env m time) := by
  have hkept := keeps_compact env h (m, []) time hI
  rwa [logged_compact_eq] at hkept

end Invariants

end CompactionManager

end Graphite
