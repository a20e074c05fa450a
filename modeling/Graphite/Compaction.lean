import Graphite.SsTable
import Graphite.SkipList
import Graphite.Wal

/-! Leveled compaction. A registered table comes with the rows its file reads back as:
files are taken to read back what was written. Clock readings and the outcomes of file
operations are those of an environment, taken in turn. -/

namespace Graphite
open KeyedRows

/-- What the outside answers at each point in time. -/
structure Env where
  /-- The clock in nanoseconds. -/
  now : Nat → Nat
  /-- How the writes of a call to the write-ahead log turn out. -/
  disk : Nat → Wal.Disk
  /-- Whether an operation on another file succeeds. -/
  io : Nat → Bool

/-- The clock ticks and nothing fails. -/
def Env.calm : Env := ⟨fun time => time, fun _ => .sound, fun _ => true⟩

structure Table where
  sst : SsTable
  rows : List Tick
  deriving DecidableEq

namespace Table

/-- `SsTable::open` on the table's path: the file size is not read back. -/
def reopen (t : Table) : Table :=
  { t with sst := { t.sst with tableMeta := { t.sst.tableMeta with fileSize := 0 } } }

/-- Read all ticks matching filters. -/
def scan (t : Table) (symbolId : Option SymbolId) (t1 t2 : TimestampNs) : List Tick :=
  if !t.sst.overlapsTimeRange t1 t2 then []
  else if !symbolId.all t.sst.overlapsSymbol then []
  else t.rows.filter (SsTable.selects symbolId t1 t2)

end Table

/-- A level in the LSM-tree. -/
structure Level where
  levelNum : Nat
  tables : List Table
  deriving DecidableEq

namespace Level

def new (levelNum : Nat) : Level := ⟨levelNum, []⟩

def totalSize (l : Level) : Nat := (l.tables.map fun t => t.sst.tableMeta.fileSize).sum

def addTable (l : Level) (t : Table) : Level := { l with tables := l.tables ++ [t] }

end Level

structure CompactionManager where
  levels : List Level
  symbolDict : SymbolDictionary
  bytesWritten : Nat
  bytesRead : Nat
  deriving DecidableEq

inductive CompactionError where
  | ssTable (e : SsTableError)
  deriving DecidableEq, Repr

/-- A step that reads and changes a state, keeps the changes when it fails, and takes
answers of the environment. -/
abbrev DiskM (σ ε : Type) := ExceptT (Stop ε) (StateM (σ × Nat))

theorem DiskM.bind_apply {σ ε α β : Type} (x : DiskM σ ε α) (f : α → DiskM σ ε β) (st : σ × Nat) :
    (x >>= f) st = match (x st).1 with
      | .ok a => f a (x st).2
      | .error e => (.error e, (x st).2) := by
  simp only [bind, ExceptT.bind, ExceptT.mk, StateT.bind, ExceptT.bindCont]
  rcases x st with ⟨_ | _, _⟩ <;> rfl

theorem DiskM.bind_ok {σ ε α β : Type} {x : DiskM σ ε α} {st st' : σ × Nat} {a : α}
    (h : x st = (.ok a, st')) (f : α → DiskM σ ε β) : (x >>= f) st = f a st' := by
  rw [DiskM.bind_apply, h]

theorem DiskM.bind_error {σ ε α β : Type} {x : DiskM σ ε α} {st st' : σ × Nat} {e : Stop ε}
    (h : x st = (.error e, st')) (f : α → DiskM σ ε β) : (x >>= f) st = (.error e, st') := by
  rw [DiskM.bind_apply, h]

theorem DiskM.bind_eq_ok {σ ε α β : Type} {x : DiskM σ ε α} {f : α → DiskM σ ε β}
    {st st' : σ × Nat} {b : β} (h : (x >>= f) st = (.ok b, st')) :
    ∃ a st₁, x st = (.ok a, st₁) ∧ f a st₁ = (.ok b, st') := by
  rw [DiskM.bind_apply] at h
  split at h
  · rename_i a ha
    exact ⟨a, (x st).2, Prod.ext ha rfl, h⟩
  · cases h

theorem DiskM.eq_ok {σ ε : Type} {r : Except (Stop ε) Unit × (σ × Nat)} (h : r.1 = .ok ()) :
    r = (.ok (), (r.2.1, r.2.2)) :=
  Prod.ext h rfl

def current {σ ε : Type} : DiskM σ ε σ := fun (s, time) => (.ok s, (s, time))

theorem DiskM.current_bind {σ ε α : Type} (f : σ → DiskM σ ε α) (s : σ) (time : Nat) :
    (current >>= f) (s, time) = f s (s, time) := rfl

def update {σ ε : Type} (f : σ → σ) : DiskM σ ε Unit := fun (s, time) => (.ok (), (f s, time))

/-- `L{level}_{nanos:06}.sst` -/
def tableName (level nanos : Nat) : String :=
  let digits := toString nanos
  "L" ++ toString level ++ "_" ++ String.ofList (List.replicate (6 - digits.length) '0') ++
    digits ++ ".sst"

/-- `SystemTime::now`. -/
def now {σ ε : Type} (env : Env) : DiskM σ ε Nat :=
  fun (s, time) => (.ok (env.now time), (s, time + 1))

/-- A file operation that fails with `e` or does nothing else than succeed. -/
def fileOp {σ ε : Type} (env : Env) (e : ε) : DiskM σ ε Unit :=
  fun (s, time) => (if env.io time then .ok () else .error (.error e), (s, time + 1))

/-- `SsTable::write`, which panics where an encoder does. -/
def writeTable {σ ε : Type} (p : Platform) (env : Env) (wrap : SsTableError → ε) (path : String)
    (ticks : List Tick) (level : Nat) (symbolDict : SymbolDictionary) : DiskM σ ε Table := do
  fileOp env (wrap .io)
  match SsTable.write p path ticks level symbolDict with
  | none => throw .panic
  | some (_, sst) => return ⟨sst, ticks⟩

/-- `(0..ticks.len()).step_by(size)` -/
def chunks {α : Type} (size : Nat) (xs : List α) : List (List α) :=
  (List.range ((xs.length + size - 1) / size)).map fun i => (xs.drop (i * size)).take size

def CHUNK_SIZE : Nat := 10000

/-- 4MB target per level -/
def blockSizeTarget : Nat := 4 * 1024 * 1024

namespace CompactionManager

def new (symbolDict : SymbolDictionary) : CompactionManager := ⟨[Level.new 0], symbolDict, 0, 0⟩

/-- ` LEVEL_SIZE_RATIO.pow(i) * block_size_target()` in `u64`. -/
def targetSize (i : Nat) : Option Nat :=
  if LEVEL_SIZE_RATIO ^ i * blockSizeTarget < 2 ^ 64 then
    some ( LEVEL_SIZE_RATIO ^ i * blockSizeTarget) else none

/-- The test on the levels from 1 on; the first level over its target ends it. -/
def deeperNeeds : (i : Nat) → List Level → Option Bool
  | _, [] => some false
  | i, level :: levels => do
    let target ← targetSize i
    if level.totalSize > target then some true else deeperNeeds (i + 1) levels

def needsCompaction (m : CompactionManager) : Option Bool :=
  match m.levels with
  | [] => some false
  | l0 :: deeper => if l0.tables.length ≥ L0_MAX_TABLES then some true else deeperNeeds 1 deeper

abbrev CompactM := DiskM CompactionManager CompactionError

/-- Every table is opened twice, once for its size and once for its rows. -/
def readTables (env : Env) : List Table → CompactM (List Tick)
  | [] => return []
  | table :: tables => do
    fileOp env (.ssTable .io)
    update fun m => { m with bytesRead := m.bytesRead + table.reopen.sst.tableMeta.fileSize }
    fileOp env (.ssTable .io)
    let ticks := table.reopen.scan none Int64.minValue Int64.maxValue
    let rest ← readTables env tables
    return ticks ++ rest

def clearLevel (i : Nat) (m : CompactionManager) : CompactionManager :=
  { m with levels := m.levels.modify i fun l => { l with tables := [] } }

/-- `while self.levels.len() <= next_level`, which is at most one round. -/
def ensureLevel (nextLevel : Nat) (m : CompactionManager) : CompactionManager :=
  if m.levels.length ≤ nextLevel then { m with levels := m.levels ++ [Level.new m.levels.length] }
  else m

def addTable (i : Nat) (table : Table) (m : CompactionManager) : CompactionManager :=
  { m with
    bytesWritten := m.bytesWritten + table.sst.tableMeta.fileSize
    levels := m.levels.modify i (·.addTable table) }

/-- Write merged tables to next level. -/
def writeChunks (p : Platform) (env : Env) (nextLevel : Nat) : List (List Tick) → CompactM Unit
  | [] => return ()
  | chunk :: rest => do
    let nanos ← now env
    let m ← current
    let table ← writeTable p env .ssTable (tableName nextLevel nanos) chunk nextLevel m.symbolDict
    update (addTable nextLevel table)
    writeChunks p env nextLevel rest

/-- Merge all tables of a level into the next one; `levels[level_idx]` panics past the end. -/
def compactLevel (p : Platform) (env : Env) (levelIdx : Nat) : CompactM Unit := do
  let m ← current
  match m.levels[levelIdx]? with
  | none => throw .panic
  | some level =>
    if level.tables = [] then return ()
    else do
      let allTicks ← readTables env level.tables
      update (clearLevel levelIdx)
      let merged := mergeRows Tick.key allTicks
      update (ensureLevel (levelIdx + 1))
      writeChunks p env (levelIdx + 1) (chunks CHUNK_SIZE merged)

/-- The body of the loop over the deeper levels. -/
def compactDeeper (p : Platform) (env : Env) (i : Nat) : CompactM Unit := do
  let m ← current
  match targetSize i, m.levels[i]? with
  | some target, some level =>
    if level.totalSize > target then compactLevel p env i
    else return ()
  | _, _ => throw .panic

/-- Compact L0 first, when it is full. -/
def compactFirst (p : Platform) (env : Env) : CompactM Unit := do
  let m ← current
  match m.levels with
  | [] => throw .panic
  | l0 :: _ =>
    if l0.tables.length ≥ L0_MAX_TABLES then compactLevel p env 0
    else return ()

/-- The number of levels to check is read once. -/
def compact (p : Platform) (env : Env) : CompactM Unit := do
  let m ← current
  match m.needsCompaction with
  | none => throw .panic
  | some false => return ()
  | some true => do
    compactFirst p env
    let m ← current
    forM (List.range' 1 (m.levels.length - 1)) (compactDeeper p env)

end CompactionManager

end Graphite
