import Graphite.Compaction
import Graphite.LockProgram

/-! The LSM-tree: memtable, write-ahead log, tables and symbol dictionary, each behind a
read-write lock of its own. An operation is a program over these locks; a guard lives to
the end of its scope. Between the locks stand the sections that a guard protects. -/

namespace Graphite
open BigEndian KeyedRows LockProgram

inductive NodeRole where
  /-- Accepts writes and serves WAL to replicas. -/
  | primary
  /-- Read-only; applies WAL from primary. -/
  | replica
  deriving DecidableEq, Repr

/-- A WAL entry for replication streaming. -/
structure ReplicationEntry where
  sequence : Nat
  record : WalRecord
  symbol : Option String
  deriving DecidableEq, Repr

inductive ReplicationError where
  | io
  | notPrimary
  | notReplica
  deriving DecidableEq, Repr

inductive LsmError where
  | wal (e : WalError)
  | ssTable (e : SsTableError)
  | compaction (e : CompactionError)
  | symbolNotFound (symbol : String)
  | replication (e : ReplicationError)
  deriving DecidableEq, Repr

/-- A tick with its symbol string (resolved to `symbolId` on insert). -/
structure SymbolTick where
  symbol : String
  timestamp : TimestampNs
  open_ : F64
  high : F64
  low : F64
  close : F64
  volume : UInt64
  deriving DecidableEq, Repr

def SymbolTick.toTick (t : SymbolTick) (symbolId : SymbolId) : Tick :=
  ⟨symbolId, t.timestamp, t.open_, t.high, t.low, t.close, t.volume⟩

/-- Columnar batch for a single symbol. -/
structure TickBatch where
  timestamps : List TimestampNs
  opens : List F64
  highs : List F64
  lows : List F64
  closes : List F64
  volumes : List UInt64
  deriving DecidableEq, Repr

namespace TickBatch

def len (b : TickBatch) : Nat := b.timestamps.length

/-- Indexing past the end of a column is a panic. -/
def tickAt (b : TickBatch) (i : Nat) (symbolId : SymbolId) : Option Tick := do
  return ⟨symbolId, ← b.timestamps[i]?, ← b.opens[i]?, ← b.highs[i]?, ← b.lows[i]?,
    ← b.closes[i]?, ← b.volumes[i]?⟩

end TickBatch

/-- The core storage engine. -/
structure LsmTree where
  memtable : SkipList
  wal : Wal
  compaction : CompactionManager
  symbolDict : SymbolDictionary
  totalRows : Nat
  flushThreshold : Nat
  role : NodeRole
  lastPrimarySequence : Option Nat
  deriving DecidableEq

inductive Lock where
  | memtable
  | wal
  | compaction
  | symbolDict
  | replication
  deriving DecidableEq, Repr

/-- A section of an operation that no lock is taken or released in. -/
abbrev LsmM := DiskM LsmTree LsmError

abbrev LsmOp := Op Lock (LsmTree × Nat) (Stop LsmError)

def Stop.map {ε ε' : Type} (f : ε → ε') : Stop ε → Stop ε'
  | .error e => .error (f e)
  | .panic => .panic

namespace LsmTree

/-- What a data directory holds: the log, the tables in the order of the listing as they
read back, and the replication state. -/
structure Directory where
  walLog : Bytes
  tables : List Table
  lastPrimarySequence : Option Nat
  deriving DecidableEq

/-- Only inserts are replayed. -/
def recoverFromWal (records : List WalRecord) : SkipList :=
  records.foldl (fun memtable record =>
    match record with
    | .insert tick => memtable.insert tick
    | .delete _ => memtable
    | .checkpoint _ => memtable) SkipList.new

/-- Levels are added until there is one for the table. -/
def loadSstable (m : CompactionManager) (t : Table) : CompactionManager :=
  let level := t.sst.tableMeta.level
  let missing := List.range' m.levels.length (level + 1 - m.levels.length)
  { m with levels := (m.levels ++ missing.map Level.new).modify level (·.addTable t) }

def loadSstables (m : CompactionManager) (tables : List Table) : CompactionManager :=
  tables.foldl (fun m t => loadSstable m t.reopen) m

/-- `LsmTree::open`: the dictionary starts empty. -/
def «open» (c : Codec) (flushThreshold : Nat) (role : NodeRole) (dir : Directory) :
    Except (Stop LsmError) LsmTree := do
  let wal ← (Wal.open c dir.walLog).mapError (Stop.map .wal)
  return {
    memtable := recoverFromWal wal.replayed
    wal
    compaction := loadSstables (CompactionManager.new SymbolDictionary.new) dir.tables
    symbolDict := SymbolDictionary.new
    totalRows := 0
    flushThreshold
    role
    lastPrimarySequence := dir.lastPrimarySequence }

/-- The tree of an empty directory. -/
def fresh (flushThreshold : Nat) (role : NodeRole) : LsmTree where
  memtable := SkipList.new
  wal := ⟨[], 0, 0, []⟩
  compaction := CompactionManager.new SymbolDictionary.new
  symbolDict := SymbolDictionary.new
  totalRows := 0
  flushThreshold := flushThreshold
  role := role
  lastPrimarySequence := none

theorem open_empty (c : Codec) (flushThreshold : Nat) (role : NodeRole) :
    LsmTree.«open» c flushThreshold role ⟨[], [], none⟩ = .ok (fresh flushThreshold role) := rfl

def withDict (s : LsmTree) (dict : SymbolDictionary) : LsmTree := { s with symbolDict := dict }

def withWal (s : LsmTree) (wal : Wal) : LsmTree := { s with wal }

/-- A call to the log. -/
def onWal {α : Type} (f : Nat → Wal → Except (Stop WalError) α × Wal) : LsmM α :=
  fun (s, time) =>
    ((f time s.wal).1.mapError (Stop.map .wal), (s.withWal (f time s.wal).2, time + 1))

def appendWal (c : Codec) (env : Env) (record : WalRecord) : LsmM Nat :=
  onWal fun time w => Wal.append c (env.disk time) w record

def appendWalBatch (c : Codec) (env : Env) (records : List WalRecord) : LsmM Nat :=
  onWal fun time w => Wal.appendBatch c (env.disk time) w records

def truncateWal (env : Env) : LsmM Unit :=
  onWal fun time w => Wal.truncate (env.io time) (env.disk time).synced w

/-- `dict.get_or_insert(symbol)` -/
def getOrInsert (symbol : String) : LsmM SymbolId := fun (s, time) =>
  (.ok (s.symbolDict.getOrInsert symbol).1,
    (s.withDict (s.symbolDict.getOrInsert symbol).2, time))

def insertMemtable (tick : Tick) : LsmM Unit :=
  update fun s => { s with memtable := s.memtable.insert tick }

def countRow : LsmM Unit := update fun s => { s with totalRows := s.totalRows + 1 }

def drainMemtable : LsmM (List Tick) := fun (s, time) =>
  (.ok s.memtable.drain.1, ({ s with memtable := s.memtable.drain.2 }, time))

/-- `levels[0].add_table(table)` -/
def addToLevel0 (t : Table) : LsmM Unit := fun (s, time) =>
  match s.compaction.levels with
  | [] => (.error .panic, (s, time))
  | l0 :: deeper =>
    (.ok (), ({ s with compaction := { s.compaction with levels := l0.addTable t :: deeper } }, time))

/-- Write the memtable to a table of level 0 and empty the log. -/
def flushMemtable (p : Platform) (env : Env) : LsmOp Unit := do
  let ticks ← withGuard .memtable .write (attempt drainMemtable)
  if ticks = [] then return ()
  else do
    let nanos ← attempt (now env)
    let dict ← withGuard .symbolDict .read (gets fun st => st.1.symbolDict)
    let table ← attempt (writeTable p env .ssTable (tableName 0 nanos) ticks 0 dict)
    withGuard .compaction .write (attempt (addToLevel0 table))
    withGuard .wal .write (attempt (truncateWal env))

def flushIfFull (p : Platform) (env : Env) (memtableLen : Nat) : LsmOp Unit := do
  let threshold ← gets fun st => st.1.flushThreshold
  if memtableLen ≥ threshold then flushMemtable p env
  else return ()

/-- The first part of `insert`, up to the length of the memtable. -/
def storeTick (c : Codec) (env : Env) (symbol : String) (tick : Tick) : LsmOp Nat := do
  let symbolId ← attempt (getOrInsert symbol)
  let _ ← withGuard .wal .write (attempt (appendWal c env (.insert (tick.withSymbol symbolId))))
  withGuard .memtable .write (attempt (insertMemtable (tick.withSymbol symbolId)))
  attempt countRow
  withGuard .memtable .read (gets fun st => st.1.memtable.len)

/-- The guard of the dictionary lives to the end of the call. -/
def insert (p : Platform) (c : Codec) (env : Env) (symbol : String) (tick : Tick) :
    LsmOp Unit := do
  let role ← gets fun st => st.1.role
  if role = .replica then throw (.error (.replication .notPrimary))
  else withGuard .symbolDict .write do
    let memtableLen ← storeTick c env symbol tick
    flushIfFull p env memtableLen

/-- The loop of `insert_batch`, from row `i` on; gives the ticks it has put in. -/
def batchLoop (batch : TickBatch) (symbolId : SymbolId) : (count i : Nat) → LsmM (List Tick)
  | 0, _ => return []
  | count + 1, i =>
    match batch.tickAt i symbolId with
    | none => throw .panic
    | some tick => do
      insertMemtable tick
      countRow
      let rest ← batchLoop batch symbolId count (i + 1)
      return tick :: rest

def storeBatch (c : Codec) (env : Env) (symbol : String) (batch : TickBatch) : LsmOp Nat := do
  let symbolId ← attempt (getOrInsert symbol)
  withGuard .memtable .write do
    let ticks ← attempt (batchLoop batch symbolId batch.len 0)
    let _ ← withGuard .wal .write (attempt (appendWalBatch c env (ticks.map .insert)))
    gets fun st => st.1.memtable.len

/-- Bulk insert columnar tick batch for one symbol (single WAL fsync). -/
def insertBatch (p : Platform) (c : Codec) (env : Env) (symbol : String) (batch : TickBatch) :
    LsmOp Unit :=
  if batch.len = 0 then return ()
  else withGuard .symbolDict .write do
    let memtableLen ← storeBatch c env symbol batch
    flushIfFull p env memtableLen

/-- The loop of `insert_multi`; gives the ticks it has put in. -/
def multiLoop : List SymbolTick → LsmM (List Tick)
  | [] => return []
  | tick :: ticks => do
    let symbolId ← getOrInsert tick.symbol
    insertMemtable (tick.toTick symbolId)
    countRow
    let rest ← multiLoop ticks
    return tick.toTick symbolId :: rest

def storeMulti (c : Codec) (env : Env) (ticks : List SymbolTick) : LsmOp Nat :=
  withGuard .memtable .write do
    let stored ← attempt (multiLoop ticks)
    let _ ← withGuard .wal .write (attempt (appendWalBatch c env (stored.map .insert)))
    gets fun st => st.1.memtable.len

/-- Bulk insert ticks across multiple symbols (single WAL fsync). -/
def insertMulti (p : Platform) (c : Codec) (env : Env) (ticks : List SymbolTick) : LsmOp Unit :=
  if ticks = [] then return ()
  else withGuard .symbolDict .write do
    let memtableLen ← storeMulti c env ticks
    flushIfFull p env memtableLen

/-- The ticks of the Insert entries, under this node's ids. -/
def resolve : List ReplicationEntry → LsmM (List Tick)
  | [] => return []
  | entry :: entries =>
    match entry.record, entry.symbol with
    | .insert tick, some symbol => do
      let symbolId ← getOrInsert symbol
      let rest ← resolve entries
      return tick.withSymbol symbolId :: rest
    | .insert tick, none => do
      let rest ← resolve entries
      return tick :: rest
    | _, _ => resolve entries

def insertResolved : List Tick → LsmM Unit
  | [] => return ()
  | tick :: ticks => do
    insertMemtable tick
    countRow
    insertResolved ticks

/-- `ReplicationTracker::advance`; the state file is written after the change. -/
def advance (env : Env) (sequence : Nat) : LsmM Unit := do
  let s ← current
  if sequence ≥ s.lastPrimarySequence.getD 0 then do
    update fun s => { s with lastPrimarySequence := some sequence }
    fileOp env (.replication .io)
  else return ()

/-- The first part of `apply_replication_batch`, up to the ticks in the memtable; each
guard is dropped before the next one is taken. -/
def storeReplicated (c : Codec) (env : Env) (entries : List ReplicationEntry) : LsmOp Nat := do
  let resolved ← withGuard .symbolDict .write (attempt (resolve entries))
  let _ ← withGuard .wal .write (attempt (appendWalBatch c env (resolved.map .insert)))
  withGuard .memtable .write do
    attempt (insertResolved resolved)
    gets fun st => st.1.memtable.len

/-- Apply a batch of replicated WAL entries (replica only). -/
def applyReplicationBatch (p : Platform) (c : Codec) (env : Env)
    (entries : List ReplicationEntry) : LsmOp Nat :=
  if entries = [] then return 0
  else do
    let role ← gets fun st => st.1.role
    if role ≠ .replica then throw (.error (.replication .notReplica))
    else do
      let maxSeq := ((entries.map ReplicationEntry.sequence).max?).getD 0
      let memtableLen ← storeReplicated c env entries
      flushIfFull p env memtableLen
      withGuard .replication .write (attempt (advance env maxSeq))
      return entries.length

/-- The tables of `get`, from the newest to the oldest. -/
def probeTables (env : Env) (key : Key) : List Table → LsmOp (Option Tick)
  | [] => return none
  | table :: tables =>
    match table.sst.mayContainKey key with
    | none => throw .panic
    | some false => probeTables env key tables
    | some true =>
      if table.sst.overlapsTimeRange key.timestamp key.timestamp &&
          table.sst.overlapsSymbol key.symbolId then do
        attempt (fileOp env (.ssTable .io))
        match (table.reopen.scan (some key.symbolId) key.timestamp key.timestamp).head? with
        | some tick => return some tick
        | none => probeTables env key tables
      else probeTables env key tables

def get (env : Env) (symbol : String) (timestamp : TimestampNs) : LsmOp (Option Tick) :=
  withGuard .symbolDict .read do
    let id ← gets fun st => st.1.symbolDict.getId symbol
    match id with
    | none => throw (.error (.symbolNotFound symbol))
    | some symbolId => do
      let found ← withGuard .memtable .read
        (gets fun st => st.1.memtable.get ⟨symbolId, timestamp⟩)
      match found with
      | some tick => return some tick
      | none => withGuard .compaction .read do
        let levels ← gets fun st => st.1.compaction.levels
        probeTables env ⟨symbolId, timestamp⟩ (levels.flatMap fun l => l.tables.reverse)

/-- The pushdown of a scan for a symbol. -/
def mayHold (table : Table) : Option SymbolId → LsmOp Bool
  | none => return true
  | some id => do
    let name ← withGuard .symbolDict .read
      (gets fun st => SsTable.symbolName st.1.symbolDict id)
    match table.sst.mayContainSymbol name with
    | none => throw .panic
    | some false => return false
    | some true => return table.sst.overlapsSymbol id

/-- The tables of `scan` in the order of the levels. -/
def scanTables (env : Env) (symbolId : Option SymbolId) (t1 t2 : TimestampNs) :
    List Table → LsmOp (List Tick)
  | [] => return []
  | table :: tables =>
    if !table.sst.overlapsTimeRange t1 t2 then scanTables env symbolId t1 t2 tables
    else do
      let held ← mayHold table symbolId
      if held then do
        attempt (fileOp env (.ssTable .io))
        let rest ← scanTables env symbolId t1 t2 tables
        return table.reopen.scan symbolId t1 t2 ++ rest
      else scanTables env symbolId t1 t2 tables

def lookUp (symbol : Option String) : LsmOp (Option SymbolId) :=
  match symbol with
  | none => return none
  | some symbol => withGuard .symbolDict .read do
    let id ← gets fun st => st.1.symbolDict.getId symbol
    match id with
    | none => throw (.error (.symbolNotFound symbol))
    | some symbolId => return some symbolId

def scan (env : Env) (symbol : Option String) (t1 t2 : TimestampNs) : LsmOp (List Tick) := do
  let symbolId ← lookUp symbol
  let inMemory ← withGuard .memtable .read
    (gets fun st => st.1.memtable.chain.filter (SsTable.selects symbolId t1 t2))
  withGuard .compaction .read do
    let levels ← gets fun st => st.1.compaction.levels
    let onDisk ← scanTables env symbolId t1 t2 (levels.flatMap Level.tables)
    return mergeRows Tick.key (inMemory ++ onDisk)

/-- The symbol's name goes with every Insert record. -/
def entryOf (dict : SymbolDictionary) (e : Nat × WalRecord) : ReplicationEntry where
  sequence := e.1
  record := e.2
  symbol := match e.2 with
    | .insert tick => dict.getSymbol tick.symbolId
    | _ => none

/-- Read WAL entries for replication streaming (primary only). -/
def readWalForReplication (c : Codec) (after : Option Nat) (limit : Nat) :
    LsmOp (List ReplicationEntry) := do
  let records ← withGuard .wal .read
    (attempt (onWal fun _ w => (Wal.readForReplication c w after limit, w)))
  withGuard .symbolDict .read (gets fun st => records.map (entryOf st.1.symbolDict))

end LsmTree

end Graphite
