import Graphite.LsmReads
import Graphite.StreamMerge

/-! The streaming scan: the memtable's rows are taken when the stream is made, the tables
are opened one at a time while it is read. A table stands for the path of its file. -/

namespace Graphite
open KeyedRows LockProgram StreamMerge

/-- Parameters for a streaming scan. -/
structure ScanParams where
  symbolId : Option SymbolId
  t1 : TimestampNs
  t2 : TimestampNs
  deriving DecidableEq

/-- Lazily loads one table at a time and merges with memtable ticks in order. -/
structure ScanStream where
  memtableTicks : List Tick
  memtableIdx : Nat
  sstables : List Table
  sstableIdx : Nat
  currentBatch : List Tick
  currentBatchIdx : Nat
  params : ScanParams
  lastKey : Option Key
  deriving DecidableEq

namespace ScanStream

/-- The symbol pushdown; a bloom filter without bits is a panic. -/
def pushdown (dict : SymbolDictionary) (table : Table) : Option SymbolId → Option Bool
  | none => some true
  | some id => do
    let bloom ← table.sst.mayContainSymbol (SsTable.symbolName dict id)
    return bloom && table.sst.overlapsSymbol id

/-- The tables that the bounds and the bloom filter let the query through to. -/
def selectTables (dict : SymbolDictionary) (params : ScanParams) : List Table → Option (List Table)
  | [] => some []
  | table :: tables =>
    if !table.sst.overlapsTimeRange params.t1 params.t2 then selectTables dict params tables
    else do
      let selected ← pushdown dict table params.symbolId
      let rest ← selectTables dict params tables
      return if selected then table :: rest else rest

def memtableRows (memtable : SkipList) (params : ScanParams) : List Tick :=
  memtable.chain.filter (SsTable.selects params.symbolId params.t1 params.t2)

def new (memtable : SkipList) (compaction : CompactionManager) (dict : SymbolDictionary)
    (params : ScanParams) : Option ScanStream := do
  let sstables ← selectTables dict params (compaction.levels.flatMap Level.tables)
  return {
    memtableTicks := sortRows Tick.key (memtableRows memtable params)
    memtableIdx := 0
    sstables
    sstableIdx := 0
    currentBatch := []
    currentBatchIdx := 0
    params
    lastKey := none }

/-- The rows of a table, as a stream reads them from its file. -/
def batchOf (params : ScanParams) (table : Table) : List Tick :=
  sortRows Tick.key (table.reopen.scan params.symbolId params.t1 params.t2)

/-- `opens` says which files can be opened. -/
def loadNextSstableBatch (opens : Table → Bool) (s : ScanStream) : ScanStream :=
  match s.sstables[s.sstableIdx]? with
  | none => s
  | some table =>
    if opens table then
      { s with
        sstableIdx := s.sstableIdx + 1
        currentBatch := batchOf s.params table
        currentBatchIdx := 0 }
    else { s with sstableIdx := s.sstableIdx + 1 }

def peekMemtable (s : ScanStream) : Option Tick := s.memtableTicks[s.memtableIdx]?

def peekSstable (s : ScanStream) : Option Tick := s.currentBatch[s.currentBatchIdx]?

def advanceMemtable (s : ScanStream) : ScanStream := { s with memtableIdx := s.memtableIdx + 1 }

def advanceSstable (s : ScanStream) : ScanStream :=
  if s.currentBatch.length ≤ s.currentBatchIdx + 1 then
    { s with currentBatch := [], currentBatchIdx := 0 }
  else { s with currentBatchIdx := s.currentBatchIdx + 1 }

def ensureSstableBatch (opens : Table → Bool) (s : ScanStream) : ScanStream :=
  if s.currentBatch.length ≤ s.currentBatchIdx ∧ s.sstableIdx < s.sstables.length then
    s.loadNextSstableBatch opens
  else s

/-- The smaller of the two next ticks, past which the stream moves. -/
def pick (s : ScanStream) : Option (Tick × ScanStream) :=
  match s.peekMemtable, s.peekSstable with
  | none, none => none
  | some m, none => some (m, s.advanceMemtable)
  | none, some x => some (x, s.advanceSstable)
  | some m, some x =>
    if m.key < x.key then some (m, s.advanceMemtable)
    else if m.key = x.key then some (m, s.advanceMemtable.advanceSstable)
    else some (x, s.advanceSstable)

/-- The loop of `next_tick`, which goes round once more for every repeated key. -/
def nextTickLoop (opens : Table → Bool) : Nat → ScanStream → Option (Option Tick × ScanStream)
  | 0, _ => none
  | fuel + 1, s =>
    match (s.ensureSstableBatch opens).pick with
    | none => some (none, s.ensureSstableBatch opens)
    | some (next, s) =>
      if s.lastKey = some next.key then nextTickLoop opens fuel s
      else some (some next, { s with lastKey := some next.key })

/-- More rows than this the stream never goes through. -/
def totalRows (s : ScanStream) : Nat :=
  s.memtableTicks.length + (s.sstables.map fun table => table.rows.length).sum

/-- Next tick in sorted order, deduplicated by key. -/
def nextTick (opens : Table → Bool) (s : ScanStream) : Option (Option Tick × ScanStream) :=
  s.nextTickLoop opens (s.totalRows + 1)

def collectLoop (opens : Table → Bool) : Nat → ScanStream → Option (List Tick)
  | 0, _ => none
  | fuel + 1, s => do
    match ← s.nextTick opens with
    | (none, _) => return []
    | (some tick, s) =>
      let rest ← collectLoop opens fuel s
      return tick :: rest

/-- The ticks that the stream gives before its first `None`. -/
def collect (opens : Table → Bool) (s : ScanStream) : Option (List Tick) :=
  s.collectLoop opens (s.totalRows + 1)

end ScanStream

namespace LsmTree

/-- Stream ticks in sorted order without materializing the full result set. -/
def scanStream (symbol : Option String) (t1 t2 : TimestampNs) : LsmOp ScanStream := do
  let symbolId ← lookUp symbol
  withGuard .compaction .read do
    withGuard .memtable .read do
      withGuard .symbolDict .read do
        let stream ← gets fun st =>
          ScanStream.new st.1.memtable st.1.compaction st.1.symbolDict ⟨symbolId, t1, t2⟩
        match stream with
        | none => throw .panic
        | some stream => return stream

end LsmTree

end Graphite
