import Graphite.BlockCacheInvariant
import Graphite.CrashPoints
import Graphite.GuardedRuns
import Graphite.ScanIter

/-! The queries with the block cache. Every query opens the files of its tables anew, every
open takes a new table id, and the cache is asked under that id. -/

namespace Graphite
open BigEndian KeyedRows LockProgram

/-- The counter of table ids, the cache, and the tables whose data block was read from the
file, in this order. -/
structure Blocks where
  counter : UInt64
  cache : BlockCache
  reads : List Table
  deriving DecidableEq

namespace Blocks

def start (counter : UInt64) (capacityMb : Nat) : Blocks := ⟨counter, .new capacityMb, []⟩

/-- The data block in `SsTable::scan`; `none` is a panic in the cache. -/
def fetch (block : Table → Bytes) (t : Table) (id : UInt64) (b : Blocks) : Option Blocks := do
  let key : CacheKey := ⟨id, UInt64.ofNat t.sst.footer.dataOffset⟩
  let (found, cache) ← b.cache.get key
  match found with
  | some _ => return { b with cache }
  | none =>
    let cache ← cache.insert key (block t)
    return { b with cache, reads := b.reads ++ [t] }

/-- `SsTable::open` and then `SsTable::scan` with the cache; `opens` says whether the file
can be opened. -/
def openScan (block : Table → Bytes) (t : Table) (symbolId : Option SymbolId)
    (t1 t2 : TimestampNs) (opens : Bool) (b : Blocks) : Option Blocks :=
  let id := b.counter
  let b := { b with counter := b.counter + 1 }
  if !opens then some b
  else if !t.sst.overlapsTimeRange t1 t2 then some b
  else if !symbolId.all t.sst.overlapsSymbol then some b
  else b.fetch block t id

end Blocks

abbrev CachedOp := Op Lock ((LsmTree × Nat) × Blocks) (Stop LsmError)

namespace LsmTree

variable (block : Table → Bytes) (env : Env)

/-- `open_sstable` and the scan of the table. -/
def openScan (t : Table) (symbolId : Option SymbolId) (t1 t2 : TimestampNs) :
    CachedOp (List Tick) :=
  attempt fun ((s, time), b) =>
    match b.openScan block t symbolId t1 t2 (env.io time) with
    | none => (.error .panic, ((s, time + 1), b))
    | some b =>
      (if env.io time then .ok (t.reopen.scan symbolId t1 t2) else .error (.error (.ssTable .io)),
        ((s, time + 1), b))

def probeTablesCached (key : Key) : List Table → CachedOp (Option Tick)
  | [] => return none
  | table :: tables =>
    match table.sst.mayContainKey key with
    | none => throw .panic
    | some false => probeTablesCached key tables
    | some true =>
      if table.sst.overlapsTimeRange key.timestamp key.timestamp &&
          table.sst.overlapsSymbol key.symbolId then do
        let ticks ← openScan block env table (some key.symbolId) key.timestamp key.timestamp
        match ticks.head? with
        | some tick => return some tick
        | none => probeTablesCached key tables
      else probeTablesCached key tables

def getCached (symbol : String) (timestamp : TimestampNs) : CachedOp (Option Tick) :=
  withGuard .symbolDict .read do
    let id ← beside (gets fun st => st.1.symbolDict.getId symbol)
    match id with
    | none => throw (.error (.symbolNotFound symbol))
    | some symbolId => do
      let found ← beside (withGuard .memtable .read
        (gets fun st => st.1.memtable.get ⟨symbolId, timestamp⟩))
      match found with
      | some tick => return some tick
      | none => withGuard .compaction .read do
        let levels ← beside (gets fun st => st.1.compaction.levels)
        probeTablesCached block env ⟨symbolId, timestamp⟩ (levels.flatMap fun l => l.tables.reverse)

def scanTablesCached (symbolId : Option SymbolId) (t1 t2 : TimestampNs) :
    List Table → CachedOp (List Tick)
  | [] => return []
  | table :: tables =>
    if !table.sst.overlapsTimeRange t1 t2 then scanTablesCached symbolId t1 t2 tables
    else do
      let held ← beside (mayHold table symbolId)
      if held then do
        let ticks ← openScan block env table symbolId t1 t2
        let rest ← scanTablesCached symbolId t1 t2 tables
        return ticks ++ rest
      else scanTablesCached symbolId t1 t2 tables

def scanCached (symbol : Option String) (t1 t2 : TimestampNs) : CachedOp (List Tick) := do
  let symbolId ← beside (lookUp symbol)
  let inMemory ← beside (withGuard .memtable .read
    (gets fun st => st.1.memtable.chain.filter (SsTable.selects symbolId t1 t2)))
  withGuard .compaction .read do
    let levels ← beside (gets fun st => st.1.compaction.levels)
    let onDisk ← scanTablesCached block env symbolId t1 t2 (levels.flatMap Level.tables)
    return mergeRows Tick.key (inMemory ++ onDisk)

end LsmTree

namespace ScanStream

variable (block : Table → Bytes) (opens : Table → Bool)

/-- `load_next_sstable_batch` with the cache. -/
def loadCached (s : ScanStream) (b : Blocks) : Option (ScanStream × Blocks) :=
  match s.sstables[s.sstableIdx]? with
  | none => some (s, b)
  | some table => do
    let b ← b.openScan block table s.params.symbolId s.params.t1 s.params.t2 (opens table)
    return (s.loadNextSstableBatch opens, b)

def ensureCached (s : ScanStream) (b : Blocks) : Option (ScanStream × Blocks) :=
  if s.currentBatch.length ≤ s.currentBatchIdx ∧ s.sstableIdx < s.sstables.length then
    s.loadCached block opens b
  else some (s, b)

/-- The loop of `next_tick` with the cache. -/
def nextTickCached : Nat → ScanStream → Blocks → Option (Option Tick × ScanStream × Blocks)
  | 0, _, _ => none
  | fuel + 1, s, b => do
    let (s, b) ← s.ensureCached block opens b
    match s.pick with
    | none => some (none, s, b)
    | some (next, s) =>
      if s.lastKey = some next.key then nextTickCached fuel s b
      else some (some next, { s with lastKey := some next.key }, b)

end ScanStream

end Graphite
