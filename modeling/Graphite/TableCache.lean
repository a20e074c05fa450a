import Graphite.BlockCacheInvariant
import Graphite.GuardedRuns
import Graphite.SsTable

/-! Tables that share a block cache. Files are found by path and stay readable through a
descriptor after they are removed; each `write` and each `open` takes the next table id from
one counter, and a scan looks for its data block under the id and the block's offset. The
lookup and the insert after a miss are separate steps, since the cache is locked for each. -/

namespace Graphite
open BigEndian GuardedRuns

/-- An open table: its id and its descriptor beside the rest; `write` opens its file for
writing only. -/
structure OpenTable where
  id : UInt64
  sst : SsTable
  inode : Nat
  readable : Bool
  deriving DecidableEq

namespace OpenTable

/-- What reading through the descriptor finds. -/
def file (t : OpenTable) (inodes : List Bytes) : Bytes :=
  if t.readable then inodes.getD t.inode [] else []

def cacheKey (t : OpenTable) : CacheKey := ⟨t.id, UInt64.ofNat t.sst.footer.dataOffset⟩

/-- `scan` with cache `None`. -/
def scan (p : Platform) (t : OpenTable) (inodes : List Bytes) (symbolId : Option SymbolId)
    (t1 t2 : TimestampNs) : Option (List Tick) :=
  t.sst.scan p (t.file inodes) symbolId t1 t2

end OpenTable

/-- How far a call of `write` gets with its file. -/
inductive Landing
  | refused
  | failed (reached : Nat)
  | done
  deriving DecidableEq, Repr

/-- The counter of table ids, the files, the open tables, the cache, and the blocks read
after a miss that are still to be inserted; a cache that failed is `none`. -/
structure TableWorld where
  counter : UInt64
  inodes : List Bytes
  dir : List (String × Nat)
  tables : List OpenTable
  cache : Option BlockCache
  pending : List (CacheKey × Bytes)
  deriving DecidableEq

inductive TableEvent
  | write (path : String) (ticks : List Tick) (level : Nat) (dict : SymbolDictionary)
    (landing : Landing)
  | open_ (path : String)
  | remove (path : String)
  | drop (n : Nat)
  | scan (n : Nat) (symbolId : Option SymbolId) (t1 t2 : TimestampNs)
  | store (n : Nat)
  deriving DecidableEq

namespace TableWorld

/-- The process at its start, with these files. -/
def start (capacityMb : Nat) (files : List (String × Bytes)) : TableWorld where
  counter := 1
  inodes := files.map Prod.snd
  dir := (files.map Prod.fst).zipIdx
  tables := []
  cache := some (BlockCache.new capacityMb)
  pending := []

/-- The file of that path, emptied, or a new one. -/
def create (w : TableWorld) (path : String) : Nat × TableWorld :=
  match w.dir.lookup path with
  | some inode => (inode, { w with inodes := w.inodes.set inode [] })
  | none => (w.inodes.length,
      { w with inodes := w.inodes ++ [[]], dir := (path, w.inodes.length) :: w.dir })

/-- `SsTable::write`; a panic comes before the first byte. -/
def write (p : Platform) (w : TableWorld) (path : String) (ticks : List Tick) (level : Nat)
    (dict : SymbolDictionary) (landing : Landing) : TableWorld :=
  let id := w.counter
  let w := { w with counter := w.counter + 1 }
  if landing = .refused then w
  else
    let (inode, w) := w.create path
    match SsTable.write p path ticks level dict, landing with
    | some (bytes, sst), .done => { w with
        inodes := w.inodes.set inode bytes
        tables := w.tables ++ [⟨id, sst, inode, false⟩] }
    | some (bytes, _), .failed reached =>
      { w with inodes := w.inodes.set inode (bytes.take reached) }
    | _, _ => w

/-- `SsTable::open` -/
def openTable (w : TableWorld) (path : String) : TableWorld :=
  let id := w.counter
  let w := { w with counter := w.counter + 1 }
  match w.dir.lookup path with
  | none => w
  | some inode =>
    match SsTable.openBytes path (w.inodes.getD inode []) with
    | .ok sst => { w with tables := w.tables ++ [⟨id, sst, inode, true⟩] }
    | .error _ => w

/-- `SsTable::scan` up to the insert: the answer, and the block when it had to be read. -/
def scan (p : Platform) (w : TableWorld) (t : OpenTable) (symbolId : Option SymbolId)
    (t1 t2 : TimestampNs) : Option (List Tick) × TableWorld :=
  if !t.sst.overlapsTimeRange t1 t2 then (some [], w)
  else if !symbolId.all t.sst.overlapsSymbol then (some [], w)
  else
    match w.cache.bind (·.get t.cacheKey) with
    | none => (none, { w with cache := none })
    | some (some data, cache) =>
      (SsTable.decodeTicks p data symbolId t1 t2, { w with cache := some cache })
    | some (none, cache) =>
      match t.sst.readDataBlock (t.file w.inodes) with
      | none => (none, { w with cache := some cache })
      | some data => (SsTable.decodeTicks p data symbolId t1 t2,
          { w with cache := some cache, pending := w.pending ++ [(t.cacheKey, data)] })

/-- The insert after a miss. -/
def store (w : TableWorld) (n : Nat) : TableWorld :=
  match w.pending[n]? with
  | none => w
  | some (key, data) =>
    { w with cache := w.cache.bind (·.insert key data), pending := w.pending.eraseIdx n }

def step (p : Platform) (w : TableWorld) : TableEvent → TableWorld
  | .write path ticks level dict landing => w.write p path ticks level dict landing
  | .open_ path => w.openTable path
  | .remove path => { w with dir := w.dir.filter fun e => e.1 ≠ path }
  | .drop n => { w with tables := w.tables.eraseIdx n }
  | .scan n symbolId t1 t2 =>
    match w.tables[n]? with
    | some t => (w.scan p t symbolId t1 t2).2
    | none => w
  | .store n => w.store n

/-- A file is not written while a table has it open. -/
def LeavesOpenFiles (w : TableWorld) : TableEvent → Prop
  | .write path _ _ _ _ => ∀ t ∈ w.tables, w.dir.lookup path ≠ some t.inode
  | _ => True

instance (w : TableWorld) : (event : TableEvent) → Decidable (w.LeavesOpenFiles event)
  | .write path _ _ _ _ =>
    inferInstanceAs (Decidable (∀ t ∈ w.tables, w.dir.lookup path ≠ some t.inode))
  | .open_ _ | .remove _ | .drop _ | .scan _ _ _ _ | .store _ => isTrue trivial

/-- Every scan of an open table answers as without the cache. -/
def Transparent (p : Platform) (w : TableWorld) : Prop :=
  ∀ t ∈ w.tables, ∀ symbolId t1 t2,
    (w.scan p t symbolId t1 t2).1 = t.scan p w.inodes symbolId t1 t2

end TableWorld

/-- The events that take a table id. -/
def TableEvent.takesId : TableEvent → Bool
  | .write _ _ _ _ _ | .open_ _ => true
  | _ => false

end Graphite
