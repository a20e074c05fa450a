import Graphite.Bloom
import Graphite.Columns
import Graphite.SymbolDictionary

/-! SSTable format: columnar data block, sparse index, bloom filter, metadata, footer.
`write` builds the bytes of the whole file and the table kept in memory; `openBytes`
parses them again. Slicing outside a buffer panics. -/

namespace Graphite
open BigEndian

inductive SsTableError where
  | io
  | corrupt (reason : String)
  deriving DecidableEq, Repr

/-- SSTable metadata stored in footer. -/
structure SsTableMeta where
  minTimestamp : TimestampNs
  maxTimestamp : TimestampNs
  minSymbolId : SymbolId
  maxSymbolId : SymbolId
  rowCount : Nat
  fileSize : Nat
  level : Nat
  deriving DecidableEq

/-- Index entry pointing to a data block offset. -/
structure IndexEntry where
  key : Key
  blockOffset : Nat
  blockSize : Nat
  deriving DecidableEq

/-- Footer offsets for SSTable sections. -/
structure Footer where
  dataOffset : Nat
  dataSize : Nat
  indexOffset : Nat
  indexSize : Nat
  bloomOffset : Nat
  bloomSize : Nat
  metaOffset : Nat
  metaSize : Nat
  deriving DecidableEq

structure SsTable where
  path : String
  tableMeta : SsTableMeta
  index : List IndexEntry
  bloom : BloomFilter
  symbolDict : SymbolDictionary
  footer : Footer
  deriving DecidableEq

namespace SsTable

def MAGIC : Nat := 0x53535442

def VERSION : Nat := 1

/-- `get_symbol(id).unwrap_or("UNKNOWN")` -/
def symbolName (dict : SymbolDictionary) (id : SymbolId) : String :=
  (dict.getSymbol id).getD "UNKNOWN"

/-- Each tick puts its key and its symbol's name into the filter. -/
def insertTicks (dict : SymbolDictionary) : List Tick → BloomFilter → Option BloomFilter
  | [], bloom => some bloom
  | tick :: ticks, bloom => do
    let bloom ← bloom.insert tick.key.encode
    let bloom ← bloom.insert (asBytes (symbolName dict tick.symbolId))
    insertTicks dict ticks bloom

def buildBloom (p : Platform) (ticks : List Tick) (dict : SymbolDictionary) : Option BloomFilter :=
  insertTicks dict ticks (BloomFilter.new p (max ticks.length 1))

/-- The seven columns in the order of the file. -/
def encodeColumns (p : Platform) (ticks : List Tick) (level : Nat) : Option (List Bytes) := do
  let tsCol ← Delta.encode (ticks.map Tick.timestamp)
  return [tsCol,
    Gorilla.encodeDoubleDelta p (ticks.map Tick.open_),
    Gorilla.encodeDoubleDelta p (ticks.map Tick.high),
    Gorilla.encodeDoubleDelta p (ticks.map Tick.low),
    Gorilla.encodeDoubleDelta p (ticks.map Tick.close),
    RleLz4.encodeForLevel p (ticks.map Tick.volume) level,
    SymbolDictionary.encodeIds (ticks.map Tick.symbolId)]

def commonPrefix (a b : Bytes) : Nat := ((a.zip b).takeWhile fun e => e.1 == e.2).length

/-- A prefix-compressed key and its row number. -/
def keyEntry (prev : Option Key) (i : Nat) (key : Key) : Bytes :=
  let fullKey := key.encode
  let prefixLen := (prev.map fun k => commonPrefix fullKey k.encode).getD 0
  UInt8.ofNat prefixLen :: (fullKey.drop prefixLen ++ encode 4 i)

/-- `entry.block_size = data_buf.len() as u32 - entry.block_offset as u32` for the last
entry, in `u32` arithmetic. -/
def closeBlock (index : List IndexEntry) (dataLen : Nat) : Option (List IndexEntry) :=
  match index.getLast? with
  | none => some index
  | some entry =>
    if entry.blockOffset % 2 ^ 32 ≤ dataLen % 2 ^ 32 then
      some (index.dropLast ++
        [{ entry with blockSize := dataLen % 2 ^ 32 - entry.blockOffset % 2 ^ 32 }])
    else none

/-- The loop over the ticks that fills the key section and the index. -/
def keyLoop (count : Nat) :
    (i : Nat) → Option Key → Bytes → List IndexEntry → List Tick → Option (Bytes × List IndexEntry)
  | _, _, dataBuf, index, [] => some (dataBuf, index)
  | i, prevKey, dataBuf, index, tick :: ticks => do
    let key := tick.key
    let index := if i % INDEX_INTERVAL = 0 then index ++ [⟨key, dataBuf.length, 0⟩] else index
    let dataBuf := dataBuf ++ keyEntry prevKey i key
    let index ← (if dataBuf.length ≥ BLOCK_SIZE ∧ i < count - 1 then
      closeBlock index dataBuf.length else some index)
    keyLoop count (i + 1) (some key) dataBuf index ticks

/-- What `write` assembles before it touches the file. -/
structure DataBlock where
  dataBuf : Bytes
  index : List IndexEntry
  colOffset : Nat

/-- Key entries, then the seven column sizes, then the columns. -/
def buildData (p : Platform) (ticks : List Tick) (level : Nat) : Option DataBlock := do
  let columns ← encodeColumns p ticks level
  let (keyBuf, index) ← keyLoop ticks.length 0 none [] [] ticks
  let index ← closeBlock index keyBuf.length
  let sizes := columns.flatMap fun col => encode 4 col.length
  return ⟨keyBuf ++ sizes ++ columns.flatten, index, keyBuf.length⟩

def indexBytes (index : List IndexEntry) : Bytes :=
  encode 4 index.length ++ index.flatMap fun entry =>
    entry.key.encode ++ encode 8 entry.blockOffset ++ encode 4 entry.blockSize

/-- First and last tick give the time bounds, all ticks the symbol bounds. -/
def buildMeta (ticks : List Tick) (level : Nat) : SsTableMeta where
  minTimestamp := (ticks.head?.map Tick.timestamp).getD 0
  maxTimestamp := (ticks.getLast?.map Tick.timestamp).getD 0
  minSymbolId := ((ticks.map Tick.symbolId).min?).getD 0
  maxSymbolId := ((ticks.map Tick.symbolId).max?).getD 0
  rowCount := ticks.length
  fileSize := 0
  level := level

def metaBytes (m : SsTableMeta) (colOffset : Nat) (dict : SymbolDictionary) : Bytes :=
  encodeI64 m.minTimestamp ++ encodeI64 m.maxTimestamp ++ encode 2 m.minSymbolId.toNat ++
    encode 2 m.maxSymbolId.toNat ++ encode 8 m.rowCount ++ encode 4 m.level ++
    encode 8 colOffset ++ encode 4 dict.toMetadata.length ++ dict.toMetadata

def footerBytes (f : Footer) : Bytes :=
  encode 8 f.dataOffset ++ encode 8 f.dataSize ++ encode 8 f.indexOffset ++ encode 8 f.indexSize ++
    encode 8 f.bloomOffset ++ encode 8 f.bloomSize ++ encode 8 f.metaOffset ++ encode 8 f.metaSize

/-- The footer that follows from the sizes; `data_offset = 8u64 // after header`. -/
def layout (dataSize indexSize bloomSize metaSize : Nat) : Footer where
  dataOffset := 8
  dataSize := dataSize
  indexOffset := 8 + dataSize
  indexSize := indexSize
  bloomOffset := 8 + dataSize + indexSize
  bloomSize := bloomSize
  metaOffset := 8 + dataSize + indexSize + bloomSize
  metaSize := metaSize

/-- Write a new SSTable from sorted ticks: the file's bytes and the table in memory. -/
def write (p : Platform) (path : String) (ticks : List Tick) (level : Nat)
    (symbolDict : SymbolDictionary) : Option (Bytes × SsTable) := do
  let bloom ← buildBloom p ticks symbolDict
  let data ← buildData p ticks level
  let tableMeta := buildMeta ticks level
  let indexBuf := indexBytes data.index
  let bloomBuf := bloom.toBytes
  let metaBuf := metaBytes tableMeta data.colOffset symbolDict
  let footer := layout data.dataBuf.length indexBuf.length bloomBuf.length metaBuf.length
  let file := encode 4 MAGIC ++ encode 2 VERSION ++ data.dataBuf ++ indexBuf ++ bloomBuf ++
    metaBuf ++ footerBytes footer
  return (file,
    ⟨path, { tableMeta with fileSize := file.length }, data.index, bloom, symbolDict, footer⟩)

/-- `buf[lo..hi].try_into().unwrap()` -/
def field (buf : Bytes) (lo hi : Nat) : Except (Stop SsTableError) Bytes :=
  match slice buf lo hi with
  | some bytes => .ok bytes
  | none => .error .panic

/-- `seek(SeekFrom::Start(offset))`, `vec![0u8; size]`, `read_exact`. Seeking past the end
of a file is fine as long as nothing is read there. -/
def readSection (file : Bytes) (offset size : Nat) : Except (Stop SsTableError) Bytes :=
  if 2 ^ 63 ≤ offset then .error (.error .io)
  else if 2 ^ 63 ≤ size then .error .panic
  else if size = 0 then .ok []
  else match slice file offset (offset + size) with
    | some bytes => .ok bytes
    | none => .error (.error .io)

def readFooter (file : Bytes) : Except (Stop SsTableError) Footer := do
  if file.length < 64 then throw .panic
  let buf ← readSection file (file.length - 64) 64
  let u64 := fun (i : Nat) => decode ((buf.drop (8 * i)).take 8)
  return ⟨u64 0, u64 1, u64 2, u64 3, u64 4, u64 5, u64 6, u64 7⟩

def readMetadata (file : Bytes) (footer : Footer) : Except (Stop SsTableError) SsTableMeta := do
  let buf ← readSection file footer.metaOffset footer.metaSize
  let minTs ← field buf 0 8
  let maxTs ← field buf 8 16
  let minSym ← field buf 16 18
  let maxSym ← field buf 18 20
  let rowCount ← field buf 20 28
  let level ← field buf 28 32
  return ⟨decodeI64 minTs, decodeI64 maxTs, UInt16.ofNat (decode minSym),
    UInt16.ofNat (decode maxSym), decode rowCount, 0, decode level⟩

def indexLoop (buf : Bytes) : (count offset : Nat) → Except (Stop SsTableError) (List IndexEntry)
  | 0, _ => .ok []
  | count + 1, offset => do
    let keyBuf ← field buf offset (offset + 10)
    let blockOffset ← field buf (offset + 10) (offset + 18)
    let blockSize ← field buf (offset + 18) (offset + 22)
    let rest ← indexLoop buf count (offset + 22)
    return ⟨⟨UInt16.ofNat (decode (keyBuf.take 2)), decodeI64 (keyBuf.drop 2)⟩,
      decode blockOffset, decode blockSize⟩ :: rest

def readIndex (file : Bytes) (footer : Footer) : Except (Stop SsTableError) (List IndexEntry) := do
  let buf ← readSection file footer.indexOffset footer.indexSize
  let count ← field buf 0 4
  indexLoop buf (decode count) 4

def readBloom (file : Bytes) (footer : Footer) : Except (Stop SsTableError) BloomFilter := do
  let buf ← readSection file footer.bloomOffset footer.bloomSize
  match BloomFilter.fromEncoded buf with
  | some bloom => return bloom
  | none => throw (.error (.corrupt "bad bloom filter"))

/-- The dictionary sits behind the fixed fields and `col_offset`. -/
def readSymbolDict (file : Bytes) (footer : Footer) :
    Except (Stop SsTableError) SymbolDictionary := do
  let buf ← readSection file footer.metaOffset footer.metaSize
  let dictLen ← field buf 40 44
  let dictData ← field buf 44 (44 + decode dictLen)
  return SymbolDictionary.fromMetadata dictData

/-- Open an existing SSTable for reading. -/
def openBytes (path : String) (file : Bytes) : Except (Stop SsTableError) SsTable := do
  let magicBuf ← readSection file 0 4
  if decode magicBuf ≠ MAGIC then throw (.error (.corrupt "bad magic"))
  let _ ← readSection file 4 2
  let footer ← readFooter file
  let tableMeta ← readMetadata file footer
  let index ← readIndex file footer
  let bloom ← readBloom file footer
  let symbolDict ← readSymbolDict file footer
  return ⟨path, tableMeta, index, bloom, symbolDict, footer⟩

/-- Check bloom filter for symbol predicate pushdown. -/
def mayContainSymbol (t : SsTable) (symbol : String) : Option Bool :=
  t.bloom.contains (asBytes symbol)

def mayContainKey (t : SsTable) (key : Key) : Option Bool := t.bloom.contains key.encode

/-- Check if SSTable overlaps a time range. -/
def overlapsTimeRange (t : SsTable) (t1 t2 : TimestampNs) : Bool :=
  t.tableMeta.maxTimestamp ≥ t1 && t.tableMeta.minTimestamp ≤ t2

/-- Check if SSTable overlaps a symbol ID range. -/
def overlapsSymbol (t : SsTable) (symbolId : SymbolId) : Bool :=
  symbolId ≥ t.tableMeta.minSymbolId && symbolId ≤ t.tableMeta.maxSymbolId

/-- Seeking and reading are unwrapped. -/
def readDataBlock (t : SsTable) (file : Bytes) : Option Bytes :=
  match readSection file t.footer.dataOffset t.footer.dataSize with
  | .ok bytes => some bytes
  | .error _ => none

/-- The row filter of a scan. -/
def selects (symbolId : Option SymbolId) (t1 t2 : TimestampNs) (tick : Tick) : Bool :=
  t1 ≤ tick.timestamp && tick.timestamp ≤ t2 && symbolId.all (· == tick.symbolId)

/-- Cut consecutive columns of the given sizes off the data. -/
def sliceColumns (data : Bytes) : (offset : Nat) → List Nat → Option (List Bytes)
  | _, [] => some []
  | offset, size :: sizes => do
    let col ← slice data offset (offset + size)
    let cols ← sliceColumns data (offset + size) sizes
    return col :: cols

/-- The column sizes are looked for in the last 28 bytes of the data. -/
def columnSizes (data : Bytes) : List Nat :=
  (List.range 7).map fun i => decode ((data.drop (data.length - 28 + i * 4)).take 4)

def decodeTicks (p : Platform) (data : Bytes) (symbolId : Option SymbolId) (t1 t2 : TimestampNs) :
    Option (List Tick) :=
  if data.length < 28 then some []
  else do
    let cols ← sliceColumns data (data.length - 28 + 28) (columnSizes data)
    let col := fun (i : Nat) => cols.getD i []
    let timestamps ← Delta.decode (col 0)
    let opens ← Gorilla.decodeDoubleDelta p (col 1)
    let highs ← Gorilla.decodeDoubleDelta p (col 2)
    let lows ← Gorilla.decodeDoubleDelta p (col 3)
    let closes ← Gorilla.decodeDoubleDelta p (col 4)
    let volumes := RleLz4.decode p (col 5)
    let symbolIds := SymbolDictionary.decodeIds (col 6)
    let rows := (List.range timestamps.length).map fun i =>
      (⟨symbolIds.getD i 0, timestamps.getD i 0, opens.getD i ⟨0⟩, highs.getD i ⟨0⟩,
        lows.getD i ⟨0⟩, closes.getD i ⟨0⟩, volumes.getD i 0⟩ : Tick)
    return rows.filter (selects symbolId t1 t2)

/-- Read all ticks matching filters. -/
def scan (p : Platform) (t : SsTable) (file : Bytes) (symbolId : Option SymbolId)
    (t1 t2 : TimestampNs) : Option (List Tick) :=
  if !t.overlapsTimeRange t1 t2 then some []
  else if !symbolId.all t.overlapsSymbol then some []
  else do
    let data ← t.readDataBlock file
    decodeTicks p data symbolId t1 t2

end SsTable

end Graphite
