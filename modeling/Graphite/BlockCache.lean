import Graphite.DoublyLinked
import Graphite.Types

/-! The block cache: nodes in a vector, linked in both directions, a map from keys to
slots, the free slots and a count of bytes. An index outside the vector and a subtraction
below zero are the failure `none`. -/

namespace Graphite
open BigEndian DoublyLinked

/-- Cache key: (sstable_id, block_offset). -/
structure CacheKey where
  sstableId : UInt64
  blockOffset : UInt64
  deriving DecidableEq, Repr

/-- Intrusive doubly-linked list node. -/
structure CacheNode where
  key : CacheKey
  data : Bytes
  prev : Option Nat
  next : Option Nat
  deriving DecidableEq, Repr

/-- LRU block cache with configurable capacity in bytes; the free slot that is used next
comes first. -/
structure BlockCache where
  capacity : Nat
  currentSize : Nat
  nodes : List CacheNode
  map : List (CacheKey × Nat)
  head : Option Nat
  tail : Option Nat
  freeList : List Nat
  hits : Nat
  misses : Nat
  deriving DecidableEq, Repr

namespace BlockCache

def new (capacityMb : Nat) : BlockCache where
  capacity := capacityMb * 1024 * 1024
  currentSize := 0
  nodes := []
  map := []
  head := none
  tail := none
  freeList := []
  hits := 0
  misses := 0

def get (c : BlockCache) (key : CacheKey) : Option (Option Bytes × BlockCache) :=
  match c.map.lookup key with
  | some idx => do
    let node ← c.nodes[idx]?
    return (some node.data, { c with hits := c.hits + 1 })
  | none => some (none, { c with misses := c.misses + 1 })

/-- `nodes[idx] = f(nodes[idx])` -/
def modifyNode (c : BlockCache) (idx : Nat) (f : CacheNode → CacheNode) : Option BlockCache :=
  c.nodes[idx]?.map fun node => { c with nodes := c.nodes.set idx (f node) }

def setPrev (c : BlockCache) (idx : Nat) (prev : Option Nat) : Option BlockCache :=
  c.modifyNode idx fun node => { node with prev }

def setNext (c : BlockCache) (idx : Nat) (next : Option Nat) : Option BlockCache :=
  c.modifyNode idx fun node => { node with next }

/-- `if let Some(i) = idx` -/
def ifSome (c : BlockCache) (idx : Option Nat) (f : BlockCache → Nat → Option BlockCache) :
    Option BlockCache :=
  match idx with
  | some i => f c i
  | none => some c

def allocNode (c : BlockCache) (key : CacheKey) (data : Bytes) : Option (Nat × BlockCache) :=
  let node : CacheNode := ⟨key, data, none, none⟩
  match c.freeList with
  | idx :: freeList =>
    ({ c with freeList }.modifyNode idx fun _ => node).map fun c => (idx, c)
  | [] => some (c.nodes.length, { c with nodes := c.nodes ++ [node] })

def addToHead (c : BlockCache) (idx : Nat) : Option BlockCache := do
  let c ← c.setPrev idx none
  let c ← c.setNext idx c.head
  let c ← c.ifSome c.head fun c h => c.setPrev h (some idx)
  let c := { c with head := some idx }
  return if c.tail = none then { c with tail := some idx } else c

def moveToHead (c : BlockCache) (idx : Nat) : Option BlockCache :=
  if c.head = some idx then some c
  else do
    let node ← c.nodes[idx]?
    let c ← c.ifSome node.prev fun c p => c.setNext p node.next
    let c ← c.ifSome node.next fun c n => c.setPrev n node.prev
    let c := if c.tail = some idx then { c with tail := node.prev } else c
    let c ← c.setPrev idx none
    let c ← c.setNext idx c.head
    let c ← c.ifSome c.head fun c h => c.setPrev h (some idx)
    return { c with head := some idx }

/-- `current_size -= size` -/
def shrink (c : BlockCache) (size : Nat) : Option BlockCache :=
  if size ≤ c.currentSize then some { c with currentSize := c.currentSize - size } else none

/-- `if let Some(p) = prev { nodes[p].next = None } else { head = None }` -/
def endAt (c : BlockCache) (prev : Option Nat) : Option BlockCache :=
  match prev with
  | some p => c.setNext p none
  | none => some { c with head := none }

def removeTail (c : BlockCache) : Option (Option Nat × BlockCache) :=
  match c.tail with
  | none => some (none, c)
  | some tailIdx => do
    let node ← c.nodes[tailIdx]?
    let c := { c with tail := node.prev }
    let c ← c.endAt node.prev
    let node ← c.nodes[tailIdx]?
    let c ← c.shrink node.data.length
    return (some tailIdx, { c with
      map := c.map.filter fun e => e.1 ≠ node.key
      freeList := tailIdx :: c.freeList })

/-- The loop of `evict_if_needed`; one that has not ended after so many rounds is `none`. -/
def evictLoop : (rounds : Nat) → BlockCache → Option BlockCache
  | 0, _ => none
  | rounds + 1, c =>
    if c.currentSize > c.capacity then do
      let removed ← c.removeTail
      evictLoop rounds removed.2
    else some c

/-- A round for each slot, and the one that finds nothing to do. -/
def evictIfNeeded (c : BlockCache) : Option BlockCache := evictLoop (c.nodes.length + 1) c

def insert (c : BlockCache) (key : CacheKey) (data : Bytes) : Option BlockCache :=
  if data.length > c.capacity then some c
  else
    match c.map.lookup key with
    | some idx => do
      let node ← c.nodes[idx]?
      let c ← c.shrink node.data.length
      let c ← c.modifyNode idx fun node => { node with data }
      let c := { c with currentSize := c.currentSize + data.length }
      let c ← c.moveToHead idx
      c.evictIfNeeded
    | none => do
      let (idx, c) ← c.allocNode key data
      let c := { c with
        map := (key, idx) :: c.map
        currentSize := c.currentSize + data.length }
      let c ← c.addToHead idx
      c.evictIfNeeded

def clear (c : BlockCache) : BlockCache :=
  { c with nodes := [], map := [], head := none, tail := none, freeList := [], currentSize := 0 }

/-- The pointers of the nodes. -/
def nodeLinks (nodes : List CacheNode) : Links Nat := fun i =>
  nodes[i]?.map fun node => (node.prev, node.next)

/-- The key and the data in a slot. -/
def nodeEntry (nodes : List CacheNode) (i : Nat) : Option (CacheKey × Bytes) :=
  nodes[i]?.map fun node => (node.key, node.data)

/-- The entries met on the way along the forward pointers, at most so many. -/
def walk (nodes : List CacheNode) : (steps : Nat) → (start : Option Nat) → List (CacheKey × Bytes)
  | 0, _ => []
  | _ + 1, none => []
  | steps + 1, some i =>
    match nodes[i]? with
    | some node => (node.key, node.data) :: walk nodes steps node.next
    | none => []

/-- What the cache holds, the most recently moved first. -/
def contents (c : BlockCache) : List (CacheKey × Bytes) := walk c.nodes c.nodes.length c.head

/-- The live slots in the order of the list, each with its links and its place in the map;
all others are free. The size is that of the live data. -/
structure Represents (c : BlockCache) (order : List Nat) : Prop where
  linked : Segment (nodeLinks c.nodes) none c.head order none
  nodup : order.Nodup
  tail : c.tail = order.getLast?
  mapped : ∀ key i, c.map.lookup key = some i ↔
    i ∈ order ∧ (nodeEntry c.nodes i).map Prod.fst = some key
  free : ∀ i, i ∈ c.freeList ↔ i < c.nodes.length ∧ i ∉ order
  freeNodup : c.freeList.Nodup
  size : c.currentSize = ((order.filterMap (nodeEntry c.nodes)).map fun e => e.2.length).sum

end BlockCache

end Graphite
