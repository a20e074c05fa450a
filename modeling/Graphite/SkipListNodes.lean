import Mathlib.Data.List.Dedup
import Graphite.LinkedChain
import Graphite.SkipList

/-! The skip list as it is stored: nodes on the heap, every one with a pointer for each
level. Reading or freeing a pointer that is null or dangling, and an index outside an
array, is the failure `none`. -/

namespace Graphite
open KeyedRows LinkedChain

def MAX_LEVEL : Nat := 16

structure Node where
  key : Key
  tick : Tick
  forward : Vector (Option Nat) (MAX_LEVEL + 1)
  deriving DecidableEq

/-- `Box::into_raw` gives out a new address; a freed cell is never used again. -/
abbrev NodeHeap := List (Option Node)

namespace NodeHeap

def read (heap : NodeHeap) (p : Nat) : Option Node := heap[p]?.join

def write (heap : NodeHeap) (p : Nat) (node : Node) : Option NodeHeap :=
  (read heap p).map fun _ => heap.set p (some node)

/-- `drop(Box::from_raw(p))`. -/
def free (heap : NodeHeap) (p : Nat) : Option NodeHeap :=
  (read heap p).map fun _ => heap.set p none

/-- `(*p).forward[i]`. -/
def forward (heap : NodeHeap) (i p : Nat) : Option (Option Nat) :=
  (read heap p).bind fun node => node.forward[i]?

/-- `(*p).forward[i] = next`. -/
def setForward (heap : NodeHeap) (i p : Nat) (next : Option Nat) : Option NodeHeap :=
  (read heap p).bind fun node =>
    if h : i < MAX_LEVEL + 1 then
      write heap p { node with forward := node.forward.set i next h }
    else none

/-- What a node says about its row. -/
def row (heap : NodeHeap) (p : Nat) : Option (Key × Tick) :=
  (read heap p).map fun node => (node.key, node.tick)

theorem lt_length_of_read {heap : NodeHeap} {p : Nat} {node : Node}
    (h : read heap p = some node) : p < heap.length := by
  by_contra hlt
  rw [read, List.getElem?_eq_none (not_lt.mp hlt)] at h
  cases h

theorem read_set {heap : NodeHeap} {p : Nat} (hp : p < heap.length) (cell : Option Node)
    (q : Nat) : read (heap.set p cell) q = if q = p then cell else read heap q := by
  unfold read
  split_ifs with h
  · rw [h, List.getElem?_set_self hp]
    rfl
  · rw [List.getElem?_set_ne (Ne.symm h)]

theorem read_append (heap : NodeHeap) (node : Node) (q : Nat) :
    read (heap ++ [some node]) q = if q = heap.length then some node else read heap q := by
  unfold read
  split_ifs with h
  · rw [h, List.getElem?_concat_length]
    rfl
  · rcases Nat.lt_or_gt_of_ne h with hlt | hgt
    · rw [List.getElem?_append_left hlt]
    · rw [List.getElem?_eq_none (by rw [List.length_append]; exact hgt),
        List.getElem?_eq_none hgt.le]

theorem row_append (heap : NodeHeap) (node : Node) (q : Nat) :
    row (heap ++ [some node]) q =
      if q = heap.length then some (node.key, node.tick) else row heap q := by
  unfold row
  rw [read_append]
  split_ifs <;> rfl

theorem forward_append (heap : NodeHeap) (node : Node) (i q : Nat) :
    forward (heap ++ [some node]) i q =
      if q = heap.length then node.forward[i]? else forward heap i q := by
  unfold forward
  rw [read_append]
  split_ifs <;> rfl

theorem read_of_row {heap : NodeHeap} {p : Nat} {key : Key} {tick : Tick}
    (h : row heap p = some (key, tick)) :
    ∃ node, read heap p = some node ∧ node.key = key ∧ node.tick = tick := by
  obtain ⟨node, hread, hnode⟩ := Option.map_eq_some_iff.mp h
  cases hnode
  exact ⟨node, hread, rfl, rfl⟩

theorem read_of_forward {heap : NodeHeap} {i p : Nat} {next : Option Nat}
    (h : forward heap i p = some next) :
    ∃ node, read heap p = some node ∧ node.forward[i]? = some next :=
  Option.bind_eq_some_iff.mp h

/-- A live pointer can be set, and nothing else changes. -/
theorem setForward_spec {heap : NodeHeap} {i p : Nat} {old : Option Nat}
    (h : forward heap i p = some old) (next : Option Nat) :
    ∃ heap', setForward heap i p next = some heap' ∧ heap'.length = heap.length ∧
      (∀ q, row heap' q = row heap q) ∧
      ∀ j q, forward heap' j q = if j = i ∧ q = p then some next else forward heap j q := by
  obtain ⟨node, hread, hold⟩ := read_of_forward h
  obtain ⟨hi, -⟩ := Vector.getElem?_eq_some_iff.mp hold
  have hp := lt_length_of_read hread
  refine ⟨heap.set p (some { node with forward := node.forward.set i next hi }), ?_,
    List.length_set, fun q => ?_, fun j q => ?_⟩
  · rw [setForward, hread, Option.bind_some, dif_pos hi, write, hread, Option.map_some]
  · unfold row
    rw [read_set hp]
    split_ifs with hq
    · rw [hq, hread]
      rfl
    · rfl
  · unfold forward
    rw [read_set hp]
    by_cases hq : q = p
    · rw [if_pos hq, hq, hread, Option.bind_some, Option.bind_some, Vector.getElem?_set hi]
      by_cases hj : j = i
      · rw [if_pos hj.symm, if_pos ⟨hj, rfl⟩]
      · rw [if_neg (Ne.symm hj), if_neg fun h => hj h.1]
    · rw [if_neg hq, if_neg fun h => hq h.2]

end NodeHeap

/-- `Node::new`. -/
def Node.new (key : Key) (tick : Tick) : Node := ⟨key, tick, Vector.replicate _ none⟩

structure SkipListNodes where
  heap : NodeHeap
  head : Nat
  level : Nat
  len : Nat
  deriving DecidableEq

namespace SkipListNodes
open NodeHeap

/-- `i64::MIN`. -/
def minTimestamp : TimestampNs := Int64.minValue

def new : SkipListNodes where
  heap := [some (Node.new ⟨0, minTimestamp⟩ ⟨0, minTimestamp, ⟨0⟩, ⟨0⟩, ⟨0⟩, ⟨0⟩, 0⟩)]
  head := 0
  level := 0
  len := 0

/-- The loop on one level: move on while the next key is smaller. -/
def walk (heap : NodeHeap) (key : Key) (i : Nat) : Nat → Nat → Option Nat
  | 0, _ => none
  | fuel + 1, current => do
    match ← forward heap i current with
    | none => return current
    | some next =>
      let node ← read heap next
      if node.key < key then walk heap key i fuel next else return current

/-- `for i in (0..=level).rev()` of `get`, with the levels below `n` still to come. -/
def seek (heap : NodeHeap) (key : Key) : Nat → Nat → Option Nat
  | 0, current => some current
  | i + 1, current => do
    let current ← walk heap key i heap.length current
    seek heap key i current

/-- The raw pointers to the nodes before the place of a key, by level. -/
abbrev Update := Vector (Option Nat) (MAX_LEVEL + 1)

/-- `update[i] = p`. -/
def Update.store (update : Update) (i p : Nat) : Option Update :=
  if h : i < MAX_LEVEL + 1 then some (update.set i (some p) h) else none

/-- The same loop in `insert`, which notes where it left each level. -/
def descend (heap : NodeHeap) (key : Key) : Nat → Nat → Update → Option (Nat × Update)
  | 0, current, update => some (current, update)
  | i + 1, current, update => do
    let current ← walk heap key i heap.length current
    let update ← Update.store update i current
    descend heap key i current update

/-- Levels not yet in use start at the head. -/
def raise (head level newLevel : Nat) (update : Update) : Option Update :=
  if level < newLevel then
    (List.range' (level + 1) (newLevel - level)).foldlM
      (fun update i => Update.store update i head) update
  else some update

/-- One round of the splicing loop. -/
def link (update : Update) (p : Nat) (heap : NodeHeap) (i : Nat) : Option NodeHeap := do
  let prev ← update[i]?.join
  let next ← forward heap i prev
  let heap ← setForward heap i p next
  setForward heap i prev (some p)

/-- A new node of the drawn level. -/
def add (s : SkipListNodes) (key : Key) (tick : Tick) (newLevel : Nat) (update : Update) :
    Option SkipListNodes := do
  let update ← raise s.head s.level newLevel update
  let heap := s.heap ++ [some (Node.new key tick)]
  let heap ← (List.range (newLevel + 1)).foldlM (link update s.heap.length) heap
  return { s with heap, level := max s.level newLevel, len := s.len + 1 }

/-- `newLevel` is what `random_level` drew. -/
def insert (s : SkipListNodes) (tick : Tick) (newLevel : Nat) : Option SkipListNodes := do
  let key := tick.key
  let (current, update) ← descend s.heap key (s.level + 1) s.head (Vector.replicate _ none)
  match ← forward s.heap 0 current with
  | none => add s key tick newLevel update
  | some next =>
    let node ← read s.heap next
    if node.key = key then
      let heap ← write s.heap next { node with tick }
      return { s with heap }
    else add s key tick newLevel update

def get (s : SkipListNodes) (key : Key) : Option (Option Tick) := do
  let current ← seek s.heap key (s.level + 1) s.head
  match ← forward s.heap 0 current with
  | none => return none
  | some next =>
    let node ← read s.heap next
    return if node.key = key then some node.tick else none

/-- `SkipListIter` run to its end, and the first loop of `drain`. -/
def collect (heap : NodeHeap) : Nat → Option Nat → Option (List Tick)
  | _, none => some []
  | 0, some _ => none
  | fuel + 1, some current => do
    let node ← read heap current
    let next ← forward heap 0 current
    let rest ← collect heap fuel next
    return node.tick :: rest

def iter (s : SkipListNodes) : Option (List Tick) := do
  let first ← forward s.heap 0 s.head
  collect s.heap s.heap.length first

/-- The freeing loop of `clear`. -/
def freeAll : Nat → Option Nat → NodeHeap → Option NodeHeap
  | _, none, heap => some heap
  | 0, some _, _ => none
  | fuel + 1, some current, heap => do
    let next ← forward heap 0 current
    let heap ← free heap current
    freeAll fuel next heap

def clear (s : SkipListNodes) : Option SkipListNodes := do
  let first ← forward s.heap 0 s.head
  let heap ← freeAll s.heap.length first s.heap
  let heap ← (List.range (s.level + 1)).foldlM (fun heap i => setForward heap i s.head none) heap
  return { s with heap, level := 0, len := 0 }

def drain (s : SkipListNodes) : Option (List Tick × SkipListNodes) := do
  let result ← s.iter
  let s ← s.clear
  return (result, s)

end SkipListNodes

end Graphite
