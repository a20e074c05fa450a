import Graphite.BlockCache

/-! The moves of a node in the list of the block cache: they change links only and lead to
the list with the node in front. -/

namespace Graphite
open BigEndian DoublyLinked

namespace BlockCache

/-- The links of some nodes have changed, nothing else. -/
structure Relinked (nodes nodes' : List CacheNode) (links : Links Nat) : Prop where
  links_eq : nodeLinks nodes' = links
  entry_eq : nodeEntry nodes' = nodeEntry nodes
  length_eq : nodes'.length = nodes.length

theorem nodeLinks_set {nodes : List CacheNode} {idx : Nat} (h : idx < nodes.length)
    (node : CacheNode) (i : Nat) :
    nodeLinks (nodes.set idx node) i =
      if idx = i then some (node.prev, node.next) else nodeLinks nodes i := by
  rw [nodeLinks, List.getElem?_set]
  split_ifs
  · rfl
  · rfl

theorem nodeEntry_set {nodes : List CacheNode} {idx : Nat} (h : idx < nodes.length)
    (node : CacheNode) (i : Nat) :
    nodeEntry (nodes.set idx node) i =
      if idx = i then some (node.key, node.data) else nodeEntry nodes i := by
  rw [nodeEntry, List.getElem?_set]
  split_ifs
  · rfl
  · rfl

/-- A change of a node's links. -/
theorem relink_spec (c : BlockCache) {idx : Nat} (h : idx < c.nodes.length)
    (f : CacheNode → CacheNode) (hf : ∀ node, (f node).key = node.key ∧ (f node).data = node.data)
    (links : Links Nat)
    (hidx : links idx = c.nodes[idx]?.map fun node => ((f node).prev, (f node).next))
    (hsame : ∀ i, idx ≠ i → links i = nodeLinks c.nodes i) :
    ∃ nodes, c.modifyNode idx f = some { c with nodes } ∧ Relinked c.nodes nodes links := by
  have hnode := List.getElem?_eq_getElem h
  refine ⟨c.nodes.set idx (f c.nodes[idx]), ?_, funext fun i => ?_, funext fun i => ?_,
    List.length_set⟩
  · rw [modifyNode, hnode]
    rfl
  · rw [nodeLinks_set h]
    split_ifs with hi
    · rw [← hi, hidx, hnode]
      rfl
    · exact (hsame i hi).symm
  · rw [nodeEntry_set h]
    split_ifs with hi
    · rw [← hi, nodeEntry, hnode, (hf _).1, (hf _).2]
      rfl
    · rfl

theorem setPrev_spec (c : BlockCache) {idx : Nat} (h : idx < c.nodes.length)
    (value : Option Nat) :
    ∃ nodes, c.setPrev idx value = some { c with nodes } ∧
      Relinked c.nodes nodes (DoublyLinked.setPrev (nodeLinks c.nodes) (some idx) value) := by
  refine c.relink_spec h (fun node => { node with prev := value }) (fun _ => ⟨rfl, rfl⟩) _ ?_
    fun i hi => setPrev_of_ne fun heq => ?_
  · rw [DoublyLinked.setPrev, if_pos rfl, nodeLinks, Option.map_map]
    rfl
  · exact hi (Option.some_inj.mp heq)

theorem setNext_spec (c : BlockCache) {idx : Nat} (h : idx < c.nodes.length)
    (value : Option Nat) :
    ∃ nodes, c.setNext idx value = some { c with nodes } ∧
      Relinked c.nodes nodes (DoublyLinked.setNext (nodeLinks c.nodes) (some idx) value) := by
  refine c.relink_spec h (fun node => { node with next := value }) (fun _ => ⟨rfl, rfl⟩) _ ?_
    fun i hi => setNext_of_ne fun heq => ?_
  · rw [DoublyLinked.setNext, if_pos rfl, nodeLinks, Option.map_map]
    rfl
  · exact hi (Option.some_inj.mp heq)

theorem relinked_refl (nodes : List CacheNode) : Relinked nodes nodes (nodeLinks nodes) :=
  ⟨rfl, rfl, rfl⟩

theorem ifSome_setPrev_spec (c : BlockCache) {idx : Option Nat}
    (h : ∀ i, idx = some i → i < c.nodes.length) (value : Option Nat) :
    ∃ nodes, (c.ifSome idx fun c i => c.setPrev i value) = some { c with nodes } ∧
      Relinked c.nodes nodes (DoublyLinked.setPrev (nodeLinks c.nodes) idx value) := by
  cases idx with
  | none => exact ⟨c.nodes, rfl, relinked_refl c.nodes⟩
  | some i => exact c.setPrev_spec (h i rfl) value

theorem ifSome_setNext_spec (c : BlockCache) {idx : Option Nat}
    (h : ∀ i, idx = some i → i < c.nodes.length) (value : Option Nat) :
    ∃ nodes, (c.ifSome idx fun c i => c.setNext i value) = some { c with nodes } ∧
      Relinked c.nodes nodes (DoublyLinked.setNext (nodeLinks c.nodes) idx value) := by
  cases idx with
  | none => exact ⟨c.nodes, rfl, relinked_refl c.nodes⟩
  | some i => exact c.setNext_spec (h i rfl) value

theorem lt_length_of_links {nodes : List CacheNode} {i : Nat} {l : Option Nat × Option Nat}
    (h : nodeLinks nodes i = some l) : i < nodes.length := by
  rw [nodeLinks, Option.map_eq_some_iff] at h
  obtain ⟨node, hnode, -⟩ := h
  exact (List.getElem?_eq_some_iff.mp hnode).1

theorem lt_length_of_segment {nodes : List CacheNode} {prev start stop : Option Nat}
    {order : List Nat} (h : Segment (nodeLinks nodes) prev start order stop) {i : Nat}
    (hi : i ∈ order) : i < nodes.length := by
  obtain ⟨l, hl⟩ := h.readable hi
  exact lt_length_of_links hl

theorem lt_length_of_start {nodes : List CacheNode} {start : Option Nat} {order : List Nat}
    (h : Segment (nodeLinks nodes) none start order none) (i : Nat) (hi : start = some i) :
    i < nodes.length := by
  rw [h.start_eq] at hi
  exact lt_length_of_segment h (List.mem_of_mem_head? hi)

/-- The last steps of `add_to_head` and of `move_to_head`. -/
theorem toFront_spec (c : BlockCache) {order : List Nat} {idx : Nat}
    (hlinked : Segment (nodeLinks c.nodes) none c.head order none)
    (hnodup : (idx :: order).Nodup) (hidx : idx < c.nodes.length) :
    ∃ nodes₁ nodes₂ nodes₃, c.setPrev idx none = some { c with nodes := nodes₁ } ∧
      { c with nodes := nodes₁ }.setNext idx c.head = some { c with nodes := nodes₂ } ∧
      ({ c with nodes := nodes₂ }.ifSome c.head fun c h => c.setPrev h (some idx)) =
        some { c with nodes := nodes₃ } ∧
      Segment (nodeLinks nodes₃) none (some idx) (idx :: order) none ∧
      nodeEntry nodes₃ = nodeEntry c.nodes ∧ nodes₃.length = c.nodes.length := by
  have hmem : idx ∉ order := (List.nodup_cons.mp hnodup).1
  obtain ⟨nodes₁, h₁, hlinks₁, hentry₁, hlength₁⟩ := c.setPrev_spec hidx none
  obtain ⟨nodes₂, h₂, hlinks₂, hentry₂, hlength₂⟩ :=
    { c with nodes := nodes₁ }.setNext_spec (by rwa [hlength₁]) c.head
  obtain ⟨nodes₃, h₃, hlinks₃, hentry₃, hlength₃⟩ :=
    { c with nodes := nodes₂ }.ifSome_setPrev_spec
      (fun i (hi : c.head = some i) => by
        rw [hlength₂, hlength₁]
        exact lt_length_of_start hlinked i hi) (some idx)
  refine ⟨nodes₁, nodes₂, nodes₃, h₁, h₂, h₃, ?_, by rw [hentry₃, hentry₂, hentry₁],
    by rw [hlength₃, hlength₂, hlength₁]⟩
  have hsame : ∀ i ∈ order, nodeLinks nodes₂ i = nodeLinks c.nodes i := by
    intro i hi
    have hne : some idx ≠ some i := fun heq => hmem (Option.some_inj.mp heq ▸ hi)
    rw [hlinks₂, setNext_of_ne hne, hlinks₁, setPrev_of_ne hne]
  have hnew : nodeLinks nodes₂ idx = some (none, c.head) := by
    have hnode := List.getElem?_eq_getElem hidx
    rw [hlinks₂, DoublyLinked.setNext, if_pos rfl, hlinks₁, DoublyLinked.setPrev, if_pos rfl,
      nodeLinks, hnode]
    rfl
  rw [hlinks₃]
  exact (hlinked.congr hsame).push hnodup hnew

theorem addToHead_spec (c : BlockCache) {order : List Nat} {idx : Nat}
    (hlinked : Segment (nodeLinks c.nodes) none c.head order none)
    (htail : c.tail = order.getLast?) (hnodup : (idx :: order).Nodup)
    (hidx : idx < c.nodes.length) :
    ∃ nodes, c.addToHead idx = some { c with
        nodes, head := some idx, tail := (idx :: order).getLast? } ∧
      Segment (nodeLinks nodes) none (some idx) (idx :: order) none ∧
      nodeEntry nodes = nodeEntry c.nodes ∧ nodes.length = c.nodes.length := by
  obtain ⟨nodes₁, nodes₂, nodes₃, h₁, h₂, h₃, hfront, hentry, hlength⟩ :=
    c.toFront_spec hlinked hnodup hidx
  refine ⟨nodes₃, ?_, hfront, hentry, hlength⟩
  rw [addToHead]
  simp only [Option.bind_eq_bind, h₁, h₂, h₃, Option.bind_some, Option.pure_def]
  cases order with
  | nil => simp [htail]
  | cons x order =>
    have hlast : (x :: order).getLast? ≠ none := by simp
    rw [List.getLast?_cons_cons, ← htail, if_neg (by rw [htail]; exact hlast)]

/-- Taking a node out of the middle of the list. -/
theorem unlink_spec (c : BlockCache) {front back : List Nat} {idx : Nat}
    (hlinked : Segment (nodeLinks c.nodes) none c.head (front ++ idx :: back) none)
    (hnodup : (front ++ idx :: back).Nodup) (hfront : front ≠ []) :
    ∃ nodes₁ nodes₂ node, c.nodes[idx]? = some node ∧ node.prev = front.getLast? ∧
      node.next = back.head? ∧
      (c.ifSome node.prev fun c p => c.setNext p node.next) = some { c with nodes := nodes₁ } ∧
      ({ c with nodes := nodes₁ }.ifSome node.next fun c n => c.setPrev n node.prev) =
        some { c with nodes := nodes₂ } ∧
      Segment (nodeLinks nodes₂) none c.head (front ++ back) none ∧
      nodeEntry nodes₂ = nodeEntry c.nodes ∧ nodes₂.length = c.nodes.length := by
  obtain ⟨hidx, hunlinked⟩ := hlinked.unlink hnodup
  obtain ⟨node, hnode, hpair⟩ := Option.map_eq_some_iff.mp hidx
  obtain ⟨hprev, hnext⟩ := Prod.mk.inj hpair
  have hlt : ∀ i ∈ front ++ idx :: back, i < c.nodes.length := fun i hi =>
    lt_length_of_segment hlinked hi
  obtain ⟨nodes₁, h₁, hlinks₁, hentry₁, hlength₁⟩ := c.ifSome_setNext_spec
    (fun i (hi : node.prev = some i) => hlt i
      (List.mem_append_left _ (List.mem_of_mem_getLast? (hprev ▸ hi)))) node.next
  obtain ⟨nodes₂, h₂, hlinks₂, hentry₂, hlength₂⟩ :=
    { c with nodes := nodes₁ }.ifSome_setPrev_spec
      (fun i (hi : node.next = some i) => by
        rw [hlength₁]
        exact hlt i (List.mem_append_right _
          (List.mem_cons_of_mem idx (List.mem_of_mem_head? (hnext ▸ hi))))) node.prev
  refine ⟨nodes₁, nodes₂, node, hnode, hprev, hnext, h₁, h₂, ?_, by rw [hentry₂, hentry₁],
    by rw [hlength₂, hlength₁]⟩
  rw [if_neg hfront] at hunlinked
  rwa [hlinks₂, hlinks₁, hprev, hnext]

theorem moveToHead_spec (c : BlockCache) {front back : List Nat} {idx : Nat}
    (hlinked : Segment (nodeLinks c.nodes) none c.head (front ++ idx :: back) none)
    (htail : c.tail = (front ++ idx :: back).getLast?) (hnodup : (front ++ idx :: back).Nodup) :
    ∃ nodes, c.moveToHead idx = some { c with
        nodes, head := some idx, tail := (idx :: (front ++ back)).getLast? } ∧
      Segment (nodeLinks nodes) none (some idx) (idx :: (front ++ back)) none ∧
      nodeEntry nodes = nodeEntry c.nodes ∧ nodes.length = c.nodes.length := by
  have hhead := hlinked.start_eq
  by_cases hfront : front = []
  · subst hfront
    rw [List.nil_append, List.head?_cons] at hhead
    rw [List.nil_append] at hlinked htail ⊢
    refine ⟨c.nodes, ?_, hhead ▸ hlinked, rfl, rfl⟩
    rw [moveToHead, if_pos hhead, ← htail, ← hhead]
  · have hne : c.head ≠ some idx := by
      rw [hhead]
      intro heq
      have hmem : idx ∈ front := by
        rw [List.head?_append_of_ne_nil _ hfront] at heq
        exact List.mem_of_mem_head? heq
      exact (List.nodup_append.mp hnodup).2.2 idx hmem idx List.mem_cons_self rfl
    obtain ⟨nodes₁, nodes₂, node, hnode, hprev, hnext, h₁, h₂, hrest, hentry, hlength⟩ :=
      c.unlink_spec hlinked hnodup hfront
    have hidx : idx < c.nodes.length := (List.getElem?_eq_some_iff.mp hnode).1
    have hnodup' : (idx :: (front ++ back)).Nodup :=
      (List.perm_middle.nodup_iff).mp hnodup
    obtain ⟨nodes₃, nodes₄, nodes₅, h₃, h₄, h₅, hfirst, hentry', hlength'⟩ :=
      { c with nodes := nodes₂, tail := (front ++ back).getLast? }.toFront_spec hrest hnodup'
        (by rwa [hlength])
    have hmoved : (if c.tail = some idx then { c with nodes := nodes₂, tail := node.prev }
        else { c with nodes := nodes₂ }) =
          { c with nodes := nodes₂, tail := (front ++ back).getLast? } := by
      rw [hprev, htail]
      rcases List.eq_nil_or_concat' back with rfl | ⟨back, last, rfl⟩
      · rw [List.getLast?_concat, if_pos rfl, List.append_nil]
      · have hlast : last ≠ idx := by
          rintro rfl
          exact (List.nodup_cons.mp hnodup').1 (by simp)
        rw [← List.cons_append, ← List.append_assoc, ← List.append_assoc, List.getLast?_concat,
          List.getLast?_concat, if_neg fun heq => hlast (Option.some_inj.mp heq)]
    refine ⟨nodes₅, ?_, hfirst, by rw [hentry', hentry], by rw [hlength', hlength]⟩
    have hlast : (idx :: (front ++ back)).getLast? = (front ++ back).getLast? := by
      rw [← List.singleton_append, List.getLast?_append_of_ne_nil _ (by simp [hfront])]
    rw [moveToHead, if_neg hne, hnode]
    simp only [Option.bind_eq_bind, Option.bind_some, h₁, h₂, hmoved, h₃, h₄, h₅, Option.pure_def,
      hlast]

end BlockCache

end Graphite
