import Graphite.SkipListNodes

/-! The stored skip list is a sorted map. Every node has a height, and the chain of a level
passes the nodes that are at least that high. -/

namespace Graphite
open KeyedRows LinkedChain NodeHeap

namespace SkipListNodes

/-- A node in key order, with the height it was drawn. -/
structure Cell where
  ptr : Nat
  height : Nat
  tick : Tick

def Cell.key (c : Cell) : Key := c.tick.key

/-- The nodes on the chain of a level. -/
def ptrs (i : Nat) (cells : List Cell) : List Nat :=
  (cells.filter fun c => i ≤ c.height).map Cell.ptr

theorem ptrs_append (i : Nat) (cells more : List Cell) :
    ptrs i (cells ++ more) = ptrs i cells ++ ptrs i more := by
  rw [ptrs, List.filter_append, List.map_append, ptrs, ptrs]

theorem ptrs_cons (i : Nat) (c : Cell) (cells : List Cell) :
    ptrs i (c :: cells) = if i ≤ c.height then c.ptr :: ptrs i cells else ptrs i cells := by
  unfold ptrs
  rw [List.filter_cons]
  by_cases h : i ≤ c.height <;> simp [h]

theorem ptrs_zero (cells : List Cell) : ptrs 0 cells = cells.map Cell.ptr := by
  simp [ptrs]

theorem ptrs_sublist (i : Nat) (cells : List Cell) :
    (ptrs i cells).Sublist (cells.map Cell.ptr) := List.filter_sublist.map _

theorem ptrs_succ_sublist (i : Nat) (cells : List Cell) :
    (ptrs (i + 1) cells).Sublist (ptrs i cells) := by
  refine List.Sublist.map _ (List.monotone_filter_right cells fun c h => ?_)
  simp only [decide_eq_true_eq] at h ⊢
  omega

theorem ptrs_eq_nil {i : Nat} {cells : List Cell} (h : ∀ c ∈ cells, c.height < i) :
    ptrs i cells = [] := by
  rw [ptrs, List.map_eq_nil_iff, List.filter_eq_nil_iff]
  intro c hc
  have := h c hc
  simpa using this

/-- The heap holds the cells, linked on every level. -/
structure Holds (s : SkipListNodes) (cells : List Cell) : Prop where
  level : s.level ≤ MAX_LEVEL
  height : ∀ c ∈ cells, c.height ≤ s.level
  chain : ∀ i ≤ MAX_LEVEL, Chain (forward s.heap i) s.head (ptrs i cells)
  row : ∀ c ∈ cells, NodeHeap.row s.heap c.ptr = some (c.key, c.tick)
  nodup : (s.head :: cells.map Cell.ptr).Nodup
  increasing : Increasing Cell.key cells
  len : s.len = cells.length

namespace Holds

variable {s : SkipListNodes} {cells : List Cell}

theorem live (h : Holds s cells) : ∀ p ∈ s.head :: cells.map Cell.ptr, p < s.heap.length := by
  intro p hp
  rcases List.mem_cons.mp hp with rfl | hp
  · obtain ⟨next, hnext⟩ := (h.chain 0 (Nat.zero_le _)).readable
    obtain ⟨node, hread, -⟩ := read_of_forward hnext
    exact lt_length_of_read hread
  · obtain ⟨c, hc, rfl⟩ := List.mem_map.mp hp
    obtain ⟨node, hread, -⟩ := read_of_row (h.row c hc)
    exact lt_length_of_read hread

theorem length_lt (h : Holds s cells) : cells.length < s.heap.length := by
  have hsub : (s.head :: cells.map Cell.ptr) ⊆ List.range s.heap.length :=
    fun p hp => List.mem_range.mpr (h.live p hp)
  have hle := h.nodup.length_le_of_subset hsub
  rw [List.length_cons, List.length_map, List.length_range] at hle
  exact hle

end Holds

/-- One level's loop stops behind the last smaller key. -/
theorem walk_eq {heap : NodeHeap} {key : Key} {i : Nat} {p : Nat} {front back : List Nat}
    (hchain : Chain (forward heap i) p (front ++ back))
    (hfront : ∀ q ∈ front, ∃ node, read heap q = some node ∧ node.key < key)
    (hback : ∀ q ∈ back, ∃ node, read heap q = some node ∧ ¬ node.key < key)
    {fuel : Nat} (hfuel : front.length < fuel) :
    walk heap key i fuel p = some (endOf p front) := by
  induction front generalizing p fuel with
  | nil =>
    obtain ⟨fuel, rfl⟩ := Nat.exists_eq_succ_of_ne_zero (Nat.ne_of_gt hfuel)
    cases back with
    | nil =>
      have hnext : forward heap i p = some none := chain_nil.mp hchain
      simp [walk, hnext]
    | cons q back =>
      obtain ⟨hnext, -⟩ := chain_cons.mp hchain
      obtain ⟨node, hread, hle⟩ := hback q List.mem_cons_self
      simp [walk, hnext, hread, hle]
  | cons q front ih =>
    obtain ⟨fuel, rfl⟩ := Nat.exists_eq_succ_of_ne_zero (Nat.ne_zero_of_lt hfuel)
    obtain ⟨hnext, hrest⟩ := chain_cons.mp hchain
    obtain ⟨node, hread, hlt⟩ := hfront q List.mem_cons_self
    have hmove := ih hrest (fun r hr => hfront r (List.mem_cons_of_mem q hr))
      (Nat.lt_of_succ_lt_succ hfuel)
    simpa [walk, hnext, hread, hlt] using hmove

/-- The cells around the place of a key. -/
structure Around (cells : List Cell) (key : Key) (lower upper : List Cell) : Prop where
  split : cells = lower ++ upper
  below : ∀ c ∈ lower, c.key < key
  above : ∀ c ∈ upper, key ≤ c.key

namespace Holds

variable {s : SkipListNodes} {cells : List Cell}

theorem read_mem (h : Holds s cells) {part : List Cell} (hpart : part ⊆ cells) {P : Key → Prop}
    (hkey : ∀ c ∈ part, P c.key) {i : Nat} :
    ∀ q ∈ ptrs i part, ∃ node, read s.heap q = some node ∧ P node.key := by
  intro q hq
  obtain ⟨c, hc, rfl⟩ := List.mem_map.mp ((ptrs_sublist i part).subset hq)
  obtain ⟨node, hread, hnode, -⟩ := read_of_row (h.row c (hpart hc))
  exact ⟨node, hread, hnode ▸ hkey c hc⟩

/-- From the end of the search on the level above, a level's loop goes on to the end of the
smaller keys of its own chain. -/
theorem walk_level (h : Holds s cells) {key : Key} {lower upper : List Cell}
    (hsplit : Around cells key lower upper) {i : Nat} (hi : i ≤ MAX_LEVEL) :
    walk s.heap key i s.heap.length (endOf s.head (ptrs (i + 1) lower)) =
      some (endOf s.head (ptrs i lower)) := by
  have hlow : lower ⊆ cells := hsplit.split ▸ List.subset_append_left lower upper
  have hup : upper ⊆ cells := hsplit.split ▸ List.subset_append_right lower upper
  have hchain := h.chain i hi
  rw [hsplit.split, ptrs_append] at hchain
  obtain ⟨front, back, hparts, hend⟩ :=
    exists_front_of_sublist s.head (ptrs_succ_sublist i lower)
  have hread := h.read_mem hlow (P := fun k => k < key) hsplit.below (i := i)
  have hlen : back.length < s.heap.length := by
    have hle := ((ptrs_sublist i lower).length_le).trans (List.length_map _).le
    rw [hparts, List.length_append] at hle
    have hcells := congrArg List.length hsplit.split
    rw [List.length_append] at hcells
    have hlt := h.length_lt
    omega
  rw [hparts, List.append_assoc, chain_append] at hchain
  rw [hparts] at hread
  rw [← hend, hparts, endOf_append]
  exact walk_eq hchain.2 (fun q hq => hread q (List.mem_append_right front hq))
    (h.read_mem hup (P := fun k => ¬ k < key) fun c hc => not_lt.mpr (hsplit.above c hc)) hlen

end Holds

theorem Update.store_spec (update : Update) {i : Nat} (hi : i ≤ MAX_LEVEL) (p : Nat) :
    ∃ update', Update.store update i p = some update' ∧
      ∀ j, update'[j]? = if j = i then some (some p) else update[j]? := by
  have hlt : i < MAX_LEVEL + 1 := Nat.lt_succ_of_le hi
  refine ⟨update.set i (some p) hlt, dif_pos hlt, fun j => ?_⟩
  rw [Vector.getElem?_set hlt]
  by_cases h : j = i
  · rw [if_pos h.symm, if_pos h]
  · rw [if_neg (Ne.symm h), if_neg h]

namespace Holds

variable {s : SkipListNodes} {cells : List Cell}

/-- The descent leaves every level behind the last smaller key of its chain. -/
theorem descend_spec (h : Holds s cells) {key : Key} {lower upper : List Cell}
    (hsplit : Around cells key lower upper) {n : Nat} (hn : n ≤ MAX_LEVEL + 1)
    (update : Update) :
    ∃ update', descend s.heap key n (endOf s.head (ptrs n lower)) update =
        some (endOf s.head (ptrs 0 lower), update') ∧
      ∀ i, update'[i]? = if i < n then some (some (endOf s.head (ptrs i lower)))
        else update[i]? := by
  induction n generalizing update with
  | zero => exact ⟨update, rfl, fun i => (if_neg (Nat.not_lt_zero i)).symm⟩
  | succ i ih =>
    have hi : i ≤ MAX_LEVEL := Nat.le_of_succ_le_succ hn
    obtain ⟨stored, hstore, hstored⟩ :=
      Update.store_spec update hi (endOf s.head (ptrs i lower))
    obtain ⟨update', hrun, hupdate⟩ := ih (Nat.le_of_succ_le hn) stored
    refine ⟨update', ?_, fun j => ?_⟩
    · simp [descend, h.walk_level hsplit hi, hstore, hrun]
    · rw [hupdate, hstored]
      by_cases hj : j = i
      · rw [if_neg (by omega), if_pos hj, if_pos (by omega), hj]
      · by_cases hlt : j < i
        · rw [if_pos hlt, if_pos (Nat.lt_succ_of_lt hlt)]
        · rw [if_neg hlt, if_neg hj, if_neg (by omega)]

theorem seek_eq (h : Holds s cells) {key : Key} {lower upper : List Cell}
    (hsplit : Around cells key lower upper) {n : Nat} (hn : n ≤ MAX_LEVEL + 1) :
    seek s.heap key n (endOf s.head (ptrs n lower)) = some (endOf s.head (ptrs 0 lower)) := by
  induction n with
  | zero => rfl
  | succ i ih =>
    simp [seek, h.walk_level hsplit (Nat.le_of_succ_le_succ hn), ih (Nat.le_of_succ_le hn)]

theorem ptrs_above_eq_nil (h : Holds s cells) {part : List Cell} (hpart : part ⊆ cells) {i : Nat}
    (hi : s.level < i) : ptrs i part = [] :=
  ptrs_eq_nil fun c hc => (h.height c (hpart hc)).trans_lt hi

/-- What the level-0 link behind the smaller keys holds. -/
theorem next_eq (h : Holds s cells) {key : Key} {lower upper : List Cell}
    (hsplit : Around cells key lower upper) :
    forward s.heap 0 (endOf s.head (ptrs 0 lower)) = some (upper.head?.map Cell.ptr) := by
  have hchain := h.chain 0 (Nat.zero_le _)
  rw [hsplit.split, ptrs_append, chain_append, ptrs_zero upper] at hchain
  cases upper with
  | nil => exact chain_nil.mp hchain.2
  | cons c upper => exact (chain_cons.mp hchain.2).1

end Holds

theorem storeAll_spec (head : Nat) {levels : List Nat} (h : ∀ i ∈ levels, i ≤ MAX_LEVEL)
    (update : Update) :
    ∃ update', levels.foldlM (fun update i => Update.store update i head) update =
        some update' ∧
      ∀ j, update'[j]? = if j ∈ levels then some (some head) else update[j]? := by
  induction levels generalizing update with
  | nil => exact ⟨update, rfl, fun j => (if_neg List.not_mem_nil).symm⟩
  | cons i levels ih =>
    obtain ⟨hi, hlevels⟩ := List.forall_mem_cons.mp h
    obtain ⟨stored, hstore, hstored⟩ := Update.store_spec update hi head
    obtain ⟨update', hrun, hupdate⟩ := ih hlevels stored
    refine ⟨update', ?_, fun j => ?_⟩
    · rw [List.foldlM_cons, hstore]
      exact hrun
    · rw [hupdate, hstored]
      by_cases hj : j = i
      · simp [hj]
      · simp [hj]

theorem raise_spec (head level : Nat) {newLevel : Nat} (h : newLevel ≤ MAX_LEVEL)
    (update : Update) :
    ∃ update', raise head level newLevel update = some update' ∧
      (∀ i ≤ level, update'[i]? = update[i]?) ∧
      ∀ i ≤ newLevel, level < i → update'[i]? = some (some head) := by
  unfold raise
  split_ifs with hlt
  · have hle : ∀ i ∈ List.range' (level + 1) (newLevel - level), i ≤ MAX_LEVEL := by
      intro i hi
      have hmem := List.mem_range'_1.mp hi
      omega
    obtain ⟨update', hrun, hupdate⟩ := storeAll_spec head hle update
    refine ⟨update', hrun, fun i hi => ?_, fun i hi hgt => ?_⟩
    · rw [hupdate, if_neg]
      intro hmem
      have hrange := List.mem_range'_1.mp hmem
      omega
    · rw [hupdate, if_pos]
      exact List.mem_range'_1.mpr (by omega)
  · exact ⟨update, rfl, fun i _ => rfl, fun i hi hgt => by omega⟩

/-- One round of the splicing loop changes the links of its level only. -/
theorem link_spec {update : Update} {p : Nat} {heap : NodeHeap} {i prev : Nat}
    (hupdate : update[i]? = some (some prev)) (hne : prev ≠ p) {next old : Option Nat}
    (hprev : forward heap i prev = some next) (hp : forward heap i p = some old) :
    ∃ heap', link update p heap i = some heap' ∧ heap'.length = heap.length ∧
      (∀ q, NodeHeap.row heap' q = NodeHeap.row heap q) ∧
      (∀ j, j ≠ i → forward heap' j = forward heap j) ∧
      forward heap' i = insertAfter (forward heap i) prev p := by
  obtain ⟨first, hfirst, hlen, hrow, hforward⟩ := setForward_spec hp next
  have hprev' : forward first i prev = some next := by
    rw [hforward, if_neg fun h => hne h.2, hprev]
  obtain ⟨heap', hsecond, hlen', hrow', hforward'⟩ := setForward_spec hprev' (some p)
  refine ⟨heap', ?_, hlen'.trans hlen, fun q => (hrow' q).trans (hrow q), fun j hj => ?_, ?_⟩
  · simp [link, hupdate, hprev, hfirst, hsecond]
  · funext q
    rw [hforward', if_neg fun h => hj h.1, hforward, if_neg fun h => hj h.1]
  · funext q
    rw [hforward', hforward]
    unfold insertAfter
    by_cases hq : q = prev
    · rw [if_pos ⟨rfl, hq⟩, if_pos hq]
    · rw [if_neg fun h => hq h.2, if_neg hq]
      by_cases hqp : q = p
      · rw [if_pos ⟨rfl, hqp⟩, if_pos hqp, hprev]
      · rw [if_neg fun h => hqp h.2, if_neg hqp]

/-- The loop puts the node behind `prev i` on each of its levels. -/
theorem links_spec {update : Update} {p : Nat} {heap : NodeHeap} {prev : Nat → Nat} {n : Nat}
    (hupdate : ∀ i < n, update[i]? = some (some (prev i))) (hne : ∀ i < n, prev i ≠ p)
    (hprev : ∀ i < n, ∃ next, forward heap i (prev i) = some next)
    (hp : ∀ i < n, ∃ old, forward heap i p = some old) :
    ∃ heap', (List.range n).foldlM (link update p) heap = some heap' ∧
      heap'.length = heap.length ∧
      (∀ q, NodeHeap.row heap' q = NodeHeap.row heap q) ∧
      ∀ i, forward heap' i =
        if i < n then insertAfter (forward heap i) (prev i) p else forward heap i := by
  induction n with
  | zero => exact ⟨heap, rfl, rfl, fun q => rfl, fun i => (if_neg (Nat.not_lt_zero i)).symm⟩
  | succ n ih =>
    obtain ⟨before, hrun, hlen, hrow, hforward⟩ :=
      ih (fun i hi => hupdate i (Nat.lt_succ_of_lt hi)) (fun i hi => hne i (Nat.lt_succ_of_lt hi))
        (fun i hi => hprev i (Nat.lt_succ_of_lt hi)) fun i hi => hp i (Nat.lt_succ_of_lt hi)
    have hlast : forward before n = forward heap n := by rw [hforward, if_neg (lt_irrefl n)]
    obtain ⟨next, hnext⟩ := hprev n (Nat.lt_succ_self n)
    obtain ⟨old, hold⟩ := hp n (Nat.lt_succ_self n)
    obtain ⟨heap', hlink, hlen', hrow', hother, hlevel⟩ :=
      link_spec (hupdate n (Nat.lt_succ_self n)) (hne n (Nat.lt_succ_self n))
        (hlast ▸ hnext) (hlast ▸ hold)
    refine ⟨heap', ?_, hlen'.trans hlen, fun q => (hrow' q).trans (hrow q), fun i => ?_⟩
    · rw [List.range_succ, List.foldlM_append, hrun]
      simp [hlink]
    · by_cases hi : i = n
      · rw [hi, hlevel, hlast, if_pos (Nat.lt_succ_self n)]
      · rw [hother i hi, hforward]
        by_cases hlt : i < n
        · rw [if_pos hlt, if_pos (Nat.lt_succ_of_lt hlt)]
        · rw [if_neg hlt, if_neg (by omega)]

namespace Holds

variable {s : SkipListNodes} {cells : List Cell}

theorem prev_mem (s : SkipListNodes) {key : Key} {lower upper : List Cell}
    (hsplit : Around cells key lower upper) (i : Nat) :
    endOf s.head (ptrs i lower) ∈ s.head :: cells.map Cell.ptr := by
  have hlow : lower ⊆ cells := hsplit.split ▸ List.subset_append_left lower upper
  rcases List.mem_cons.mp (endOf_mem s.head (ptrs i lower)) with heq | hmem
  · rw [heq]
    exact List.mem_cons_self
  · exact List.mem_cons_of_mem _
      ((List.map_subset _ hlow) ((ptrs_sublist i lower).subset hmem))

theorem fresh (h : Holds s cells) :
    ∀ q ∈ s.head :: cells.map Cell.ptr, q ≠ s.heap.length := fun q hq => (h.live q hq).ne

/-- Allocation leaves the chains alone. -/
theorem chain_append_heap (h : Holds s cells) (node : Node) {i : Nat} (hi : i ≤ MAX_LEVEL) :
    Chain (forward (s.heap ++ [some node]) i) s.head (ptrs i cells) := by
  refine (h.chain i hi).congr fun q hq => ?_
  have hsub : (s.head :: ptrs i cells).Sublist (s.head :: cells.map Cell.ptr) :=
    (ptrs_sublist i cells).cons_cons _
  rw [forward_append, if_neg (h.fresh q (hsub.subset hq))]

/-- The list with a new cell, once its node is linked on every level of its height. -/
theorem spliced (h : Holds s cells) {tick : Tick} {lower upper : List Cell}
    (hsplit : Around cells tick.key lower upper) (hnew : ∀ c ∈ upper, tick.key < c.key)
    {newLevel : Nat} (hlevel : newLevel ≤ MAX_LEVEL) {heap' : NodeHeap}
    (hrow : ∀ q, NodeHeap.row heap' q =
      NodeHeap.row (s.heap ++ [some (Node.new tick.key tick)]) q)
    (hforward : ∀ i, forward heap' i = if i < newLevel + 1
      then insertAfter (forward (s.heap ++ [some (Node.new tick.key tick)]) i)
        (endOf s.head (ptrs i lower)) s.heap.length
      else forward (s.heap ++ [some (Node.new tick.key tick)]) i) :
    Holds ⟨heap', s.head, max s.level newLevel, s.len + 1⟩
      (lower ++ ⟨s.heap.length, newLevel, tick⟩ :: upper) := by
  have hfresh : s.heap.length ∉ s.head :: cells.map Cell.ptr := fun hmem => h.fresh _ hmem rfl
  have hchain := fun i hi => h.chain_append_heap (Node.new tick.key tick) (i := i) hi
  have hheight := h.height
  have hrows : ∀ c ∈ cells, NodeHeap.row heap' c.ptr = some (c.key, c.tick) := by
    intro c hc
    rw [hrow, row_append, if_neg (h.fresh _ (List.mem_cons_of_mem _ (List.mem_map_of_mem hc))),
      h.row c hc]
  have hnodup := h.nodup
  have hinc := h.increasing
  have hlen := h.len
  obtain ⟨rfl, hbelow, habove⟩ := hsplit
  rw [List.map_append] at hfresh hnodup
  refine ⟨max_le h.level hlevel, fun c hc => ?_, fun i hi => ?_, fun c hc => ?_, ?_, ?_, ?_⟩
  · rcases List.mem_append.mp hc with hc | hc
    · exact le_max_of_le_left (hheight c (List.mem_append_left upper hc))
    · rcases List.mem_cons.mp hc with rfl | hc
      · exact le_max_right s.level newLevel
      · exact le_max_of_le_left (hheight c (List.mem_append_right lower hc))
  · have hsub : (s.head :: (ptrs i lower ++ ptrs i upper)).Sublist
        (s.head :: (lower.map Cell.ptr ++ upper.map Cell.ptr)) :=
      ((ptrs_sublist i lower).append (ptrs_sublist i upper)).cons_cons _
    have hold := hchain i hi
    rw [ptrs_append] at hold
    rw [hforward, ptrs_append, ptrs_cons]
    by_cases hle : i ≤ newLevel
    · rw [if_pos (Nat.lt_succ_of_le hle), if_pos hle]
      exact hold.insertAfter (hnodup.sublist hsub) fun hmem => hfresh (hsub.subset hmem)
    · rw [if_neg (by omega), if_neg hle]
      exact hold
  · rcases List.mem_append.mp hc with hc | hc
    · exact hrows c (List.mem_append_left upper hc)
    · rcases List.mem_cons.mp hc with rfl | hc
      · rw [hrow, row_append, if_pos rfl]
        rfl
      · exact hrows c (List.mem_append_right lower hc)
  · rw [List.map_append, List.map_cons, ← List.cons_append, List.nodup_middle]
    exact List.nodup_cons.mpr ⟨hfresh, hnodup⟩
  · exact increasing_insert Cell.key hinc hbelow hnew
  · rw [List.length_append] at hlen
    rw [List.length_append, List.length_cons, hlen, Nat.add_assoc]

/-- A new node between the smaller and the larger keys, on the levels of its height. -/
theorem add_spec (h : Holds s cells) {tick : Tick} {lower upper : List Cell}
    (hsplit : Around cells tick.key lower upper) (hnew : ∀ c ∈ upper, tick.key < c.key)
    {newLevel : Nat} (hlevel : newLevel ≤ MAX_LEVEL) {update : Update}
    (hupdate : ∀ i ≤ s.level, update[i]? = some (some (endOf s.head (ptrs i lower)))) :
    ∃ s', add s tick.key tick newLevel update = some s' ∧
      Holds s' (lower ++ ⟨s.heap.length, newLevel, tick⟩ :: upper) := by
  have hlow : lower ⊆ cells := hsplit.split ▸ List.subset_append_left lower upper
  obtain ⟨raised, hraise, hkept, hraised⟩ := raise_spec s.head s.level hlevel update
  have hraisedAt : ∀ i < newLevel + 1,
      raised[i]? = some (some (endOf s.head (ptrs i lower))) := by
    intro i hi
    by_cases hused : i ≤ s.level
    · rw [hkept i hused, hupdate i hused]
    · rw [hraised i (by omega) (by omega), h.ptrs_above_eq_nil hlow (by omega), endOf_nil]
  have hreadable : ∀ i < newLevel + 1, ∃ next,
      forward (s.heap ++ [some (Node.new tick.key tick)]) i (endOf s.head (ptrs i lower)) =
        some next := by
    intro i hi
    have hchain := h.chain_append_heap (Node.new tick.key tick) (i := i) (by omega)
    rw [hsplit.split, ptrs_append] at hchain
    exact (chain_append.mp hchain).2.readable
  have hnull : ∀ i < newLevel + 1, ∃ next,
      forward (s.heap ++ [some (Node.new tick.key tick)]) i s.heap.length = some next := by
    intro i hi
    have hlt : i < MAX_LEVEL + 1 := by omega
    exact ⟨none, by simp [forward_append, Node.new, hlt]⟩
  obtain ⟨heap', hlinks, -, hrow, hforward⟩ := links_spec hraisedAt
    (fun i _ => h.fresh _ (prev_mem s hsplit i)) hreadable hnull
  refine ⟨⟨heap', s.head, max s.level newLevel, s.len + 1⟩, ?_,
    h.spliced hsplit hnew hlevel hrow hforward⟩
  simp only [add, hraise, Option.bind_eq_bind, Option.bind_some, hlinks]
  rfl

/-- A node that has the key gets the new tick. -/
theorem replaced (h : Holds s cells) {tick : Tick} {c : Cell} {lower upper : List Cell}
    (hsplit : cells = lower ++ c :: upper) (hkey : c.key = tick.key) {node : Node}
    (hread : read s.heap c.ptr = some node) :
    ∃ heap', write s.heap c.ptr { node with tick } = some heap' ∧
      Holds { s with heap := heap' } (lower ++ { c with tick } :: upper) := by
  have hset := read_set (lt_length_of_read hread) (some { node with tick })
  refine ⟨s.heap.set c.ptr (some { node with tick }), by rw [write, hread, Option.map_some], ?_⟩
  obtain ⟨hlevel, hheight, hchain, hrow, hnodup, hinc, hlen⟩ := h
  subst hsplit
  have hforward : ∀ i, forward (s.heap.set c.ptr (some { node with tick })) i =
      forward s.heap i := by
    intro i
    funext q
    unfold forward
    rw [hset]
    split_ifs with hq
    · rw [hq, hread]
      rfl
    · rfl
  have hnode : node.key = tick.key := by
    obtain ⟨node', hread', hkey', -⟩ :=
      read_of_row (hrow c (List.mem_append_right lower List.mem_cons_self))
    rw [hread] at hread'
    cases hread'
    exact hkey'.trans hkey
  rw [List.map_append, List.map_cons] at hnodup
  have hother : ∀ d ∈ lower ++ upper, d.ptr ≠ c.ptr := by
    intro d hd heq
    rw [← List.cons_append, List.nodup_middle] at hnodup
    have hmem := List.mem_map_of_mem (f := Cell.ptr) hd
    rw [heq, List.map_append] at hmem
    exact (List.nodup_cons.mp hnodup).1 (List.mem_cons_of_mem _ hmem)
  have hrest : ∀ d ∈ lower ++ upper, NodeHeap.row (s.heap.set c.ptr (some { node with tick }))
      d.ptr = some (d.key, d.tick) := by
    intro d hd
    rw [NodeHeap.row, hset, if_neg (hother d hd)]
    refine hrow d ?_
    rcases List.mem_append.mp hd with hd | hd
    · exact List.mem_append_left _ hd
    · exact List.mem_append_right _ (List.mem_cons_of_mem c hd)
  refine ⟨hlevel, fun d hd => ?_, fun i hi => ?_, fun d hd => ?_, ?_, ?_, ?_⟩
  · rcases List.mem_append.mp hd with hd | hd
    · exact hheight d (List.mem_append_left _ hd)
    · rcases List.mem_cons.mp hd with rfl | hd
      · exact hheight c (List.mem_append_right lower List.mem_cons_self)
      · exact hheight d (List.mem_append_right lower (List.mem_cons_of_mem c hd))
  · have hold := hchain i hi
    rw [ptrs_append, ptrs_cons] at hold
    rw [hforward, ptrs_append, ptrs_cons]
    exact hold
  · rcases List.mem_append.mp hd with hd | hd
    · exact hrest d (List.mem_append_left upper hd)
    · rcases List.mem_cons.mp hd with rfl | hd
      · rw [NodeHeap.row, hset, if_pos rfl, Option.map_some, hnode]
        rfl
      · exact hrest d (List.mem_append_right lower hd)
  · rw [List.map_append, List.map_cons]
    exact hnodup
  · have hsame : ({ c with tick } : Cell).key = c.key := hkey.symm
    obtain ⟨hlower, hupper, hcross⟩ := List.pairwise_append.mp hinc
    obtain ⟨hc, hupper⟩ := List.pairwise_cons.mp hupper
    refine List.pairwise_append.mpr ⟨hlower, List.pairwise_cons.mpr ⟨?_, hupper⟩, ?_⟩
    · rw [hsame]
      exact hc
    · intro y hy z hz
      rcases List.mem_cons.mp hz with rfl | hz
      · rw [hsame]
        exact hcross y hy c List.mem_cons_self
      · exact hcross y hy z (List.mem_cons_of_mem c hz)
  · rw [List.length_append, List.length_cons] at hlen ⊢
    exact hlen

/-- One insertion keeps the shape and inserts into the ticks in key order. -/
theorem insert_spec (h : Holds s cells) (tick : Tick) {newLevel : Nat}
    (hlevel : newLevel ≤ MAX_LEVEL) :
    ∃ s' cells', s.insert tick newLevel = some s' ∧ Holds s' cells' ∧
      cells'.map Cell.tick = insertRow Tick.key tick (cells.map Cell.tick) := by
  obtain ⟨lower, upper, hcells, hbelow, habove⟩ := exists_split Cell.key h.increasing tick.key
  have hsplit : Around cells tick.key lower upper := ⟨hcells, hbelow, habove⟩
  have hlow : lower ⊆ cells := hcells ▸ List.subset_append_left lower upper
  have htop : ptrs (s.level + 1) lower = [] := h.ptrs_above_eq_nil hlow (Nat.lt_succ_self _)
  obtain ⟨update, hdescend, hupdate⟩ := h.descend_spec hsplit (Nat.succ_le_succ h.level)
    (Vector.replicate _ none)
  rw [htop, endOf_nil] at hdescend
  have hupdate' : ∀ i ≤ s.level, update[i]? = some (some (endOf s.head (ptrs i lower))) :=
    fun i hi => by rw [hupdate, if_pos (Nat.lt_succ_of_le hi)]
  have hnext := h.next_eq hsplit
  have hrows : insertRow Tick.key tick (cells.map Cell.tick) =
      lower.map Cell.tick ++ insertRow Tick.key tick (upper.map Cell.tick) := by
    rw [hcells, List.map_append]
    exact insertRow_append Tick.key
      (fun y hy => by obtain ⟨c, hc, rfl⟩ := List.mem_map.mp hy; exact hbelow c hc) _
  cases upper with
  | nil =>
    obtain ⟨s', hadd, hs'⟩ := h.add_spec hsplit nofun hlevel hupdate'
    refine ⟨s', _, ?_, hs', ?_⟩
    · simpa [insert, hdescend, hnext] using hadd
    · rw [hrows, List.map_append]
      rfl
  | cons c upper =>
    have hmem : c ∈ cells := hcells ▸ List.mem_append_right lower List.mem_cons_self
    obtain ⟨node, hread, hnode, -⟩ := read_of_row (h.row c hmem)
    by_cases hkey : c.key = tick.key
    · obtain ⟨heap', hwrite, hs'⟩ := h.replaced hcells hkey hread
      refine ⟨{ s with heap := heap' }, _, ?_, hs', ?_⟩
      · simp only [insert, hdescend, Option.bind_eq_bind, Option.bind_some, hnext,
          List.head?_cons, Option.map_some, hread, if_pos (hnode.trans hkey), hwrite]
        rfl
      · have hc : c.tick.key = tick.key := hkey
        rw [hrows, List.map_append, List.map_cons, List.map_cons, insertRow,
          if_neg hc.not_lt, if_pos hc]
    · have hlt : tick.key < c.key := lt_of_le_of_ne (habove c List.mem_cons_self) (Ne.symm hkey)
      have habove' : ∀ d ∈ c :: upper, tick.key < d.key := by
        have hinc := h.increasing
        rw [hcells] at hinc
        obtain ⟨-, hupper, -⟩ := List.pairwise_append.mp hinc
        exact List.forall_mem_cons.mpr
          ⟨hlt, fun d hd => hlt.trans ((List.pairwise_cons.mp hupper).1 d hd)⟩
      obtain ⟨s', hadd, hs'⟩ := h.add_spec hsplit habove' hlevel hupdate'
      refine ⟨s', _, ?_, hs', ?_⟩
      · simpa [insert, hdescend, hnext, hread, hnode, hkey] using hadd
      · have hc : ¬ c.tick.key < tick.key := hlt.not_gt
        have hne : c.tick.key ≠ tick.key := hkey
        rw [hrows, List.map_append, List.map_cons, List.map_cons, insertRow, if_neg hc, if_neg hne]

/-- A lookup finds the row of the key. -/
theorem get_eq (h : Holds s cells) (key : Key) :
    s.get key = some (firstAt Tick.key (cells.map Cell.tick) key) := by
  obtain ⟨lower, upper, hcells, hbelow, habove⟩ := exists_split Cell.key h.increasing key
  have hsplit : Around cells key lower upper := ⟨hcells, hbelow, habove⟩
  have hlow : lower ⊆ cells := hcells ▸ List.subset_append_left lower upper
  have hseek := h.seek_eq hsplit (Nat.succ_le_succ h.level)
  rw [h.ptrs_above_eq_nil hlow (Nat.lt_succ_self _), endOf_nil] at hseek
  have hnext := h.next_eq hsplit
  have hlower : firstAt Tick.key (lower.map Cell.tick) key = none := by
    rw [firstAt_eq_none_iff]
    intro x hx
    obtain ⟨c, hc, rfl⟩ := List.mem_map.mp hx
    exact (hbelow c hc).ne
  rw [hcells, List.map_append, firstAt_append, hlower, Option.none_or]
  cases upper with
  | nil => simp [get, hseek, hnext]
  | cons c upper =>
    have hmem : c ∈ cells := hcells ▸ List.mem_append_right lower List.mem_cons_self
    obtain ⟨node, hread, hnode, htick⟩ := read_of_row (h.row c hmem)
    rw [List.map_cons, firstAt_cons]
    have hget : s.get key = some (if c.key = key then some c.tick else none) := by
      simp [get, hseek, hnext, hread, hnode, htick]
    rw [hget]
    by_cases hkey : c.key = key
    · have hc : c.tick.key = key := hkey
      rw [if_pos hkey, if_pos hc]
    · have hlt : key < c.key := lt_of_le_of_ne (habove c List.mem_cons_self) (Ne.symm hkey)
      have hnone : firstAt Tick.key (upper.map Cell.tick) key = none := by
        rw [firstAt_eq_none_iff]
        intro x hx
        obtain ⟨d, hd, rfl⟩ := List.mem_map.mp hx
        have hinc := h.increasing
        rw [hcells] at hinc
        obtain ⟨-, hupper, -⟩ := List.pairwise_append.mp hinc
        exact (hlt.trans ((List.pairwise_cons.mp hupper).1 d hd)).ne'
      have hc : c.tick.key ≠ key := hkey
      rw [if_neg hkey, if_neg hc, hnone]

end Holds

end SkipListNodes

end Graphite
