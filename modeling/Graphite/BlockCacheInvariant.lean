import Mathlib.Data.List.Perm.Subperm
import Graphite.BlockCacheLinks
import Graphite.LruMap

/-! The block cache keeps its structure: list, map, free slots and byte count agree after
every call, so that no call fails and the eviction loop ends. What a call does to the
entries, the most recently moved first, is stated beside it. -/

namespace Graphite
open BigEndian DoublyLinked

namespace BlockCache

/-- What the slots of the list hold. -/
def entries (c : BlockCache) (order : List Nat) : List (CacheKey × Bytes) :=
  order.filterMap (nodeEntry c.nodes)

theorem lookup_filter_ne {β : Type} (map : List (CacheKey × β)) (key key' : CacheKey) :
    (map.filter fun e => e.1 ≠ key).lookup key' = if key' = key then none else map.lookup key' := by
  induction map with
  | nil => rw [List.filter_nil, List.lookup_nil, ite_self]
  | cons e map ih =>
    rw [List.lookup_cons]
    by_cases he : e.1 = key
    · rw [List.filter_cons_of_neg (by simpa using he), ih]
      split_ifs with hkey
      · rfl
      · rw [beq_eq_false_iff_ne.mpr fun heq => hkey (heq.trans he)]
    · rw [List.filter_cons_of_pos (by simpa using he), List.lookup_cons, ih]
      by_cases hkey : key' = e.1
      · subst hkey
        rw [beq_self_eq_true, if_neg he, if_neg he]
      · rw [beq_eq_false_iff_ne.mpr hkey]

theorem keys_entries (c : BlockCache) (order : List Nat) : (c.entries order).map Prod.fst =
    order.filterMap fun i => (nodeEntry c.nodes i).map Prod.fst := by
  rw [entries, List.map_filterMap]

namespace Represents
variable {c : BlockCache} {order : List Nat}

theorem lt_length (h : c.Represents order) {i : Nat} (hi : i ∈ order) : i < c.nodes.length :=
  lt_length_of_segment h.linked hi

theorem nodeEntry_eq (h : c.Represents order) {i : Nat} (hi : i ∈ order) :
    ∃ node, c.nodes[i]? = some node ∧ nodeEntry c.nodes i = some (node.key, node.data) := by
  have hnode := List.getElem?_eq_getElem (h.lt_length hi)
  exact ⟨_, hnode, by rw [nodeEntry, hnode]; rfl⟩

/-- There are at most as many live nodes as slots. -/
theorem length_le (h : c.Represents order) : order.length ≤ c.nodes.length := by
  have hsub : order ⊆ List.range c.nodes.length := fun i hi =>
    List.mem_range.mpr (h.lt_length hi)
  simpa using (h.nodup.subperm hsub).length_le

theorem keys_nodup (h : c.Represents order) : ((c.entries order).map Prod.fst).Nodup := by
  rw [keys_entries]
  refine List.pairwise_filterMap.mpr (h.nodup.imp_of_mem ?_)
  rintro i j hi hj hne key hkey _ hkey' rfl
  have hlookup := (h.mapped key i).mpr ⟨hi, hkey⟩
  exact hne (Option.some.inj (hlookup.symm.trans ((h.mapped key j).mpr ⟨hj, hkey'⟩)))

/-- A mapped key's slot holds what the entries hold under it. -/
theorem lookup_entries (h : c.Represents order) {key : CacheKey} {i : Nat}
    (hi : c.map.lookup key = some i) : ∃ node, c.nodes[i]? = some node ∧ node.key = key ∧
      (c.entries order).lookup key = some node.data := by
  obtain ⟨hmem, hkey⟩ := (h.mapped key i).mp hi
  obtain ⟨node, hnode, hentry⟩ := h.nodeEntry_eq hmem
  rw [hentry] at hkey
  obtain rfl : node.key = key := Option.some.inj hkey
  refine ⟨node, hnode, rfl, LruMap.lookup_of_mem h.keys_nodup ?_⟩
  exact List.mem_filterMap.mpr ⟨i, hmem, hentry⟩

theorem not_mem_keys (h : c.Represents order) {key : CacheKey} (hkey : c.map.lookup key = none) :
    key ∉ (c.entries order).map Prod.fst := by
  rw [keys_entries, List.mem_filterMap]
  rintro ⟨i, hi, hsame⟩
  rw [(h.mapped key i).mpr ⟨hi, hsame⟩] at hkey
  cases hkey

theorem size_eq_total (h : c.Represents order) :
    c.currentSize = LruMap.total List.length (c.entries order) := h.size

end Represents

theorem new_represents (capacityMb : Nat) : (new capacityMb).Represents [] where
  linked := rfl
  nodup := List.nodup_nil
  tail := rfl
  mapped := by simp [new]
  free := by simp [new]
  freeNodup := List.nodup_nil
  size := rfl

theorem clear_represents (c : BlockCache) : c.clear.Represents [] where
  linked := rfl
  nodup := List.nodup_nil
  tail := rfl
  mapped := by simp [clear]
  free := by simp [clear]
  freeNodup := List.nodup_nil
  size := rfl

/-- The node at the tail goes, and its slot is free. -/
theorem removeTail_spec (c : BlockCache) {order : List Nat} {t : Nat}
    (h : c.Represents (order ++ [t])) :
    ∃ c' e, c.removeTail = some (some t, c') ∧ c'.Represents order ∧ c'.capacity = c.capacity ∧
      c.entries (order ++ [t]) = c'.entries order ++ [e] := by
  obtain ⟨node, hnode, hentry⟩ := h.nodeEntry_eq (List.mem_append_right order List.mem_cons_self)
  obtain ⟨hlinks, hrest⟩ := h.linked.unlink h.nodup
  obtain ⟨hnodup, -, hdisj⟩ := List.nodup_append.mp h.nodup
  have ht : t ∉ order := fun hmem => hdisj t hmem t List.mem_cons_self rfl
  have hprev : node.prev = order.getLast? := by
    rw [nodeLinks, hnode] at hlinks
    exact (Prod.mk.inj (Option.some.inj hlinks)).1
  have hsize : c.currentSize = LruMap.total List.length (c.entries order) + node.data.length := by
    rw [h.size_eq_total, entries, List.filterMap_append, LruMap.total_append,
      List.filterMap_cons_some hentry]
    rfl
  have hkey : ∀ i ∈ order, (nodeEntry c.nodes i).map Prod.fst ≠ some node.key := by
    intro i hi hsame
    have hi' := (h.mapped node.key i).mpr ⟨List.mem_append_left _ hi, hsame⟩
    have ht' := (h.mapped node.key t).mpr
      ⟨List.mem_append_right order List.mem_cons_self, by rw [hentry]; rfl⟩
    exact ht (Option.some.inj (ht'.symm.trans hi') ▸ hi)
  obtain ⟨nodes, hnodes, hlinked, hentries, hlength⟩ : ∃ nodes,
      { c with tail := node.prev }.endAt node.prev =
        some { c with nodes, head := order.head?, tail := node.prev } ∧
      Segment (nodeLinks nodes) none order.head? order none ∧
      nodeEntry nodes = nodeEntry c.nodes ∧ nodes.length = c.nodes.length := by
    rcases List.eq_nil_or_concat' order with rfl | ⟨front, p, rfl⟩
    · rw [hprev]
      exact ⟨c.nodes, rfl, rfl, rfl, rfl⟩
    · rw [List.getLast?_concat] at hprev
      have hp : p < c.nodes.length := h.lt_length (by simp)
      obtain ⟨nodes, hset, hlinks', hentry', hlength'⟩ :=
        { c with tail := node.prev }.setNext_spec hp none
      have hhead : c.head = (front ++ [p]).head? := by
        rw [h.linked.start_eq, List.head?_append_of_ne_nil _ (by simp)]
      rw [List.head?_nil, setPrev_none, List.getLast?_concat, if_neg (by simp), hhead,
        List.append_nil] at hrest
      refine ⟨nodes, ?_, hlinks' ▸ hrest, hentry', hlength'⟩
      rw [hprev] at hset ⊢
      rw [← hhead]
      exact hset
  have hremoved : c.removeTail = some (some t, { c with
      nodes, head := order.head?, tail := node.prev, freeList := t :: c.freeList,
      currentSize := LruMap.total List.length (c.entries order),
      map := c.map.filter fun e => e.1 ≠ node.key }) := by
    obtain ⟨node', hnode', hpair⟩ : ∃ node', nodes[t]? = some node' ∧
        (node'.key, node'.data) = (node.key, node.data) := by
      have hsame : nodeEntry nodes t = some (node.key, node.data) := by rw [hentries, hentry]
      exact Option.map_eq_some_iff.mp hsame
    obtain ⟨hkey', hdata'⟩ := Prod.mk.inj hpair
    have htail : c.tail = some t := by rw [h.tail, List.getLast?_concat]
    rw [removeTail, htail]
    simp only [Option.bind_eq_bind, hnode, Option.bind_some, hnodes, hnode', hkey', shrink, hdata',
      Option.pure_def]
    rw [if_pos (by omega), Option.bind_some, hsize, Nat.add_sub_cancel]
  refine ⟨_, (node.key, node.data), hremoved, ?_, rfl, ?_⟩
  · refine ⟨hlinked, hnodup, hprev, fun key i => ?_, fun i => ?_, ?_, ?_⟩
    · show List.lookup key (c.map.filter fun e => e.1 ≠ node.key) = some i ↔
        i ∈ order ∧ (nodeEntry nodes i).map Prod.fst = some key
      rw [lookup_filter_ne, hentries]
      split_ifs with heq
      · subst heq
        simpa using fun hi => hkey i hi
      · rw [h.mapped, List.mem_append, List.mem_singleton, or_and_right, or_iff_left]
        rintro ⟨rfl, hsame⟩
        rw [hentry] at hsame
        exact heq (Option.some.inj hsame).symm
    · show i ∈ t :: c.freeList ↔ i < nodes.length ∧ i ∉ order
      have htLt : t < c.nodes.length := h.lt_length (by simp)
      rw [List.mem_cons, h.free, hlength, List.mem_append, List.mem_singleton]
      grind
    · refine List.nodup_cons.mpr ⟨fun hmem => ?_, h.freeNodup⟩
      exact ((h.free t).mp hmem).2 (List.mem_append_right order List.mem_cons_self)
    · show LruMap.total List.length (c.entries order) =
        LruMap.total List.length (order.filterMap (nodeEntry nodes))
      rw [hentries]
      rfl
  · show c.entries (order ++ [t]) = order.filterMap (nodeEntry nodes) ++ [_]
    rw [hentries, entries, List.filterMap_append, List.filterMap_cons_some hentry]
    rfl

/-- A cache of some slots that fits holds these entries, the most recently moved first. -/
def Holds (c : BlockCache) (es : List (CacheKey × Bytes)) : Prop :=
  ∃ order, c.Represents order ∧ c.currentSize ≤ c.capacity ∧ c.entries order = es

/-- Nodes go from the tail on until the rest fits. -/
theorem evictLoop_spec {rounds : Nat} {c : BlockCache} {order : List Nat}
    (h : c.Represents order) (hrounds : order.length < rounds) :
    ∃ c', evictLoop rounds c = some c' ∧ c'.capacity = c.capacity ∧
      c'.Holds (LruMap.fit List.length c.capacity (c.entries order)) := by
  induction rounds generalizing c order with
  | zero => omega
  | succ rounds ih =>
    rw [evictLoop]
    split_ifs with hsize
    · rw [h.size_eq_total] at hsize
      rcases List.eq_nil_or_concat' order with rfl | ⟨order, t, rfl⟩
      · exact absurd hsize (Nat.not_lt_zero _)
      · obtain ⟨c', e, hremoved, h', hcapacity, hentries⟩ := c.removeTail_spec h
        rw [List.length_append, List.length_singleton] at hrounds
        obtain ⟨c'', hloop, hcapacity', hholds⟩ := ih h' (by omega)
        refine ⟨c'', ?_, hcapacity'.trans hcapacity, ?_⟩
        · rw [hremoved]
          exact hloop
        · rw [hcapacity] at hholds
          rw [hentries] at hsize ⊢
          rwa [LruMap.fit_concat hsize]
    · refine ⟨c, rfl, rfl, order, h, Nat.not_lt.mp hsize, ?_⟩
      rw [LruMap.fit_of_total_le]
      rw [← h.size_eq_total]
      exact Nat.not_lt.mp hsize

theorem evictIfNeeded_spec (c : BlockCache) {order : List Nat} (h : c.Represents order) :
    ∃ c', c.evictIfNeeded = some c' ∧ c'.capacity = c.capacity ∧
      c'.Holds (LruMap.fit List.length c.capacity (c.entries order)) :=
  evictLoop_spec h (Nat.lt_succ_of_le h.length_le)

/-- A new node takes the last slot set free, else a new one; the list stays as it is. -/
theorem allocNode_spec (c : BlockCache) {order : List Nat} (h : c.Represents order)
    (key : CacheKey) (data : Bytes) :
    ∃ idx nodes freeList, c.allocNode key data = some (idx, { c with nodes, freeList }) ∧
      Segment (nodeLinks nodes) none c.head order none ∧
      nodeEntry nodes idx = some (key, data) ∧ idx < nodes.length ∧ idx ∉ order ∧
      (∀ i ∈ order, nodeEntry nodes i = nodeEntry c.nodes i) ∧
      (∀ i, i ∈ freeList ↔ i < nodes.length ∧ i ∉ idx :: order) ∧ freeList.Nodup := by
  cases hfree : c.freeList with
  | nil =>
    have hnew : c.nodes.length ∉ order := fun hmem => Nat.lt_irrefl _ (h.lt_length hmem)
    refine ⟨c.nodes.length, c.nodes ++ [⟨key, data, none, none⟩], [], ?_, ?_, ?_, ?_, hnew, ?_, ?_,
      List.nodup_nil⟩
    · rw [allocNode, hfree]
    · refine h.linked.congr fun i hi => ?_
      rw [nodeLinks, nodeLinks, List.getElem?_append_left (h.lt_length hi)]
    · rw [nodeEntry, List.getElem?_concat_length]
      rfl
    · simp
    · intro i hi
      rw [nodeEntry, nodeEntry, List.getElem?_append_left (h.lt_length hi)]
    · intro i
      have := h.free i
      rw [hfree] at this
      simp only [List.length_append, List.length_singleton, List.mem_cons] at this ⊢
      grind
  | cons idx freeList =>
    obtain ⟨hidx, hnotMem⟩ := (h.free idx).mp (hfree ▸ List.mem_cons_self)
    have hne : ∀ i ∈ order, idx ≠ i := fun i hi heq => hnotMem (heq ▸ hi)
    obtain ⟨hfreeMem, hnodup⟩ := List.nodup_cons.mp (hfree ▸ h.freeNodup)
    refine ⟨idx, c.nodes.set idx ⟨key, data, none, none⟩, freeList, ?_, ?_, ?_, ?_, hnotMem, ?_,
      ?_, hnodup⟩
    · rw [allocNode, hfree]
      simp only [modifyNode, List.getElem?_eq_getElem hidx, Option.map_some]
    · refine h.linked.congr fun i hi => ?_
      rw [nodeLinks_set hidx, if_neg (hne i hi)]
    · rw [nodeEntry_set hidx, if_pos rfl]
    · rwa [List.length_set]
    · intro i hi
      rw [nodeEntry_set hidx, if_neg (hne i hi)]
    · intro i
      have := h.free i
      rw [hfree] at this
      rw [List.length_set]
      grind

theorem get_spec (c : BlockCache) {es : List (CacheKey × Bytes)} (h : c.Holds es)
    (key : CacheKey) :
    ∃ c', c.get key = some (es.lookup key, c') ∧ c'.capacity = c.capacity ∧ c'.Holds es := by
  obtain ⟨order, hrep, hfits, rfl⟩ := h
  have hkept : ∀ hits misses, { c with hits, misses }.Holds (c.entries order) := fun _ _ =>
    ⟨order, ⟨hrep.linked, hrep.nodup, hrep.tail, hrep.mapped, hrep.free, hrep.freeNodup, hrep.size⟩,
      hfits, rfl⟩
  rw [get]
  cases hkey : c.map.lookup key with
  | none =>
    refine ⟨{ c with misses := c.misses + 1 }, ?_, rfl, hkept _ _⟩
    rw [LruMap.lookup_eq_none (hrep.not_mem_keys hkey)]
  | some idx =>
    obtain ⟨node, hnode, -, hlookup⟩ := hrep.lookup_entries hkey
    refine ⟨{ c with hits := c.hits + 1 }, ?_, rfl, hkept _ _⟩
    rw [hlookup]
    simp only [hnode, Option.bind_eq_bind, Option.bind_some, Option.pure_def]

/-- New data for a key that is there: it moves to the front. -/
theorem insert_present (c : BlockCache) {order : List Nat} (h : c.Represents order)
    {key : CacheKey} {idx : Nat} (hkey : c.map.lookup key = some idx) {data : Bytes}
    (hdata : data.length ≤ c.capacity) :
    ∃ c', c.insert key data = some c' ∧ c'.capacity = c.capacity ∧
      c'.Holds (LruMap.fit List.length c.capacity
        ((key, data) :: LruMap.erase key (c.entries order))) := by
  obtain ⟨hmem, -⟩ := (h.mapped key idx).mp hkey
  obtain ⟨node, hnode, rfl, -⟩ := h.lookup_entries hkey
  obtain ⟨front, back, rfl⟩ := List.append_of_mem hmem
  have hidx : idx < c.nodes.length := h.lt_length hmem
  have hentry : nodeEntry c.nodes idx = some (node.key, node.data) := by
    rw [nodeEntry, hnode]
    rfl
  have hold : c.entries (front ++ idx :: back) =
      c.entries front ++ (node.key, node.data) :: c.entries back := by
    rw [entries, List.filterMap_append, List.filterMap_cons_some hentry]
    rfl
  have hsize : c.currentSize = LruMap.total List.length (c.entries front) +
      (node.data.length + LruMap.total List.length (c.entries back)) := by
    rw [h.size_eq_total, hold, LruMap.total_append, LruMap.total_cons]
  have hnodup : (idx :: (front ++ back)).Nodup := List.perm_middle.nodup_iff.mp h.nodup
  have hrest : ∀ i ∈ front ++ back, idx ≠ i := fun i hi heq =>
    (List.nodup_cons.mp hnodup).1 (heq ▸ hi)
  have hlinks : nodeLinks (c.nodes.set idx { node with data }) = nodeLinks c.nodes := by
    funext i
    rw [nodeLinks_set hidx]
    split_ifs with heq
    · rw [← heq, nodeLinks, hnode]
      rfl
    · rfl
  obtain ⟨nodes, hmove, hlinked, hentries, hlength⟩ :=
    { c with
      nodes := c.nodes.set idx { node with data }
      currentSize := c.currentSize - node.data.length + data.length }.moveToHead_spec
      (hlinks ▸ h.linked) h.tail h.nodup
  have hnew : (idx :: (front ++ back)).filterMap (nodeEntry nodes) =
      (node.key, data) :: (c.entries front ++ c.entries back) := by
    have hfirst : nodeEntry (c.nodes.set idx { node with data }) idx = some (node.key, data) := by
      rw [nodeEntry_set hidx, if_pos rfl]
    have hothers : (front ++ back).filterMap (nodeEntry (c.nodes.set idx { node with data })) =
        (front ++ back).filterMap (nodeEntry c.nodes) :=
      List.filterMap_congr fun i hi => by rw [nodeEntry_set hidx, if_neg (hrest i hi)]
    rw [hentries, List.filterMap_cons_some hfirst, hothers, List.filterMap_append]
    rfl
  have hrep : { c with
      nodes, head := some idx, tail := (idx :: (front ++ back)).getLast?
      currentSize := c.currentSize - node.data.length + data.length }.Represents
        (idx :: (front ++ back)) := by
    refine ⟨hlinked, hnodup, rfl, fun key i => ?_, fun i => ?_, h.freeNodup, ?_⟩
    · show c.map.lookup key = some i ↔
        i ∈ idx :: (front ++ back) ∧ (nodeEntry nodes i).map Prod.fst = some key
      have hkeys : (nodeEntry nodes i).map Prod.fst = (nodeEntry c.nodes i).map Prod.fst := by
        rw [hentries, nodeEntry_set hidx]
        split_ifs with heq
        · rw [← heq, hentry]
          rfl
        · rfl
      rw [h.mapped, List.perm_middle.mem_iff, hkeys]
    · show i ∈ c.freeList ↔ i < nodes.length ∧ i ∉ idx :: (front ++ back)
      rw [h.free, List.perm_middle.mem_iff, hlength, List.length_set]
    · show c.currentSize - node.data.length + data.length =
        LruMap.total List.length ((idx :: (front ++ back)).filterMap (nodeEntry nodes))
      rw [hnew, LruMap.total_cons, LruMap.total_append, hsize]
      dsimp only
      omega
  obtain ⟨c', hevict, hcapacity, hholds⟩ := evictIfNeeded_spec _ hrep
  refine ⟨c', ?_, hcapacity, ?_⟩
  · rw [insert, if_neg (Nat.not_lt.mpr hdata), hkey]
    simp only [hnode, shrink, modifyNode, Option.bind_eq_bind, Option.bind_some]
    rw [if_pos (by omega), Option.bind_some, hnode]
    simp only [Option.map_some, Option.bind_some, hmove, hevict]
  · rw [hold, LruMap.erase_append_cons (hold ▸ h.keys_nodup), ← hnew]
    exact hholds

/-- A key that is not there takes a free slot or a new one. -/
theorem insert_absent (c : BlockCache) {order : List Nat} (h : c.Represents order)
    {key : CacheKey} (hkey : c.map.lookup key = none) {data : Bytes}
    (hdata : data.length ≤ c.capacity) :
    ∃ c', c.insert key data = some c' ∧ c'.capacity = c.capacity ∧
      c'.Holds (LruMap.fit List.length c.capacity
        ((key, data) :: LruMap.erase key (c.entries order))) := by
  obtain ⟨idx, nodes, freeList, halloc, hlinked, hentry, hidx, hnotMem, hsame, hfree, hnodupFree⟩ :=
    c.allocNode_spec h key data
  have hnodup : (idx :: order).Nodup := List.nodup_cons.mpr ⟨hnotMem, h.nodup⟩
  obtain ⟨nodes', hadd, hlinked', hentry', hlength'⟩ :=
    { c with
      nodes, freeList, map := (key, idx) :: c.map
      currentSize := c.currentSize + data.length }.addToHead_spec hlinked h.tail hnodup hidx
  have hentries : (idx :: order).filterMap (nodeEntry nodes') =
      (key, data) :: c.entries order := by
    rw [hentry', List.filterMap_cons_some hentry, List.filterMap_congr hsame]
    rfl
  have hrep : { c with
      nodes := nodes', freeList, map := (key, idx) :: c.map
      currentSize := c.currentSize + data.length, head := some idx
      tail := (idx :: order).getLast? }.Represents (idx :: order) := by
    refine ⟨hlinked', hnodup, rfl, fun key' i => ?_, fun i => ?_, hnodupFree, ?_⟩
    · show List.lookup key' ((key, idx) :: c.map) = some i ↔
        i ∈ idx :: order ∧ (nodeEntry nodes' i).map Prod.fst = some key'
      rw [hentry', List.lookup_cons, List.mem_cons, or_and_right]
      have hold : (i ∈ order ∧ (nodeEntry nodes i).map Prod.fst = some key') ↔
          c.map.lookup key' = some i := by
        rw [h.mapped]
        exact and_congr_right fun hi => by rw [hsame i hi]
      have hnew : (i = idx ∧ (nodeEntry nodes i).map Prod.fst = some key') ↔
          idx = i ∧ key' = key := by
        constructor
        · rintro ⟨rfl, hi⟩
          rw [hentry] at hi
          exact ⟨rfl, (Option.some.inj hi).symm⟩
        · rintro ⟨rfl, rfl⟩
          exact ⟨rfl, by rw [hentry]; rfl⟩
      rw [hold, hnew]
      by_cases heq : key' = key
      · rw [heq, beq_self_eq_true, hkey]
        simp
      · rw [beq_eq_false_iff_ne.mpr heq]
        simp [heq]
    · show i ∈ freeList ↔ i < nodes'.length ∧ i ∉ idx :: order
      rw [hlength']
      exact hfree i
    · show c.currentSize + data.length =
        LruMap.total List.length ((idx :: order).filterMap (nodeEntry nodes'))
      rw [hentries, LruMap.total_cons, h.size_eq_total, Nat.add_comm]
  obtain ⟨c', hevict, hcapacity, hholds⟩ := evictIfNeeded_spec _ hrep
  refine ⟨c', ?_, hcapacity, ?_⟩
  · rw [insert, if_neg (Nat.not_lt.mpr hdata), hkey]
    simp only [halloc, Option.bind_eq_bind, Option.bind_some, hadd, hevict]
  · rw [LruMap.erase_of_not_mem (h.not_mem_keys hkey), ← hentries]
    exact hholds

/-- An insert puts the key in front and then evicts from the back; data that can never fit
is not stored and what was stored stays. -/
theorem insert_spec (c : BlockCache) {es : List (CacheKey × Bytes)} (h : c.Holds es)
    (key : CacheKey) (data : Bytes) :
    ∃ c', c.insert key data = some c' ∧ c'.capacity = c.capacity ∧
      c'.Holds (if data.length > c.capacity then es
        else LruMap.fit List.length c.capacity ((key, data) :: LruMap.erase key es)) := by
  obtain ⟨order, hrep, hfits, rfl⟩ := h
  split_ifs with hdata
  · exact ⟨c, if_pos hdata, rfl, order, hrep, hfits, rfl⟩
  · cases hkey : c.map.lookup key with
    | some idx => exact c.insert_present hrep hkey (Nat.not_lt.mp hdata)
    | none => exact c.insert_absent hrep hkey (Nat.not_lt.mp hdata)

/-- An insert brings in no other entry. -/
theorem insert_subset (c : BlockCache) {es : List (CacheKey × Bytes)} (h : c.Holds es)
    (key : CacheKey) (data : Bytes) :
    ∃ c' es', c.insert key data = some c' ∧ c'.Holds es' ∧ ∀ e ∈ es', e = (key, data) ∨ e ∈ es := by
  obtain ⟨c', hinsert, -, hholds⟩ := c.insert_spec h key data
  refine ⟨c', _, hinsert, hholds, fun e he => ?_⟩
  split_ifs at he
  · exact Or.inr he
  · exact (List.mem_cons.mp ((LruMap.fit_prefix _ _).subset he)).imp_right List.mem_of_mem_filter

theorem new_holds (capacityMb : Nat) : (new capacityMb).Holds [] :=
  ⟨[], new_represents capacityMb, Nat.zero_le _, rfl⟩

theorem clear_holds (c : BlockCache) : c.clear.Holds [] :=
  ⟨[], c.clear_represents, Nat.zero_le _, rfl⟩

theorem Holds.keys_nodup {c : BlockCache} {es : List (CacheKey × Bytes)} (h : c.Holds es) :
    (es.map Prod.fst).Nodup := by
  obtain ⟨order, hrep, -, rfl⟩ := h
  exact hrep.keys_nodup

theorem walk_eq {nodes : List CacheNode} {order : List Nat} {prev start : Option Nat}
    (h : Segment (nodeLinks nodes) prev start order none) {steps : Nat}
    (hsteps : order.length ≤ steps) : walk nodes steps start = order.filterMap (nodeEntry nodes) := by
  induction order generalizing prev start steps with
  | nil =>
    obtain rfl : start = none := h
    cases steps <;> rfl
  | cons i order ih =>
    obtain ⟨rfl, next, hlinks, hrest⟩ := h
    rw [List.length_cons] at hsteps
    obtain ⟨steps, rfl⟩ : ∃ n, steps = n + 1 := ⟨steps - 1, by omega⟩
    obtain ⟨node, hnode, hpair⟩ := Option.map_eq_some_iff.mp hlinks
    obtain ⟨-, rfl⟩ := Prod.mk.inj hpair
    have hentry : nodeEntry nodes i = some (node.key, node.data) := by
      rw [nodeEntry, hnode]
      rfl
    rw [walk, List.filterMap_cons_some hentry, ← ih hrest (Nat.le_of_succ_le_succ hsteps), hnode]

theorem Holds.contents_eq {c : BlockCache} {es : List (CacheKey × Bytes)} (h : c.Holds es) :
    c.contents = es := by
  obtain ⟨order, hrep, -, rfl⟩ := h
  exact walk_eq hrep.linked hrep.length_le

/-- A call of the cache. -/
inductive CacheCall
  | get (key : CacheKey)
  | insert (key : CacheKey) (data : Bytes)
  | clear
  deriving DecidableEq, Repr

namespace CacheCall

/-- The answer, none but from `get`, and the cache afterwards. -/
def exec (c : BlockCache) : CacheCall → Option (Option Bytes × BlockCache)
  | .get key => c.get key
  | .insert key data => (c.insert key data).map fun c => (none, c)
  | .clear => some (none, c.clear)

/-- The cache after a list of calls, none where one of them fails. -/
def execAll (c : BlockCache) (calls : List CacheCall) : Option BlockCache :=
  calls.foldlM (fun c call => (call.exec c).map Prod.snd) c

/-- The answer by the entries held. -/
def reads (es : List (CacheKey × Bytes)) : CacheCall → Option Bytes
  | .get key => es.lookup key
  | .insert _ _ | .clear => none

/-- The entries held afterwards. -/
def leaves (capacity : Nat) (es : List (CacheKey × Bytes)) :
    CacheCall → List (CacheKey × Bytes)
  | .get _ => es
  | .insert key data => if data.length > capacity then es
      else LruMap.fit List.length capacity ((key, data) :: LruMap.erase key es)
  | .clear => []

end CacheCall

/-- No call fails, and each keeps the capacity. -/
theorem exec_spec {c : BlockCache} {es : List (CacheKey × Bytes)} (h : c.Holds es)
    (call : CacheCall) :
    ∃ c', call.exec c = some (call.reads es, c') ∧ c'.capacity = c.capacity ∧
      c'.Holds (call.leaves c.capacity es) := by
  cases call with
  | get key => exact c.get_spec h key
  | insert key data =>
    obtain ⟨c', hinsert, hcapacity, hholds⟩ := c.insert_spec h key data
    exact ⟨c', by rw [CacheCall.exec, hinsert]; rfl, hcapacity, hholds⟩
  | clear => exact ⟨c.clear, rfl, rfl, c.clear_holds⟩

theorem execAll_spec (calls : List CacheCall) {c : BlockCache}
    {es : List (CacheKey × Bytes)} (h : c.Holds es) :
    ∃ c' es', CacheCall.execAll c calls = some c' ∧ c'.capacity = c.capacity ∧ c'.Holds es' := by
  induction calls generalizing c es with
  | nil => exact ⟨c, es, rfl, rfl, h⟩
  | cons call calls ih =>
    obtain ⟨c₁, hexec, hcapacity₁, h₁⟩ := exec_spec h call
    obtain ⟨c₂, es₂, hrun, hcapacity₂, h₂⟩ := ih h₁
    refine ⟨c₂, es₂, ?_, hcapacity₂.trans hcapacity₁, h₂⟩
    rw [CacheCall.execAll, List.foldlM_cons, hexec]
    exact hrun

/-- After any calls the forward pointers lead from the head through the live slots, each
once, and the backward pointers from the tail through the same slots the other way; map,
free slots and byte count fit them, within the capacity. -/
theorem calls_keep_representation (capacityMb : Nat) (calls : List CacheCall) :
    ∃ c order, CacheCall.execAll (new capacityMb) calls = some c ∧ c.Represents order ∧
      Segment (reversed (nodeLinks c.nodes)) none c.tail order.reverse none ∧
      c.currentSize ≤ c.capacity ∧ c.capacity = capacityMb * 1024 * 1024 := by
  obtain ⟨c, es, hrun, hcapacity, order, hrep, hfits, -⟩ :=
    execAll_spec calls (new_holds capacityMb)
  refine ⟨c, order, hrun, hrep, ?_, hfits, hcapacity⟩
  have hreverse := hrep.linked.reverse
  rwa [Option.or_none, ← hrep.tail] at hreverse

end BlockCache

end Graphite
