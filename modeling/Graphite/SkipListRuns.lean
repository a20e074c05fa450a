import Graphite.SkipListMap

/-! Iteration, clearing and draining of the stored skip list, and runs of all its
operations: the stored list refines the sorted chain of `SkipList`. -/

namespace Graphite
open KeyedRows LinkedChain NodeHeap

namespace SkipListNodes

theorem collect_eq {heap : NodeHeap} {p : Nat} {cells : List Cell}
    (hchain : Chain (forward heap 0) p (cells.map Cell.ptr))
    (hrow : ∀ c ∈ cells, row heap c.ptr = some (c.key, c.tick)) {fuel : Nat}
    (hfuel : cells.length ≤ fuel) :
    (forward heap 0 p).bind (collect heap fuel) = some (cells.map Cell.tick) := by
  induction cells generalizing p fuel with
  | nil =>
    rw [chain_nil.mp hchain, Option.bind_some]
    cases fuel <;> rfl
  | cons c cells ih =>
    obtain ⟨fuel, rfl⟩ := Nat.exists_eq_add_of_le' (Nat.succ_le_of_lt (Nat.zero_lt_of_lt hfuel))
    obtain ⟨hnext, hrest⟩ := chain_cons.mp hchain
    obtain ⟨hc, hcells⟩ := List.forall_mem_cons.mp hrow
    obtain ⟨node, hread, -, htick⟩ := read_of_row hc
    have hmore := ih hrest hcells (Nat.le_of_succ_le_succ hfuel)
    obtain ⟨link, hlink⟩ := hrest.readable
    rw [hlink, Option.bind_some] at hmore
    simp [hnext, collect, hread, htick, hlink, hmore]

/-- The freeing loop reads the link of a node before it gives the node back. -/
theorem freeAll_spec {heap : NodeHeap} {q : Nat} {rest : List Nat}
    (hchain : Chain (forward heap 0) q rest) (hnodup : (q :: rest).Nodup) {fuel : Nat}
    (hfuel : rest.length < fuel) :
    ∃ heap', freeAll fuel (some q) heap = some heap' ∧
      ∀ r, read heap' r = if r ∈ q :: rest then none else read heap r := by
  induction rest generalizing heap q fuel with
  | nil =>
    obtain ⟨fuel, rfl⟩ := Nat.exists_eq_add_of_le' (Nat.succ_le_of_lt hfuel)
    have hlink : forward heap 0 q = some none := chain_nil.mp hchain
    obtain ⟨node, hread, -⟩ := read_of_forward hlink
    refine ⟨heap.set q none, ?_, fun r => ?_⟩
    · cases fuel <;> simp [freeAll, hlink, free, hread]
    · simp [read_set (lt_length_of_read hread)]
  | cons t rest ih =>
    obtain ⟨fuel, rfl⟩ := Nat.exists_eq_add_of_le' (Nat.succ_le_of_lt (Nat.zero_lt_of_lt hfuel))
    obtain ⟨hlink, hrest⟩ := chain_cons.mp hchain
    obtain ⟨node, hread, -⟩ := read_of_forward hlink
    obtain ⟨hq, hnodup⟩ := List.nodup_cons.mp hnodup
    have hset := read_set (lt_length_of_read hread) none
    have hkeep : Chain (forward (heap.set q none) 0) t rest := by
      refine hrest.congr fun r hr => ?_
      have hne : r ≠ q := by
        rintro rfl
        exact hq hr
      rw [forward, hset, if_neg hne]
      rfl
    obtain ⟨heap', hrun, hheap'⟩ := ih hkeep hnodup (Nat.lt_of_succ_lt_succ hfuel)
    refine ⟨heap', ?_, fun r => ?_⟩
    · simpa [freeAll, hlink, free, hread] using hrun
    · rw [hheap', hset]
      by_cases hr : r = q
      · simp [hr]
      · simp [hr]

/-- The head's links down to null. -/
theorem resetHead_spec {heap : NodeHeap} {head n : Nat}
    (h : ∀ i < n, ∃ link, forward heap i head = some link) :
    ∃ heap', (List.range n).foldlM (fun heap i => setForward heap i head none) heap =
        some heap' ∧
      ∀ i q, forward heap' i q = if i < n ∧ q = head then some none else forward heap i q := by
  induction n with
  | zero => exact ⟨heap, rfl, fun i q => by rw [if_neg fun h => Nat.not_lt_zero i h.1]⟩
  | succ n ih =>
    obtain ⟨before, hrun, hbefore⟩ := ih fun i hi => h i (Nat.lt_succ_of_lt hi)
    obtain ⟨link, hlink⟩ := h n (Nat.lt_succ_self n)
    have hold : forward before n head = some link := by
      rw [hbefore, if_neg fun h => Nat.lt_irrefl n h.1, hlink]
    obtain ⟨heap', hset, -, -, hheap'⟩ := setForward_spec hold none
    refine ⟨heap', ?_, fun i q => ?_⟩
    · rw [List.range_succ, List.foldlM_append, hrun]
      simp [hset]
    · rw [hheap', hbefore]
      by_cases hq : q = head
      · by_cases hi : i = n
        · simp [hi, hq]
        · simp only [hi, hq, if_false, and_true]
          exact if_congr (by omega) rfl rfl
      · simp [hq]

namespace Holds

variable {s : SkipListNodes} {cells : List Cell}

theorem iter_eq (h : Holds s cells) : s.iter = some (cells.map Cell.tick) := by
  have hchain := h.chain 0 (Nat.zero_le _)
  rw [ptrs_zero] at hchain
  exact collect_eq hchain h.row h.length_lt.le

/-- After the freeing loop the head's links are still there. -/
theorem freed (h : Holds s cells) :
    ∃ first heap', forward s.heap 0 s.head = some first ∧
      freeAll s.heap.length first s.heap = some heap' ∧
      ∀ i, forward heap' i s.head = forward s.heap i s.head := by
  have hchain := h.chain 0 (Nat.zero_le _)
  have hnodup := h.nodup
  have hlt := h.length_lt
  rw [ptrs_zero] at hchain
  cases cells with
  | nil =>
    refine ⟨none, s.heap, chain_nil.mp hchain, ?_, fun i => rfl⟩
    cases s.heap.length <;> rfl
  | cons c cells =>
    obtain ⟨hlink, hrest⟩ := chain_cons.mp hchain
    obtain ⟨hhead, hnodup⟩ := List.nodup_cons.mp hnodup
    obtain ⟨heap', hrun, hheap'⟩ := freeAll_spec hrest hnodup
      (by rw [List.length_map]; exact (Nat.lt_succ_self _).trans hlt)
    refine ⟨some c.ptr, heap', hlink, hrun, fun i => ?_⟩
    have hread : read heap' s.head = read s.heap s.head := by
      rw [hheap']
      exact if_neg hhead
    rw [forward, forward, hread]

theorem clear_spec (h : Holds s cells) : ∃ s', s.clear = some s' ∧ Holds s' [] := by
  obtain ⟨first, freedHeap, hfirst, hfree, hhead⟩ := h.freed
  have hlinks : ∀ i < s.level + 1, ∃ link, forward freedHeap i s.head = some link := by
    intro i hi
    rw [hhead]
    exact (h.chain i ((Nat.le_of_lt_succ hi).trans h.level)).readable
  obtain ⟨heap', hreset, hheap'⟩ := resetHead_spec hlinks
  refine ⟨⟨heap', s.head, 0, 0⟩, ?_, ?_⟩
  · simp [clear, hfirst, hfree, hreset]
  · refine ⟨Nat.zero_le _, nofun, fun i hi => ?_, nofun, List.nodup_singleton _,
      List.Pairwise.nil, rfl⟩
    refine chain_nil.mpr ?_
    rw [hheap']
    by_cases hused : i < s.level + 1
    · exact if_pos ⟨hused, rfl⟩
    · have hempty := h.chain i hi
      rw [h.ptrs_above_eq_nil (List.Subset.refl cells) (by omega)] at hempty
      rw [if_neg fun hc => hused hc.1, hhead, chain_nil.mp hempty]

theorem drain_spec (h : Holds s cells) :
    ∃ s', s.drain = some (cells.map Cell.tick, s') ∧ Holds s' [] := by
  obtain ⟨s', hclear, hs'⟩ := h.clear_spec
  exact ⟨s', by simp [drain, h.iter_eq, hclear], hs'⟩

end Holds

theorem holds_new : Holds new [] where
  level := Nat.zero_le _
  height := nofun
  chain i hi := by
    refine chain_nil.mpr ?_
    have hlt : i < MAX_LEVEL + 1 := Nat.lt_succ_of_le hi
    simp [forward, NodeHeap.read, new, Node.new, hlt]
  row := nofun
  nodup := List.nodup_singleton _
  increasing := List.Pairwise.nil
  len := rfl

/-- The cells carry the rows of a sorted chain. -/
def Represents (s : SkipListNodes) (t : SkipList) : Prop :=
  ∃ cells, Holds s cells ∧ cells.map Cell.tick = t.chain

inductive Call
  | insert (tick : Tick) (newLevel : Fin (MAX_LEVEL + 1))
  | clear
  | drain

def Call.apply : Call → SkipListNodes → Option SkipListNodes
  | .insert tick newLevel, s => s.insert tick newLevel
  | .clear, s => s.clear
  | .drain, s => s.drain.map Prod.snd

def Call.meaning : Call → SkipList → SkipList
  | .insert tick _, t => t.insert tick
  | .clear, _ => SkipList.new
  | .drain, t => t.drain.2

theorem represents_new : Represents new SkipList.new := ⟨[], holds_new, rfl⟩

/-- No operation fails, and each does to the stored list what it does to the sorted chain. -/
theorem Represents.apply {s : SkipListNodes} {t : SkipList} (h : Represents s t) (call : Call) :
    ∃ s', call.apply s = some s' ∧ Represents s' (call.meaning t) := by
  obtain ⟨cells, hs, hrows⟩ := h
  cases call with
  | insert tick newLevel =>
    obtain ⟨s', cells', hrun, hs', hcells'⟩ :=
      hs.insert_spec tick (Nat.le_of_lt_succ newLevel.isLt)
    exact ⟨s', hrun, cells', hs', by rw [hcells', hrows]; rfl⟩
  | clear =>
    obtain ⟨s', hrun, hs'⟩ := hs.clear_spec
    exact ⟨s', hrun, [], hs', rfl⟩
  | drain =>
    obtain ⟨s', hrun, hs'⟩ := hs.drain_spec
    exact ⟨s', by rw [Call.apply, hrun, Option.map_some], [], hs', rfl⟩

def run (calls : List Call) : Option SkipListNodes :=
  calls.foldlM (fun s call => call.apply s) new

def Call.track : Call → List Tick → List Tick
  | .insert tick _, ticks => ticks ++ [tick]
  | .clear, _ => []
  | .drain, _ => []

/-- The ticks inserted since the last `clear` or `drain`. -/
def inserted (calls : List Call) : List Tick :=
  calls.foldl (fun ticks call => call.track ticks) []

theorem Represents.foldlM {s : SkipListNodes} {ticks : List Tick}
    (h : Represents s (SkipList.new.insertAll ticks)) (calls : List Call) :
    ∃ s', calls.foldlM (fun s call => call.apply s) s = some s' ∧
      Represents s' (SkipList.new.insertAll
        (calls.foldl (fun ticks call => call.track ticks) ticks)) := by
  induction calls generalizing s ticks with
  | nil => exact ⟨s, rfl, h⟩
  | cons call calls ih =>
    obtain ⟨next, happly, hnext⟩ := h.apply call
    rw [List.foldlM_cons, happly]
    refine ih (?_ : Represents next (SkipList.new.insertAll (call.track ticks)))
    cases call with
    | insert tick newLevel =>
      rw [Call.track, SkipList.insertAll_append]
      exact hnext
    | clear => exact hnext
    | drain => exact hnext

theorem run_represents (calls : List Call) :
    ∃ s, run calls = some s ∧ Represents s (SkipList.new.insertAll (inserted calls)) :=
  Represents.foldlM (represents_new : Represents new (SkipList.new.insertAll [])) calls

/-- What a sorted map of the inserted ticks is, over the pointers of the list. -/
structure SortedMap (s : SkipListNodes) (ticks : List Tick) : Prop where
  chains : ∃ chain : Nat → List Nat,
    (∀ i ≤ MAX_LEVEL, Chain (forward s.heap i) s.head (chain i)) ∧
    (∀ i < MAX_LEVEL, (chain (i + 1)).Sublist (chain i)) ∧
    (chain 0).Pairwise fun p q => ∃ a b,
      read s.heap p = some a ∧ read s.heap q = some b ∧ a.key < b.key
  get : ∀ key, s.get key = some (firstAt Tick.key ticks.reverse key)
  len : s.len = (ticks.map Tick.key).dedup.length
  iter : ∃ listed, s.iter = some listed ∧ Increasing Tick.key listed ∧
    ∀ x, x ∈ listed ↔ firstAt Tick.key ticks.reverse x.key = some x

theorem Holds.chains {s : SkipListNodes} {cells : List Cell} (h : Holds s cells) :
    ∃ chain : Nat → List Nat,
      (∀ i ≤ MAX_LEVEL, Chain (forward s.heap i) s.head (chain i)) ∧
      (∀ i < MAX_LEVEL, (chain (i + 1)).Sublist (chain i)) ∧
      (chain 0).Pairwise fun p q => ∃ a b,
        read s.heap p = some a ∧ read s.heap q = some b ∧ a.key < b.key := by
  refine ⟨fun i => ptrs i cells, h.chain, fun i _ => ptrs_succ_sublist i cells, ?_⟩
  dsimp only
  rw [ptrs_zero, List.pairwise_map]
  refine h.increasing.imp_of_mem fun {c d} hc hd hlt => ?_
  obtain ⟨a, ha, hac, -⟩ := read_of_row (h.row c hc)
  obtain ⟨b, hb, hbd, -⟩ := read_of_row (h.row d hd)
  exact ⟨a, b, ha, hb, by rw [hac, hbd]; exact hlt⟩

/-- The sorted chain has one row for every key. -/
theorem length_chain_insertAll (ticks : List Tick) :
    (SkipList.new.insertAll ticks).chain.length = (ticks.map Tick.key).dedup.length := by
  have hnodup : ((SkipList.new.insertAll ticks).chain.map Tick.key).Nodup :=
    List.pairwise_map.mpr ((SkipList.new.insertAll ticks).increasing.imp fun h => h.ne)
  rw [← List.length_map Tick.key]
  refine ((List.perm_ext_iff_of_nodup hnodup (List.nodup_dedup _)).mpr fun key => ?_).length_eq
  rw [List.mem_dedup, List.mem_map, List.mem_map]
  constructor
  · rintro ⟨x, hx, rfl⟩
    rcases SkipList.mem_insertAll hx with hx | hx
    · exact ⟨x, hx, rfl⟩
    · cases hx
  · rintro ⟨x, hx, rfl⟩
    obtain ⟨y, hy⟩ := firstAt_isSome_of_mem Tick.key (List.mem_reverse.mpr hx)
    have hget := SkipList.get_insertAll SkipList.new ticks x.key
    rw [hy, Option.some_or] at hget
    exact ⟨y, (SkipList.get_eq_some_iff _ _ _).mp hget⟩

theorem Represents.sortedMap {s : SkipListNodes} {ticks : List Tick}
    (h : Represents s (SkipList.new.insertAll ticks)) : SortedMap s ticks := by
  obtain ⟨cells, hs, hrows⟩ := h
  have hget : ∀ key, firstAt Tick.key (cells.map Cell.tick) key =
      firstAt Tick.key ticks.reverse key := by
    intro key
    rw [hrows, ← SkipList.get_eq_firstAt, SkipList.get_insertAll, SkipList.get_new, Option.or_none]
  have hinc : Increasing Tick.key (cells.map Cell.tick) :=
    hrows ▸ (SkipList.new.insertAll ticks).increasing
  refine ⟨hs.chains, fun key => by rw [hs.get_eq, hget], ?_,
    cells.map Cell.tick, hs.iter_eq, hinc, fun x => ?_⟩
  · rw [hs.len, ← length_chain_insertAll, ← hrows, List.length_map]
  · rw [← hget, firstAt_eq_some_iff Tick.key hinc]
    exact (and_iff_left rfl).symm

/-- Whatever levels are drawn, a run of operations never follows a dead pointer and leaves a
sorted map of what was inserted since the last `clear` or `drain`. -/
theorem sorted_map_after_run (calls : List Call) :
    ∃ s, run calls = some s ∧ SortedMap s (inserted calls) ∧
      ∃ listed s', s.drain = some (listed, s') ∧ s.iter = some listed ∧ SortedMap s' [] := by
  obtain ⟨s, hrun, hs⟩ := run_represents calls
  refine ⟨s, hrun, hs.sortedMap, ?_⟩
  obtain ⟨cells, hcells, -⟩ := hs
  obtain ⟨s', hdrain, hs'⟩ := hcells.drain_spec
  have hempty : Represents s' (SkipList.new.insertAll []) := ⟨[], hs', rfl⟩
  exact ⟨cells.map Cell.tick, s', hdrain, hcells.iter_eq, hempty.sortedMap⟩

end SkipListNodes

end Graphite
