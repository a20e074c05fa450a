import Mathlib.Data.List.Basic
import Mathlib.Data.List.Induction
import Mathlib.Data.List.Nodup

/-! Doubly linked lists. `links x` are the two pointers of a node, backward and forward, or
`none` when the node cannot be read. A segment is a walk along the forward pointers on which
every backward pointer leads to the node before. -/

namespace DoublyLinked

abbrev Links (π : Type) := π → Option (Option π × Option π)

variable {π : Type}

/-- The pointers from `start` lead through the nodes, coming from `prev`, and on to `stop`. -/
def Segment (links : Links π) (prev start : Option π) : List π → Option π → Prop
  | [], stop => start = stop
  | x :: xs, stop => start = some x ∧
    ∃ next, links x = some (prev, next) ∧ Segment links (some x) next xs stop

variable {links links' : Links π} {prev start stop : Option π} {xs ys : List π} {x : π}

theorem getLast?_cons_or : (x :: xs).getLast?.or prev = xs.getLast?.or (some x) := by
  rcases List.eq_nil_or_concat' xs with rfl | ⟨front, y, rfl⟩
  · rfl
  · rw [← List.cons_append, List.getLast?_concat, List.getLast?_concat]
    rfl

theorem segment_append : Segment links prev start (xs ++ ys) stop ↔
    ∃ mid, Segment links prev start xs mid ∧ Segment links (xs.getLast?.or prev) mid ys stop := by
  induction xs generalizing prev start with
  | nil => simp [Segment]
  | cons x xs ih =>
    rw [getLast?_cons_or, List.cons_append, Segment]
    simp only [Segment, ih]
    constructor
    · rintro ⟨hx, next, hlinks, mid, hxs, hys⟩
      exact ⟨mid, ⟨hx, next, hlinks, hxs⟩, hys⟩
    · rintro ⟨mid, ⟨hx, next, hlinks, hxs⟩, hys⟩
      exact ⟨hx, next, hlinks, mid, hxs, hys⟩

/-- Only the nodes of a segment matter. -/
theorem Segment.congr (h : Segment links prev start xs stop)
    (hsame : ∀ y ∈ xs, links' y = links y) : Segment links' prev start xs stop := by
  induction xs generalizing prev start with
  | nil => exact h
  | cons x xs ih =>
    obtain ⟨hx, next, hlinks, hrest⟩ := h
    exact ⟨hx, next, (hsame x List.mem_cons_self).trans hlinks,
      ih hrest fun y hy => hsame y (List.mem_cons_of_mem x hy)⟩

theorem Segment.readable (h : Segment links prev start xs stop) (hx : x ∈ xs) :
    ∃ l, links x = some l := by
  induction xs generalizing prev start with
  | nil => cases hx
  | cons y xs ih =>
    obtain ⟨-, next, hlinks, hrest⟩ := h
    rcases List.mem_cons.mp hx with rfl | hx
    · exact ⟨_, hlinks⟩
    · exact ih hrest hx

theorem Segment.start_eq_or (h : Segment links prev start xs stop) : start = xs.head?.or stop := by
  cases xs with
  | nil => exact h
  | cons x xs => exact h.1

theorem Segment.start_eq (h : Segment links prev start xs none) : start = xs.head? := by
  rw [h.start_eq_or, Option.or_none]

/-- The pointers with forward and backward exchanged. -/
def reversed (links : Links π) : Links π := fun x => (links x).map Prod.swap

/-- The backward pointers lead through the same nodes in the opposite order. -/
theorem Segment.reverse (h : Segment links prev start xs stop) :
    Segment (reversed links) stop (xs.getLast?.or prev) xs.reverse prev := by
  induction xs generalizing prev start with
  | nil => exact rfl
  | cons x xs ih =>
    obtain ⟨-, next, hlinks, hrest⟩ := h
    rw [getLast?_cons_or, List.reverse_cons]
    refine segment_append.mpr ⟨some x, ih hrest, rfl, prev, ?_, rfl⟩
    rw [reversed, hlinks, List.getLast?_reverse, ← hrest.start_eq_or]
    rfl

variable [DecidableEq π]

/-- `nodes[p].prev = value`, nothing without a node. -/
def setPrev (links : Links π) (p value : Option π) : Links π := fun y =>
  if p = some y then (links y).map fun l => (value, l.2) else links y

/-- `nodes[p].next = value`, nothing without a node. -/
def setNext (links : Links π) (p value : Option π) : Links π := fun y =>
  if p = some y then (links y).map fun l => (l.1, value) else links y

theorem setPrev_of_ne {p value : Option π} {y : π} (h : p ≠ some y) :
    setPrev links p value y = links y := if_neg h

theorem setNext_of_ne {p value : Option π} {y : π} (h : p ≠ some y) :
    setNext links p value y = links y := if_neg h

theorem setPrev_none (value : Option π) : setPrev links none value = links :=
  funext fun y => setPrev_of_ne (Option.some_ne_none y).symm

/-- The last node of a segment may be led elsewhere. -/
theorem Segment.setNext_last (h : Segment links prev start xs stop) (hnodup : xs.Nodup)
    (value : Option π) (hne : xs ≠ []) :
    Segment (setNext links xs.getLast? value) prev start xs value := by
  cases xs using List.reverseRecOn with
  | nil => exact absurd rfl hne
  | append_singleton xs y =>
    obtain ⟨mid, hxs, hmid, next, hlinks, -⟩ := segment_append.mp h
    rw [List.getLast?_append_of_ne_nil _ (List.cons_ne_nil y []), List.getLast?_singleton]
    have hy : y ∉ xs := fun hmem => (List.nodup_append.mp hnodup).2.2 y hmem y (by simp) rfl
    refine segment_append.mpr ⟨mid, hxs.congr fun z hz => setNext_of_ne ?_, hmid, value, ?_, rfl⟩
    · intro heq
      cases heq
      exact hy hz
    · rw [setNext, if_pos rfl, hlinks]
      rfl

/-- The first node of a segment may be reached from elsewhere. -/
theorem Segment.setPrev_first (h : Segment links prev start xs none) (hnodup : xs.Nodup)
    (value : Option π) : Segment (setPrev links xs.head? value) value start xs none := by
  cases xs with
  | nil => exact h
  | cons x xs =>
    obtain ⟨hx, next, hlinks, hrest⟩ := h
    have hmem : x ∉ xs := (List.nodup_cons.mp hnodup).1
    refine ⟨hx, next, ?_, hrest.congr fun z hz => setPrev_of_ne ?_⟩
    · rw [List.head?_cons, setPrev, if_pos rfl, hlinks]
      rfl
    · intro heq
      cases heq
      exact hmem hz

/-- A node is taken out by leading its neighbours to each other. -/
theorem Segment.unlink (h : Segment links none start (xs ++ x :: ys) none)
    (hnodup : (xs ++ x :: ys).Nodup) :
    links x = some (xs.getLast?, ys.head?) ∧
      Segment (setPrev (setNext links xs.getLast? ys.head?) ys.head? xs.getLast?) none
        (if xs = [] then ys.head? else start) (xs ++ ys) none := by
  obtain ⟨mid, hxs, hmid, next, hlinks, hys⟩ := segment_append.mp h
  obtain ⟨hnodupXs, hnodupYs, hdisj⟩ := List.nodup_append.mp hnodup
  obtain ⟨hx, hnodupYs⟩ := List.nodup_cons.mp hnodupYs
  obtain rfl := hys.start_eq
  rw [Option.or_none] at hlinks
  refine ⟨hlinks, segment_append.mpr ⟨ys.head?, ?_, ?_⟩⟩
  · have hfirst : ∀ y ∈ xs, setPrev (setNext links xs.getLast? ys.head?) ys.head? xs.getLast? y =
        setNext links xs.getLast? ys.head? y := by
      intro y hy
      refine setPrev_of_ne fun heq => ?_
      exact hdisj y hy y (List.mem_cons_of_mem x (List.mem_of_mem_head? heq)) rfl
    by_cases hnil : xs = []
    · subst hnil
      exact rfl
    · rw [if_neg hnil]
      exact (hxs.setNext_last hnodupXs ys.head? hnil).congr hfirst
  · rw [Option.or_none]
    refine Segment.setPrev_first (hys.congr fun y hy => setNext_of_ne fun heq => ?_) hnodupYs _
    exact hdisj y (List.mem_of_mem_getLast? heq) y (List.mem_cons_of_mem x hy) rfl

/-- A node is put in front of the list. -/
theorem Segment.push (h : Segment links none start xs none) (hnodup : (x :: xs).Nodup)
    (hx : links x = some (none, start)) :
    Segment (setPrev links start (some x)) none (some x) (x :: xs) none := by
  obtain ⟨hmem, hnodupXs⟩ := List.nodup_cons.mp hnodup
  have hstart := h.start_eq
  refine ⟨rfl, start, ?_, ?_⟩
  · rw [setPrev_of_ne, hx]
    rintro rfl
    exact hmem (List.mem_of_mem_head? hstart.symm)
  · rw [hstart]
    rw [hstart] at h
    exact h.setPrev_first hnodupXs (some x)

end DoublyLinked
