import Mathlib.Algebra.GroupWithZero.Nat
import Mathlib.Data.List.Basic
import Mathlib.Data.List.Pairwise
import Mathlib.Order.Lattice

/-! Reading a list that is sorted by a key page by page: each page starts behind the last
key that was received. -/

namespace SortedPages
variable {α κ : Type} [LinearOrder κ] (key : α → κ)

/-- The entries whose key is past a bound, all of them when there is none. -/
def beyond (after : Option κ) (xs : List α) : List α := xs.filter fun x => after.all (· < key x)

def page (xs : List α) (after : Option κ) (limit : Nat) : List α := (beyond key after xs).take limit

/-- The bound for the page after this one. -/
def next (after : Option κ) (page : List α) : Option κ := (page.getLast?.map key).or after

/-- The pages of consecutive requests with these limits, one behind the other. -/
def pages (xs : List α) : List Nat → Option κ → List α
  | [], _ => []
  | limit :: limits, after =>
    let received := page key xs after limit
    received ++ pages xs limits (next key after received)

@[simp] theorem beyond_none (xs : List α) : beyond key none xs = xs := by
  simp [beyond]

theorem sorted_beyond {xs : List α} (h : (xs.map key).Pairwise (· < ·)) (after : Option κ) :
    ((beyond key after xs).map key).Pairwise (· < ·) :=
  h.sublist (List.filter_sublist.map key)

theorem page_sublist (xs : List α) (after : Option κ) (limit : Nat) :
    (page key xs after limit).Sublist xs :=
  (List.take_sublist limit _).trans List.filter_sublist

theorem page_map {β : Type} (f : β → α) (xs : List β) (after : Option κ) (limit : Nat) :
    page key (xs.map f) after limit = (page (key ∘ f) xs after limit).map f := by
  rw [page, page, beyond, beyond, List.filter_map, List.map_take]
  rfl

/-- Behind an entry that is past the old bound nothing else counts. -/
theorem beyond_some {xs : List α} {after : Option κ} {x : α} (hx : x ∈ beyond key after xs) :
    beyond key (some (key x)) xs = beyond key (some (key x)) (beyond key after xs) := by
  rw [beyond, beyond, beyond, List.filter_filter]
  refine List.filter_congr fun y _ => ?_
  have hpast := (List.mem_filter.mp hx).2
  cases after with
  | none => simp
  | some bound =>
    simp only [Option.all_some, decide_eq_true_eq] at hpast ⊢
    by_cases hy : key x < key y
    · simp [hy, hpast.trans hy]
    · simp [hy]

/-- In a sorted list, behind an entry means behind its position. -/
theorem beyond_append_cons {front rest : List α} {x : α}
    (h : ((front ++ x :: rest).map key).Pairwise (· < ·)) :
    beyond key (some (key x)) (front ++ x :: rest) = rest := by
  rw [List.map_append, List.map_cons, List.pairwise_append, List.pairwise_cons] at h
  obtain ⟨-, ⟨hrest, -⟩, hfront⟩ := h
  have hkept : beyond key (some (key x)) rest = rest := by
    refine List.filter_eq_self.mpr fun y hy => ?_
    simpa using hrest (key y) (List.mem_map_of_mem hy)
  have hdropped : beyond key (some (key x)) front = [] := by
    refine List.filter_eq_nil_iff.mpr fun y hy => ?_
    simpa using (hfront (key y) (List.mem_map_of_mem hy) (key x) List.mem_cons_self).le
  rw [beyond, List.filter_append, List.filter_cons_of_neg (by simp)]
  rw [beyond] at hkept hdropped
  rw [hdropped, hkept, List.nil_append]

/-- The next page starts where this one ended. -/
theorem beyond_next {xs : List α} (h : (xs.map key).Pairwise (· < ·)) (after : Option κ)
    (limit : Nat) :
    beyond key (next key after (page key xs after limit)) xs =
      (beyond key after xs).drop limit := by
  have hsplit : beyond key after xs =
      page key xs after limit ++ (beyond key after xs).drop limit :=
    (List.take_append_drop limit _).symm
  rcases List.eq_nil_or_concat' (page key xs after limit) with hnil | ⟨front, x, hpage⟩
  · rw [hnil, List.nil_append] at hsplit
    rw [hnil]
    exact hsplit
  · rw [hpage, List.append_assoc, List.singleton_append] at hsplit
    have hmem : x ∈ beyond key after xs := by
      rw [hsplit]
      simp
    have hsorted := sorted_beyond key h after
    rw [hsplit] at hsorted
    have hnext : next key after (front ++ [x]) = some (key x) := by
      simp [next]
    rw [hpage, hnext, beyond_some key hmem]
    exact (congrArg (beyond key (some (key x))) hsplit).trans (beyond_append_cons key hsorted)

theorem pages_eq {xs : List α} (h : (xs.map key).Pairwise (· < ·)) (limits : List Nat)
    (after : Option κ) : pages key xs limits after = (beyond key after xs).take limits.sum := by
  induction limits generalizing after with
  | nil => simp [pages]
  | cons limit limits ih =>
    rw [pages, ih, beyond_next key h, page, List.sum_cons, List.take_add]

/-- Enough pages of at least one entry enumerate the list. -/
theorem length_le_sum {limits : List Nat} (hpos : ∀ limit ∈ limits, 1 ≤ limit) :
    limits.length ≤ limits.sum := by
  induction limits with
  | nil => simp
  | cons limit limits ih =>
    have hone := hpos limit List.mem_cons_self
    have hrest := ih fun l hl => hpos l (List.mem_cons_of_mem limit hl)
    rw [List.length_cons, List.sum_cons]
    omega

end SortedPages
