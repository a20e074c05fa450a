import Mathlib.Data.List.Basic

/-! Chains of nodes linked by pointers. `next p` is what the link of node `p` holds:
`some none` is the null pointer, `none` says that `p` cannot be read. -/

namespace LinkedChain

variable {π : Type}

/-- The last node of a chain that starts behind `p`, `p` itself when it is empty. -/
def endOf : π → List π → π
  | p, [] => p
  | _, q :: chain => endOf q chain

@[simp] theorem endOf_nil (p : π) : endOf p [] = p := rfl

@[simp] theorem endOf_cons (p q : π) (chain : List π) :
    endOf p (q :: chain) = endOf q chain := rfl

theorem endOf_append (p : π) (chain more : List π) :
    endOf p (chain ++ more) = endOf (endOf p chain) more := by
  induction chain generalizing p with
  | nil => rfl
  | cons q chain ih => exact ih q

theorem endOf_mem (p : π) (chain : List π) : endOf p chain ∈ p :: chain := by
  induction chain generalizing p with
  | nil => exact List.mem_singleton_self p
  | cons q chain ih => exact List.mem_cons_of_mem p (ih q)

/-- A chain with all the nodes of a sparser one has a part that ends where that one does. -/
theorem exists_front_of_sublist (p : π) {sparse chain : List π} (h : sparse.Sublist chain) :
    ∃ front back, chain = front ++ back ∧ endOf p front = endOf p sparse := by
  induction h generalizing p with
  | slnil => exact ⟨[], [], rfl, rfl⟩
  | @cons sparse chain q _ ih =>
    cases sparse with
    | nil => exact ⟨[], q :: chain, rfl, rfl⟩
    | cons r sparse =>
      obtain ⟨front, back, rfl, hend⟩ := ih q
      exact ⟨q :: front, back, rfl, hend⟩
  | cons_cons q _ ih =>
    obtain ⟨front, back, rfl, hend⟩ := ih q
    exact ⟨q :: front, back, rfl, hend⟩

/-- The links from `p` lead through the nodes of the chain, in order. -/
def Linked (next : π → Option (Option π)) : π → List π → Prop
  | _, [] => True
  | p, q :: chain => next p = some (some q) ∧ Linked next q chain

/-- The chain behind `p`, to the null pointer at its end. -/
def Chain (next : π → Option (Option π)) (p : π) (chain : List π) : Prop :=
  Linked next p chain ∧ next (endOf p chain) = some none

variable {next next' : π → Option (Option π)}

theorem linked_append {p : π} {chain more : List π} :
    Linked next p (chain ++ more) ↔
      Linked next p chain ∧ Linked next (endOf p chain) more := by
  induction chain generalizing p with
  | nil => exact (iff_of_eq (true_and _)).symm
  | cons q chain ih => exact (and_congr_right fun _ => ih).trans and_assoc.symm

theorem chain_append {p : π} {chain more : List π} :
    Chain next p (chain ++ more) ↔
      Linked next p chain ∧ Chain next (endOf p chain) more := by
  rw [Chain, Chain, linked_append, endOf_append, and_assoc]

theorem chain_nil {p : π} : Chain next p [] ↔ next p = some none :=
  iff_of_eq (true_and _)

theorem chain_cons {p q : π} {chain : List π} :
    Chain next p (q :: chain) ↔ next p = some (some q) ∧ Chain next q chain := and_assoc

theorem Chain.readable {p : π} {chain : List π} (h : Chain next p chain) :
    ∃ link, next p = some link := by
  cases chain with
  | nil => exact ⟨none, chain_nil.mp h⟩
  | cons q chain => exact ⟨some q, (chain_cons.mp h).1⟩

/-- The link of the last node is not part of the chain that leads to it. -/
theorem Linked.congr {p : π} {chain : List π} (h : Linked next p chain)
    (hnodup : (p :: chain).Nodup)
    (hsame : ∀ q ∈ p :: chain, q ≠ endOf p chain → next' q = next q) :
    Linked next' p chain := by
  induction chain generalizing p with
  | nil => trivial
  | cons q chain ih =>
    obtain ⟨hp, hnodup⟩ := List.nodup_cons.mp hnodup
    refine ⟨?_, ih h.2 hnodup fun r hr => hsame r (List.mem_cons_of_mem p hr)⟩
    rw [hsame p List.mem_cons_self, h.1]
    intro heq
    exact hp (heq ▸ endOf_mem q chain)

theorem Chain.congr {p : π} {chain : List π} (h : Chain next p chain)
    (hsame : ∀ q ∈ p :: chain, next' q = next q) : Chain next' p chain := by
  induction chain generalizing p with
  | nil => exact chain_nil.mpr ((hsame p List.mem_cons_self).trans (chain_nil.mp h))
  | cons q chain ih =>
    obtain ⟨hp, htail⟩ := chain_cons.mp h
    exact chain_cons.mpr ⟨(hsame p List.mem_cons_self).trans hp,
      ih htail fun r hr => hsame r (List.mem_cons_of_mem p hr)⟩

/-- The links after `new` is put behind `prev`: it takes over the link of `prev`. -/
def insertAfter [DecidableEq π] (next : π → Option (Option π)) (prev new : π) :
    π → Option (Option π) := fun q =>
  if q = prev then some (some new) else if q = new then next prev else next q

theorem Chain.insertAfter [DecidableEq π] {p new : π} {front back : List π}
    (h : Chain next p (front ++ back)) (hnodup : (p :: (front ++ back)).Nodup)
    (hnew : new ∉ p :: (front ++ back)) :
    Chain (insertAfter next (endOf p front) new) p (front ++ new :: back) := by
  obtain ⟨hfront, hback⟩ := chain_append.mp h
  rw [← List.cons_append] at hnodup hnew
  obtain ⟨hnodupFront, -, hdisj⟩ := List.nodup_append.mp hnodup
  have hend := endOf_mem p front
  have hprev : new ≠ endOf p front := by
    rintro rfl
    exact hnew (List.mem_append_left back hend)
  have hsame : ∀ q ∈ p :: front ++ back, q ≠ endOf p front →
      LinkedChain.insertAfter next (endOf p front) new q = next q := by
    intro q hq hne
    have hold : q ≠ new := by
      rintro rfl
      exact hnew hq
    rw [LinkedChain.insertAfter, if_neg hne, if_neg hold]
  have hlink : LinkedChain.insertAfter next (endOf p front) new new = next (endOf p front) := by
    rw [LinkedChain.insertAfter, if_neg hprev, if_pos rfl]
  refine chain_append.mpr ⟨?_, chain_cons.mpr ⟨if_pos rfl, ?_⟩⟩
  · exact hfront.congr hnodupFront fun q hq => hsame q (List.mem_append_left back hq)
  · have hkeep : ∀ q ∈ back, LinkedChain.insertAfter next (endOf p front) new q = next q :=
      fun q hq => hsame q (List.mem_append_right _ hq) fun heq => hdisj _ hend q hq heq.symm
    cases back with
    | nil => exact chain_nil.mpr (hlink.trans (chain_nil.mp hback))
    | cons q back =>
      obtain ⟨hq, hrest⟩ := chain_cons.mp hback
      exact chain_cons.mpr ⟨hlink.trans hq, hrest.congr hkeep⟩

end LinkedChain
