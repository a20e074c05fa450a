import Graphite.SortedPages

/-! Shipping a numbered log to consumers page by page. The log may lose entries at its front
once they have arrived; a page behind a position up to which everything has arrived then
leaves out nothing that was ever appended. A consumer that applies a page again has the last
entry of everything it is asked for as soon as its position says so. -/

namespace LogShipping
open SortedPages

variable {α κ : Type} [LinearOrder κ] (key : α → κ)

/-- Every entry up to the position has arrived. -/
def Complete (appended : List α) (arrived : α → Prop) (position : Option κ) : Prop :=
  ∀ e ∈ appended, ∀ s ∈ position, key e ≤ s → arrived e

/-- Every entry up to the last one of the batch is in the batch or has arrived. -/
def Closes (appended : List α) (arrived : α → Prop) (batch : List α) : Prop :=
  ∀ e ∈ appended, ∀ x ∈ batch.getLast?, key e ≤ key x → e ∈ batch ∨ arrived e

variable {key} {appended : List α} {arrived arrived' : α → Prop}

theorem complete_none (appended : List α) (arrived : α → Prop) :
    Complete key appended arrived none :=
  fun _ _ _ h => by cases h

theorem Complete.mono {position : Option κ} (h : Complete key appended arrived position)
    (himp : ∀ e, arrived e → arrived' e) : Complete key appended arrived' position :=
  fun e he s hs hle => himp e (h e he s hs hle)

theorem Closes.mono {batch : List α} (h : Closes key appended arrived batch)
    (himp : ∀ e, arrived e → arrived' e) : Closes key appended arrived' batch :=
  fun e he x hx hle => (h e he x hx hle).imp_right (himp e)

/-- Entries that are appended behind the position. -/
theorem Complete.append {position : Option κ} (h : Complete key appended arrived position)
    {more : List α} (hmore : ∀ e ∈ more, ∀ s ∈ position, s < key e) :
    Complete key (appended ++ more) arrived position := by
  intro e he s hs hle
  rcases List.mem_append.mp he with he | he
  · exact h e he s hs hle
  · exact absurd hle (not_le.mpr (hmore e he s hs))

theorem Closes.append {batch more : List α} (h : Closes key appended arrived batch)
    (hmore : ∀ e ∈ more, ∀ x ∈ batch, key x < key e) :
    Closes key (appended ++ more) arrived batch := by
  intro e he x hx hle
  rcases List.mem_append.mp he with he | he
  · exact h e he x hx hle
  · exact absurd hle (not_le.mpr (hmore e he x (List.mem_of_getLast? hx)))

/-- A page of a sorted list has all that lies between its bound and its last entry. -/
theorem mem_page {xs : List α} (h : (xs.map key).Pairwise (· < ·)) {after : Option κ} {limit : Nat}
    {e x : α} (he : e ∈ xs) (hx : x ∈ page key xs after limit) (hle : key e ≤ key x)
    (hpast : ∀ s ∈ after, s < key e) : e ∈ page key xs after limit := by
  have hbeyond : e ∈ beyond key after xs := by
    refine List.mem_filter.mpr ⟨he, ?_⟩
    cases after with
    | none => rfl
    | some s => simpa using hpast s rfl
  have hsorted := sorted_beyond key h after
  rw [page] at hx ⊢
  rw [← List.take_append_drop limit (beyond key after xs)] at hbeyond hsorted
  refine (List.mem_append.mp hbeyond).resolve_right fun hdrop => ?_
  rw [List.map_append] at hsorted
  exact absurd hle (not_le.mpr ((List.pairwise_append.mp hsorted).2.2 _
    (List.mem_map_of_mem hx) _ (List.mem_map_of_mem hdrop)))

/-- The page behind a position up to which everything has arrived, of a log that has lost
only what has arrived. -/
theorem closes_page {front held : List α} {position : Option κ}
    (hsorted : (held.map key).Pairwise (· < ·))
    (h : Complete key (front ++ held) arrived position) (hfront : ∀ e ∈ front, arrived e)
    (limit : Nat) : Closes key (front ++ held) arrived (page key held position limit) := by
  intro e he x hx hle
  rcases List.mem_append.mp he with hfr | hheld
  · exact Or.inr (hfront e hfr)
  by_cases hpast : ∀ s ∈ position, s < key e
  · exact Or.inl (mem_page hsorted hheld (List.mem_of_getLast? hx) hle hpast)
  · push Not at hpast
    obtain ⟨s, hs, hles⟩ := hpast
    exact Or.inr (h e he s hs hles)

/-- The position may move to the end of a batch that has arrived. -/
theorem Closes.complete {batch : List α} (h : Closes key appended arrived batch)
    (hbatch : ∀ e ∈ batch, arrived e) :
    Complete key appended arrived (batch.getLast?.map key) := by
  intro e he s hs hle
  obtain ⟨x, hx, rfl⟩ := Option.map_eq_some_iff.mp hs
  exact (h e he x hx hle).elim (hbatch e) id

variable (key) in
/-- The entries up to the position. -/
def upTo (position : Option κ) (xs : List α) : List α := xs.filter fun x => !position.all (· < key x)

theorem mem_upTo {position : Option κ} {xs : List α} {x : α} :
    x ∈ upTo key position xs ↔ x ∈ xs ∧ ∃ s ∈ position, key x ≤ s := by
  rw [upTo, List.mem_filter]
  cases position with
  | none => simp
  | some s => simp

theorem upTo_append (position : Option κ) (xs ys : List α) :
    upTo key position (xs ++ ys) = upTo key position xs ++ upTo key position ys :=
  List.filter_append _ _

theorem upTo_eq_self {position : Option κ} {xs : List α} (h : ∀ x ∈ xs, ∃ s ∈ position, key x ≤ s) :
    upTo key position xs = xs :=
  List.filter_eq_self.mpr fun x hx => (List.mem_filter.mp (mem_upTo.mpr ⟨hx, h x hx⟩)).2

theorem upTo_eq_nil {position : Option κ} {xs : List α} (h : ∀ x ∈ xs, ∀ s ∈ position, s < key x) :
    upTo key position xs = [] := by
  rw [List.eq_nil_iff_forall_not_mem]
  intro x hx
  obtain ⟨hmem, s, hs, hle⟩ := mem_upTo.mp hx
  exact absurd hle (not_le.mpr (h x hmem s hs))

theorem mem_beyond {position : Option κ} {xs : List α} {x : α} :
    x ∈ beyond key position xs ↔ x ∈ xs ∧ ∀ s ∈ position, s < key x := by
  rw [beyond, List.mem_filter]
  cases position with
  | none => simp
  | some s => simp

/-- A position cuts a sorted list in two. -/
theorem upTo_append_beyond {xs : List α} (h : (xs.map key).Pairwise (· < ·)) (position : Option κ) :
    upTo key position xs ++ beyond key position xs = xs := by
  induction xs with
  | nil => rfl
  | cons x xs ih =>
    rw [List.map_cons, List.pairwise_cons] at h
    by_cases hx : ∀ s ∈ position, s < key x
    · have hpast : ∀ y ∈ x :: xs, ∀ s ∈ position, s < key y := fun y hy s hs => by
        rcases List.mem_cons.mp hy with rfl | hy
        · exact hx s hs
        · exact (hx s hs).trans (h.1 _ (List.mem_map_of_mem hy))
      rw [upTo_eq_nil hpast, List.nil_append]
      exact List.filter_eq_self.mpr fun y hy =>
        (List.mem_filter.mp (mem_beyond.mpr ⟨hy, hpast y hy⟩)).2
    · have hkept : upTo key position (x :: xs) = x :: upTo key position xs := by
        push Not at hx
        have hin : x ∈ upTo key position (x :: xs) := mem_upTo.mpr ⟨List.mem_cons_self, hx⟩
        exact List.filter_cons_of_pos (List.mem_filter.mp hin).2
      have hdropped : beyond key position (x :: xs) = beyond key position xs :=
        List.filter_cons_of_neg fun hp => by
          have hin : x ∈ beyond key position (x :: xs) := List.mem_filter.mpr ⟨List.mem_cons_self, hp⟩
          exact hx (mem_beyond.mp hin).2
      rw [hkept, hdropped, List.cons_append, ih h.2]

/-- A batch that starts right behind the position moves it to its own last entry. -/
theorem upTo_getLast? {xs batch : List α} (h : (xs.map key).Pairwise (· < ·)) {position : Option κ}
    (hbatch : batch <+: beyond key position xs) {x : α} (hx : x ∈ batch.getLast?) :
    upTo key (some (key x)) xs = upTo key position xs ++ batch := by
  obtain ⟨rest, hrest⟩ := hbatch
  have hsplit := upTo_append_beyond h position
  rw [← hrest, ← List.append_assoc] at hsplit
  rw [← hsplit, List.map_append, List.pairwise_append] at h
  obtain ⟨front, rfl⟩ := List.getLast?_eq_some_iff.mp hx
  obtain ⟨hfront, -, hback⟩ := h
  conv_lhs => rw [← hsplit, upTo_append]
  have hlow : upTo key (some (key x)) (upTo key position xs ++ (front ++ [x])) =
      upTo key position xs ++ (front ++ [x]) := by
    refine upTo_eq_self fun y hy => ⟨key x, rfl, ?_⟩
    rw [← List.append_assoc] at hy hfront
    rcases List.mem_append.mp hy with hy | hy
    · rw [List.map_append, List.pairwise_append] at hfront
      exact (hfront.2.2 _ (List.mem_map_of_mem hy) _ (List.mem_singleton_self _)).le
    · exact (congrArg key (List.mem_singleton.mp hy)).le
  have hhigh : upTo key (some (key x)) rest = [] := by
    refine upTo_eq_nil fun y hy s hs => ?_
    obtain rfl := Option.some.inj hs
    exact hback _ (List.mem_map_of_mem (by simp)) _ (List.mem_map_of_mem hy)
  rw [hlow, hhigh, List.append_nil]

/-- The position may move on when such a batch has arrived. -/
theorem Complete.advance {batch : List α} {position : Option κ}
    (hsorted : (appended.map key).Pairwise (· < ·)) (h : Complete key appended arrived position)
    (hbatch : batch <+: beyond key position appended) (harrived : ∀ e ∈ batch, arrived e)
    {x : α} (hx : x ∈ batch.getLast?) : Complete key appended arrived (some (key x)) := by
  intro e he s hs hle
  have hmem : e ∈ upTo key (some (key x)) appended := mem_upTo.mpr ⟨he, s, hs, hle⟩
  rw [upTo_getLast? hsorted hbatch hx] at hmem
  rcases List.mem_append.mp hmem with hold | hnew
  · obtain ⟨-, s, hs, hle⟩ := mem_upTo.mp hold
    exact h e he s hs hle
  · exact harrived e hnew

variable {β : Type} {f : α → Option β}

/-- What the last entry says that says something. -/
def lastOf (f : α → Option β) (xs : List α) : Option β := xs.reverse.findSome? f

theorem lastOf_append (xs ys : List α) :
    lastOf f (xs ++ ys) = (lastOf f ys).or (lastOf f xs) := by
  rw [lastOf, List.reverse_append, List.findSome?_append]
  rfl

theorem lastOf_eq_none {xs : List α} (h : ∀ x ∈ xs, f x = none) : lastOf f xs = none :=
  List.findSome?_eq_none_iff.mpr fun x hx => h x (List.mem_reverse.mp hx)

variable (key f) in
/-- Unless something past the position has been applied, what has been applied says the same
as the log up to the position. -/
def Current (appended applied : List α) (position : Option κ) : Prop :=
  (∀ e ∈ applied, f e ≠ none → ∃ s ∈ position, key e ≤ s) →
    lastOf f applied = lastOf f (upTo key position appended)

theorem current_start (appended : List α) : Current key f appended [] none := by
  intro _
  rw [upTo_eq_nil fun _ _ s hs => by cases hs]

variable {applied batch : List α} {position : Option κ}

theorem Current.append (h : Current key f appended applied position) {more : List α}
    (hmore : ∀ e ∈ more, ∀ s ∈ position, s < key e) :
    Current key f (appended ++ more) applied position := by
  intro hbelow
  rw [upTo_append, upTo_eq_nil hmore, List.append_nil]
  exact h hbelow

/-- A batch past the position that does not move it. -/
theorem Current.stay (h : Current key f appended applied position)
    (hbatch : batch <+: beyond key position appended) :
    Current key f appended (applied ++ batch) position := by
  intro hbelow
  have hnone : lastOf f batch = none := by
    refine lastOf_eq_none fun e he => ?_
    by_contra hsays
    obtain ⟨s, hs, hle⟩ := hbelow e (List.mem_append_right _ he) hsays
    exact absurd hle (not_le.mpr ((mem_beyond.mp (hbatch.subset he)).2 s hs))
  rw [lastOf_append, hnone, Option.none_or]
  exact h fun e he => hbelow e (List.mem_append_left _ he)

/-- A batch that moves the position to its last entry. -/
theorem Current.advance (hsorted : (appended.map key).Pairwise (· < ·))
    (hsound : ∀ e ∈ applied, e ∈ appended) (h : Current key f appended applied position)
    (hbatch : batch <+: beyond key position appended) {x : α} (hx : x ∈ batch.getLast?) :
    Current key f appended (applied ++ batch) (some (key x)) := by
  intro hbelow
  rw [upTo_getLast? hsorted hbatch hx, lastOf_append, lastOf_append]
  cases hlast : lastOf f batch with
  | some value => rfl
  | none =>
    rw [Option.none_or, Option.none_or]
    refine h fun e he hsays => ?_
    by_contra hpast
    have hmem : e ∈ upTo key (some (key x)) appended :=
      mem_upTo.mpr ⟨hsound e he, hbelow e (List.mem_append_left _ he) hsays⟩
    rw [upTo_getLast? hsorted hbatch hx] at hmem
    rcases List.mem_append.mp hmem with hold | hnew
    · exact hpast (mem_upTo.mp hold).2
    · exact hsays (List.findSome?_eq_none_iff.mp hlast e (List.mem_reverse.mpr hnew))

/-- At the end of the log everything is the same. -/
theorem Current.caughtUp (h : Current key f appended applied position)
    (hsound : ∀ e ∈ applied, e ∈ appended) (hcaught : ∀ e ∈ appended, ∃ s ∈ position, key e ≤ s) :
    lastOf f applied = lastOf f appended := by
  rw [h fun e he _ => hcaught e (hsound e he), upTo_eq_self hcaught]

end LogShipping
