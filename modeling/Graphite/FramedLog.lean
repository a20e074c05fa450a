import Mathlib.Data.List.Basic
import Mathlib.Data.List.TakeDrop

/-! Logs of variable-length frames. A crash leaves a prefix of the concatenated
frames: some whole frames, then possibly a proper part of the next one. -/

namespace FramedLog

variable {α β : Type}

/-- The frames that lie wholly inside the first `n` units of the log. -/
def wholeFrames (enc : α → List β) : List α → (n : Nat) → List α
  | [], _ => []
  | x :: xs, n =>
    if (enc x).length ≤ n then x :: wholeFrames enc xs (n - (enc x).length) else []

theorem wholeFrames_append (enc : α → List β) (xs ys : List α) (n : Nat) :
    wholeFrames enc (xs ++ ys) ((xs.flatMap enc).length + n) = xs ++ wholeFrames enc ys n := by
  induction xs with
  | nil => simp
  | cons x xs ih =>
    have hle : (enc x).length ≤ ((x :: xs).flatMap enc).length + n := by
      rw [List.flatMap_cons, List.length_append]
      omega
    have hsub : ((x :: xs).flatMap enc).length + n - (enc x).length =
        (xs.flatMap enc).length + n := by
      rw [List.flatMap_cons, List.length_append]
      omega
    rw [List.cons_append, wholeFrames, if_pos hle, hsub, ih, List.cons_append]

theorem wholeFrames_torn (enc : α → List β) (xs : List α) {n : Nat}
    (h : ∀ x ∈ xs.head?, n < (enc x).length) : wholeFrames enc xs n = [] := by
  cases xs with
  | nil => rfl
  | cons x xs => rw [wholeFrames, if_neg (Nat.not_le.mpr (h x rfl))]

/-- A prefix of the log is whole frames and a torn tail of the next frame. -/
theorem prefix_split (enc : α → List β) (xs : List α) (p : List β) (hp : p <+: xs.flatMap enc) :
    ∃ done todo tail, xs = done ++ todo ∧ p = done.flatMap enc ++ tail ∧
      (tail = [] ∨ ∃ x rest, todo = x :: rest ∧ tail <+: enc x ∧ tail.length < (enc x).length) := by
  induction xs generalizing p with
  | nil => exact ⟨[], [], [], rfl, by simpa using hp, Or.inl rfl⟩
  | cons x xs ih =>
    rw [List.flatMap_cons] at hp
    by_cases hlen : (enc x).length ≤ p.length
    · obtain ⟨q, rfl⟩ : enc x <+: p := List.prefix_of_prefix_length_le
        (List.prefix_append _ _) hp hlen
      rw [List.prefix_append_right_inj] at hp
      obtain ⟨done, todo, tail, rfl, rfl, htail⟩ := ih q hp
      exact ⟨x :: done, todo, tail, rfl, by simp, htail⟩
    · have htorn : p <+: enc x := List.prefix_of_prefix_length_le hp (List.prefix_append _ _)
        (by omega)
      exact ⟨[], x :: xs, p, rfl, rfl, Or.inr ⟨x, xs, rfl, htorn, by omega⟩⟩

end FramedLog
