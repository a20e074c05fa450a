import Mathlib

/-! Least-recently-used maps of bounded total size: entries in order of use, the most
recent first. -/

namespace LruMap
variable {κ α : Type} (size : α → Nat)

def total (entries : List (κ × α)) : Nat := (entries.map fun e => size e.2).sum

/-- The longest front part that fits: entries go from the least recently used on. -/
def fit : (room : Nat) → List (κ × α) → List (κ × α)
  | _, [] => []
  | room, e :: entries => if size e.2 ≤ room then e :: fit (room - size e.2) entries else []

variable {size}

@[simp] theorem total_nil : total size ([] : List (κ × α)) = 0 := rfl

@[simp] theorem total_cons (e : κ × α) (entries : List (κ × α)) :
    total size (e :: entries) = size e.2 + total size entries := rfl

theorem total_append (as bs : List (κ × α)) :
    total size (as ++ bs) = total size as + total size bs := by
  rw [total, List.map_append, List.sum_append]
  rfl

theorem fit_of_total_le {room : Nat} {entries : List (κ × α)} (h : total size entries ≤ room) :
    fit size room entries = entries := by
  induction entries generalizing room with
  | nil => rfl
  | cons e entries ih =>
    rw [total_cons] at h
    rw [fit, if_pos (by omega), ih (by omega)]

/-- The least recently used entry goes first. -/
theorem fit_concat {room : Nat} {entries : List (κ × α)} {e : κ × α}
    (h : room < total size (entries ++ [e])) :
    fit size room (entries ++ [e]) = fit size room entries := by
  induction entries generalizing room with
  | nil =>
    rw [List.nil_append, total_cons, total_nil] at h
    simp only [List.nil_append, fit, if_neg (show ¬ size e.2 ≤ room by omega)]
  | cons d entries ih =>
    rw [List.cons_append, total_cons] at h
    rw [List.cons_append, fit, fit]
    split_ifs with hroom
    · rw [ih (by omega)]
    · rfl

theorem fit_prefix (room : Nat) (entries : List (κ × α)) : fit size room entries <+: entries := by
  induction entries generalizing room with
  | nil => exact List.prefix_refl _
  | cons e entries ih =>
    rw [fit]
    split_ifs
    · exact (List.prefix_cons_inj e).mpr (ih _)
    · exact List.nil_prefix

variable [DecidableEq κ]

def erase (key : κ) (entries : List (κ × α)) : List (κ × α) := entries.filter fun e => e.1 ≠ key

/-- A key that is asked for becomes the most recently used one. -/
def touch (key : κ) (entries : List (κ × α)) : List (κ × α) :=
  match entries.lookup key with
  | some a => (key, a) :: erase key entries
  | none => entries

variable (size) in
/-- A new entry is the most recently used one, and the least recently used ones go until
all fit; an entry that is too large by itself only replaces. -/
def insert (capacity : Nat) (key : κ) (a : α) (entries : List (κ × α)) : List (κ × α) :=
  if size a > capacity then erase key entries else fit size capacity ((key, a) :: erase key entries)

/-- Where keys are met once, a key's entry is what a lookup finds. -/
theorem lookup_of_mem {entries : List (κ × α)} (h : (entries.map Prod.fst).Nodup) {key : κ} {a : α}
    (hmem : (key, a) ∈ entries) : entries.lookup key = some a := by
  induction entries with
  | nil => cases hmem
  | cons e entries ih =>
    rw [List.map_cons, List.nodup_cons] at h
    rcases List.mem_cons.mp hmem with rfl | hmem
    · rw [List.lookup_cons_self]
    · have hne : key ≠ e.1 := fun heq => h.1 (heq ▸ List.mem_map_of_mem hmem)
      rw [List.lookup_cons, beq_eq_false_iff_ne.mpr hne]
      exact ih h.2 hmem

theorem lookup_eq_none {entries : List (κ × α)} {key : κ} (h : key ∉ entries.map Prod.fst) :
    entries.lookup key = none := by
  rw [List.lookup_eq_none_iff]
  intro e he
  exact bne_iff_ne.mpr fun heq => h (heq ▸ List.mem_map_of_mem he)

theorem mem_of_lookup {entries : List (κ × α)} {key : κ} {a : α}
    (h : entries.lookup key = some a) : (key, a) ∈ entries := by
  induction entries with
  | nil => cases h
  | cons e entries ih =>
    rw [List.lookup_cons] at h
    by_cases heq : key = e.1
    · rw [heq, beq_self_eq_true] at h
      cases h
      exact heq ▸ List.mem_cons_self
    · rw [beq_eq_false_iff_ne.mpr heq] at h
      exact List.mem_cons_of_mem e (ih h)

theorem erase_of_not_mem {entries : List (κ × α)} {key : κ} (h : key ∉ entries.map Prod.fst) :
    erase key entries = entries := by
  refine List.filter_eq_self.mpr fun e he => ?_
  exact decide_eq_true fun heq => h (heq ▸ List.mem_map_of_mem he)

theorem erase_append_cons {as bs : List (κ × α)} {key : κ} {a : α}
    (h : ((as ++ (key, a) :: bs).map Prod.fst).Nodup) :
    erase key (as ++ (key, a) :: bs) = as ++ bs := by
  rw [List.map_append, List.map_cons, List.nodup_append, List.nodup_cons] at h
  obtain ⟨-, ⟨hbs, -⟩, hdisj⟩ := h
  have has : key ∉ as.map Prod.fst := fun hmem => hdisj key hmem key List.mem_cons_self rfl
  have hsplit : erase key (as ++ (key, a) :: bs) = erase key as ++ erase key bs := by
    simp [erase, List.filter_append]
  rw [hsplit, erase_of_not_mem has, erase_of_not_mem hbs]

/-- Nothing is left under an erased key. -/
theorem erase_eq_self_iff {entries : List (κ × α)} {key : κ} :
    erase key entries = entries ↔ entries.lookup key = none := by
  constructor
  · intro h
    refine lookup_eq_none fun hmem => ?_
    obtain ⟨e, he, rfl⟩ := List.mem_map.mp hmem
    rw [← h] at he
    exact of_decide_eq_true (List.mem_filter.mp he).2 rfl
  · intro h
    refine erase_of_not_mem fun hmem => ?_
    obtain ⟨e, he, rfl⟩ := List.mem_map.mp hmem
    exact bne_iff_ne.mp (List.lookup_eq_none_iff.mp h e he) rfl

/-- A touch changes nothing but where it moves an entry. -/
theorem touch_eq_self_iff {entries : List (κ × α)} (h : (entries.map Prod.fst).Nodup) {key : κ} :
    touch key entries = entries ↔
      entries.lookup key = none ∨ entries.head?.map Prod.fst = some key := by
  rw [touch]
  cases hkey : entries.lookup key with
  | none => simp
  | some a =>
    cases entries with
    | nil => cases hkey
    | cons e entries =>
      rw [List.head?_cons, Option.map_some, Option.some_inj]
      constructor
      · intro heq
        exact Or.inr (congrArg Prod.fst (List.cons.inj heq).1).symm
      · rintro (hnone | rfl)
        · cases hnone
        · rw [List.lookup_cons_self, Option.some_inj] at hkey
          subst hkey
          rw [List.map_cons, List.nodup_cons] at h
          have hself : erase e.1 (e :: entries) = erase e.1 entries :=
            List.filter_cons_of_neg (by simp)
          rw [hself, erase_of_not_mem h.1]

end LruMap
