import Mathlib.Data.List.Sort

/-! Lists of rows with a key, in several versions. The version that counts is the first
one in the list: ordered insertion puts a new version in the place of the old one, and a
stable sort followed by dropping repeated keys keeps the first version of every key. -/

namespace KeyedRows

variable {α κ : Type} [LinearOrder κ] (key : α → κ)

/-- The first row with the key. -/
def firstAt (rows : List α) (k : κ) : Option α := rows.find? fun x => key x = k

/-- Strictly increasing keys. -/
def Increasing (rows : List α) : Prop := rows.Pairwise fun a b => key a < key b

/-- Ordered insertion; a row with the same key is replaced. -/
def insertRow (x : α) : List α → List α
  | [] => [x]
  | y :: rows =>
    if key y < key x then y :: insertRow x rows
    else if key y = key x then x :: rows
    else x :: y :: rows

/-- Drop every row whose key is that of the row before it, `prev` being kept. -/
def dedupFrom (prev : α) : List α → List α
  | [] => []
  | y :: rows => if key y = key prev then dedupFrom prev rows else y :: dedupFrom y rows

/-- `dedup_by` on the key. -/
def dedup : List α → List α
  | [] => []
  | x :: rows => x :: dedupFrom key x rows

/-- Stable sort by key. -/
def sortRows (rows : List α) : List α := rows.insertionSort fun a b => key a ≤ key b

/-- Stable sort, then drop the repeated keys. -/
def mergeRows (rows : List α) : List α := dedup key (sortRows key rows)

@[simp] theorem firstAt_nil (k : κ) : firstAt key ([] : List α) k = none := rfl

theorem firstAt_cons (x : α) (rows : List α) (k : κ) :
    firstAt key (x :: rows) k = if key x = k then some x else firstAt key rows k := by
  rw [firstAt, List.find?_cons]
  split_ifs with h <;> simp [h, firstAt]

theorem firstAt_append (rows more : List α) (k : κ) :
    firstAt key (rows ++ more) k = (firstAt key rows k).or (firstAt key more k) := by
  rw [firstAt, List.find?_append]
  rfl

theorem firstAt_eq_some {rows : List α} {k : κ} {x : α} (h : firstAt key rows k = some x) :
    x ∈ rows ∧ key x = k :=
  ⟨List.mem_of_find?_eq_some h, by simpa using List.find?_some h⟩

theorem firstAt_eq_none_iff {rows : List α} {k : κ} :
    firstAt key rows k = none ↔ ∀ x ∈ rows, key x ≠ k := by
  simp [firstAt]

theorem firstAt_isSome_of_mem {rows : List α} {x : α} (h : x ∈ rows) :
    ∃ y, firstAt key rows (key x) = some y := by
  cases hfirst : firstAt key rows (key x) with
  | none => exact absurd rfl ((firstAt_eq_none_iff key).mp hfirst x h)
  | some y => exact ⟨y, rfl⟩

/-- With increasing keys a key has only one version. -/
theorem firstAt_eq_some_iff {rows : List α} (h : Increasing key rows) {k : κ} {x : α} :
    firstAt key rows k = some x ↔ x ∈ rows ∧ key x = k := by
  refine ⟨firstAt_eq_some key, ?_⟩
  rintro ⟨hx, rfl⟩
  induction rows with
  | nil => cases hx
  | cons y rows ih =>
    obtain ⟨hy, hrows⟩ := List.pairwise_cons.mp h
    rw [firstAt_cons]
    rcases List.mem_cons.mp hx with rfl | hx
    · rw [if_pos rfl]
    · rw [if_neg (hy x hx).ne, ih hrows hx]

/-- A filter that lets the rows with the key through. -/
theorem firstAt_filter {p : α → Bool} {rows : List α} {k : κ}
    (h : ∀ x ∈ rows, key x = k → p x = true) :
    firstAt key (rows.filter p) k = firstAt key rows k := by
  induction rows with
  | nil => rfl
  | cons x rows ih =>
    have ih' := ih fun y hy => h y (List.mem_cons_of_mem x hy)
    rw [List.filter_cons, firstAt_cons]
    split_ifs with hp hk hk
    · rw [firstAt_cons, if_pos hk]
    · rw [firstAt_cons, if_neg hk, ih']
    · exact absurd (h x List.mem_cons_self hk) hp
    · exact ih'

theorem firstAt_flatMap {β : Type} (f : β → List α) (xs : List β) (k : κ) :
    firstAt key (xs.flatMap f) k = xs.findSome? fun x => firstAt key (f x) k :=
  List.find?_flatMap

/-- A search whose hits all say the same, and which has a hit if there is something to say. -/
theorem findSome?_eq_of_agree {β γ : Type} {f : β → Option γ} {xs : List β} {v : Option γ}
    (hall : ∀ x ∈ xs, ∀ y, f x = some y → v = some y) (hsome : v ≠ none → ∃ x ∈ xs, f x ≠ none) :
    xs.findSome? f = v := by
  cases hfind : xs.findSome? f with
  | some y =>
    obtain ⟨x, hx, hy⟩ := List.exists_of_findSome?_eq_some hfind
    exact (hall x hx y hy).symm
  | none =>
    rw [List.findSome?_eq_none_iff] at hfind
    by_contra hne
    obtain ⟨x, hx, hhit⟩ := hsome (Ne.symm hne)
    exact hhit (hfind x hx)

/-- The last hit is the same in every order of the list just when all hits say the same. -/
theorem findSome?_every_order_iff {β γ : Type} {f : β → Option γ} {xs : List β} {v : Option γ} :
    (∀ ys : List β, ys.Perm xs → ys.reverse.findSome? f = v) ↔
      (∀ x ∈ xs, ∀ y, f x = some y → v = some y) ∧ (v ≠ none → ∃ x ∈ xs, f x ≠ none) := by
  constructor
  · intro h
    constructor
    · intro x hx y hy
      obtain ⟨front, back, rfl⟩ := List.append_of_mem hx
      have hlast := h (front ++ back ++ [x]) (by
        rw [List.append_assoc]
        exact (List.perm_append_singleton x back).append_left front)
      rw [List.reverse_append, List.reverse_singleton, List.singleton_append,
        List.findSome?_cons_of_isSome (hy ▸ rfl), hy] at hlast
      exact hlast.symm
    · intro hne
      rw [← h xs (List.Perm.refl xs)] at hne
      obtain ⟨y, hy⟩ := Option.ne_none_iff_exists'.mp hne
      obtain ⟨x, hx, hhit⟩ := List.exists_of_findSome?_eq_some hy
      exact ⟨x, List.mem_reverse.mp hx, by rw [hhit]; exact Option.some_ne_none y⟩
  · rintro ⟨hall, hsome⟩ ys hperm
    refine findSome?_eq_of_agree (fun x hx => hall x ?_) fun hne => ?_
    · exact hperm.mem_iff.mp (List.mem_reverse.mp hx)
    · obtain ⟨x, hx, hhit⟩ := hsome hne
      exact ⟨x, List.mem_reverse.mpr (hperm.mem_iff.mpr hx), hhit⟩

/-- Of increasing keys at most one row has the key. -/
theorem filter_eq_toList {rows : List α} (h : Increasing key rows) (k : κ) :
    rows.filter (fun x => key x = k) = (firstAt key rows k).toList := by
  induction rows with
  | nil => rfl
  | cons x rows ih =>
    obtain ⟨hx, hrows⟩ := List.pairwise_cons.mp h
    rw [List.filter_cons, firstAt_cons]
    by_cases hk : key x = k
    · have hnone : rows.filter (fun y => key y = k) = [] := by
        rw [List.filter_eq_nil_iff]
        intro y hy hyk
        exact (hx y hy).ne (hk.trans (of_decide_eq_true hyk).symm)
      rw [if_pos (by simpa using hk), if_pos hk, hnone]
      rfl
    · rw [if_neg (by simpa using hk), if_neg hk, ih hrows]

theorem mem_insertRow {x y : α} {rows : List α} (h : y ∈ insertRow key x rows) :
    y = x ∨ y ∈ rows := by
  induction rows with
  | nil => simpa [insertRow] using h
  | cons z rows ih =>
    unfold insertRow at h
    split_ifs at h
    · rcases List.mem_cons.mp h with rfl | h
      · exact Or.inr (by simp)
      · exact (ih h).imp_right (List.mem_cons_of_mem z)
    · exact (List.mem_cons.mp h).imp_right (List.mem_cons_of_mem z)
    · exact List.mem_cons.mp h

theorem increasing_insertRow (x : α) {rows : List α} (h : Increasing key rows) :
    Increasing key (insertRow key x rows) := by
  induction rows with
  | nil => exact List.pairwise_singleton _ _
  | cons y rows ih =>
    obtain ⟨hy, hrows⟩ := List.pairwise_cons.mp h
    unfold insertRow
    split_ifs with hlt heq
    · refine List.pairwise_cons.mpr ⟨fun z hz => ?_, ih hrows⟩
      rcases mem_insertRow key hz with rfl | hz
      · exact hlt
      · exact hy z hz
    · exact List.pairwise_cons.mpr ⟨fun z hz => heq ▸ hy z hz, hrows⟩
    · have hgt : key x < key y := lt_of_le_of_ne (not_lt.mp hlt) (Ne.symm heq)
      refine List.pairwise_cons.mpr ⟨fun z hz => ?_, h⟩
      rcases List.mem_cons.mp hz with rfl | hz
      · exact hgt
      · exact hgt.trans (hy z hz)

/-- Increasing rows fall into those below a key and the others. -/
theorem exists_split {rows : List α} (h : Increasing key rows) (k : κ) :
    ∃ lower upper, rows = lower ++ upper ∧ (∀ x ∈ lower, key x < k) ∧
      ∀ x ∈ upper, k ≤ key x := by
  induction rows with
  | nil => exact ⟨[], [], rfl, nofun, nofun⟩
  | cons y rows ih =>
    obtain ⟨hy, hrows⟩ := List.pairwise_cons.mp h
    by_cases hlt : key y < k
    · obtain ⟨lower, upper, rfl, hlower, hupper⟩ := ih hrows
      exact ⟨y :: lower, upper, rfl, List.forall_mem_cons.mpr ⟨hlt, hlower⟩, hupper⟩
    · have hle : k ≤ key y := not_lt.mp hlt
      exact ⟨[], y :: rows, rfl, nofun,
        List.forall_mem_cons.mpr ⟨hle, fun x hx => hle.trans (hy x hx).le⟩⟩

theorem increasing_insert {x : α} {lower upper : List α} (h : Increasing key (lower ++ upper))
    (hlower : ∀ y ∈ lower, key y < key x) (hupper : ∀ y ∈ upper, key x < key y) :
    Increasing key (lower ++ x :: upper) := by
  obtain ⟨hfirst, hsecond, hcross⟩ := List.pairwise_append.mp h
  refine List.pairwise_append.mpr ⟨hfirst, List.pairwise_cons.mpr ⟨hupper, hsecond⟩, ?_⟩
  intro y hy z hz
  rcases List.mem_cons.mp hz with rfl | hz
  · exact hlower y hy
  · exact hcross y hy z hz

theorem insertRow_append {x : α} {lower : List α} (h : ∀ y ∈ lower, key y < key x)
    (upper : List α) : insertRow key x (lower ++ upper) = lower ++ insertRow key x upper := by
  induction lower with
  | nil => rfl
  | cons y lower ih =>
    obtain ⟨hy, hlower⟩ := List.forall_mem_cons.mp h
    rw [List.cons_append, insertRow, if_pos hy, ih hlower, List.cons_append]

theorem firstAt_insertRow (x : α) {rows : List α} (h : Increasing key rows) (k : κ) :
    firstAt key (insertRow key x rows) k = if key x = k then some x else firstAt key rows k := by
  induction rows with
  | nil => simp [insertRow, firstAt_cons]
  | cons y rows ih =>
    obtain ⟨hy, hrows⟩ := List.pairwise_cons.mp h
    rw [insertRow, firstAt_cons key y]
    by_cases hlt : key y < key x
    · rw [if_pos hlt, firstAt_cons, ih hrows]
      split_ifs with hky hkx
      · exact absurd (hky.trans hkx.symm) hlt.ne
      all_goals rfl
    · rw [if_neg hlt]
      by_cases heq : key y = key x
      · rw [if_pos heq, firstAt_cons, heq]
        split_ifs <;> rfl
      · rw [if_neg heq, firstAt_cons, firstAt_cons]

theorem firstAt_orderedInsert (x : α) (rows : List α) (k : κ) :
    firstAt key (rows.orderedInsert (fun a b => key a ≤ key b) x) k =
      if key x = k then some x else firstAt key rows k := by
  induction rows with
  | nil => simp [firstAt_cons]
  | cons y rows ih =>
    rw [List.orderedInsert_cons]
    split_ifs with hle hk hk
    · rw [firstAt_cons, if_pos hk]
    · rw [firstAt_cons, if_neg hk]
    · rw [firstAt_cons, if_neg (by rw [← hk]; exact fun h => hle h.ge), ih, if_pos hk]
    · rw [firstAt_cons, firstAt_cons, ih, if_neg hk]

/-- A stable sort keeps the first version of a key first. -/
theorem firstAt_sortRows (rows : List α) (k : κ) :
    firstAt key (sortRows key rows) k = firstAt key rows k := by
  induction rows with
  | nil => rfl
  | cons x rows ih =>
    rw [sortRows, List.insertionSort_cons, firstAt_orderedInsert, firstAt_cons]
    rw [sortRows] at ih
    rw [ih]

theorem sorted_sortRows (rows : List α) :
    (sortRows key rows).Pairwise fun a b => key a ≤ key b := by
  have htotal : Std.Total fun a b : α => key a ≤ key b := ⟨fun a b => le_total (key a) (key b)⟩
  have htrans : IsTrans α fun a b => key a ≤ key b := ⟨fun a b c => le_trans⟩
  exact List.pairwise_insertionSort _ rows

theorem mem_sortRows {x : α} {rows : List α} : x ∈ sortRows key rows ↔ x ∈ rows :=
  List.mem_insertionSort _

theorem mem_dedupFrom {prev x : α} {rows : List α} (h : x ∈ dedupFrom key prev rows) :
    x ∈ rows := by
  induction rows generalizing prev with
  | nil => cases h
  | cons y rows ih =>
    unfold dedupFrom at h
    split_ifs at h
    · exact List.mem_cons_of_mem y (ih h)
    · rcases List.mem_cons.mp h with rfl | h
      · exact List.mem_cons_self
      · exact List.mem_cons_of_mem y (ih h)

theorem mem_dedup {x : α} {rows : List α} (h : x ∈ dedup key rows) : x ∈ rows := by
  cases rows with
  | nil => cases h
  | cons y rows =>
    rcases List.mem_cons.mp h with rfl | h
    · exact List.mem_cons_self
    · exact List.mem_cons_of_mem y (mem_dedupFrom key h)

/-- Of sorted rows above `prev`, the ones kept come strictly after it. -/
theorem increasing_dedupFrom (prev : α) {rows : List α}
    (hprev : ∀ x ∈ rows, key prev ≤ key x) (h : rows.Pairwise fun a b => key a ≤ key b) :
    (∀ x ∈ dedupFrom key prev rows, key prev < key x) ∧
      Increasing key (dedupFrom key prev rows) := by
  induction rows generalizing prev with
  | nil => simp [dedupFrom, Increasing]
  | cons y rows ih =>
    obtain ⟨hy, hrows⟩ := List.pairwise_cons.mp h
    unfold dedupFrom
    split_ifs with heq
    · exact ih prev (fun x hx => hprev x (List.mem_cons_of_mem y hx)) hrows
    · obtain ⟨hlt, hinc⟩ := ih y hy hrows
      have hlt' : key prev < key y := lt_of_le_of_ne (hprev y List.mem_cons_self) (Ne.symm heq)
      refine ⟨fun x hx => ?_, List.pairwise_cons.mpr ⟨hlt, hinc⟩⟩
      rcases List.mem_cons.mp hx with rfl | hx
      · exact hlt'
      · exact hlt'.trans (hlt x hx)

theorem increasing_dedup {rows : List α} (h : rows.Pairwise fun a b => key a ≤ key b) :
    Increasing key (dedup key rows) := by
  cases rows with
  | nil => exact List.Pairwise.nil
  | cons x rows =>
    obtain ⟨hx, hrows⟩ := List.pairwise_cons.mp h
    exact List.pairwise_cons.mpr (increasing_dedupFrom key x hx hrows)

theorem firstAt_dedupFrom (prev : α) (rows : List α) {k : κ} (hk : key prev ≠ k)
    (hprev : ∀ x ∈ rows, key prev ≤ key x) (h : rows.Pairwise fun a b => key a ≤ key b) :
    firstAt key (dedupFrom key prev rows) k = firstAt key rows k := by
  induction rows generalizing prev with
  | nil => rfl
  | cons y rows ih =>
    obtain ⟨hy, hrows⟩ := List.pairwise_cons.mp h
    unfold dedupFrom
    split_ifs with heq
    · rw [ih prev hk (fun x hx => hprev x (List.mem_cons_of_mem y hx)) hrows, firstAt_cons,
        if_neg (by rwa [heq])]
    · rw [firstAt_cons, firstAt_cons]
      split_ifs with hy'
      · rfl
      · exact ih y hy' hy hrows

theorem firstAt_dedup {rows : List α} (h : rows.Pairwise fun a b => key a ≤ key b) (k : κ) :
    firstAt key (dedup key rows) k = firstAt key rows k := by
  cases rows with
  | nil => rfl
  | cons x rows =>
    obtain ⟨hx, hrows⟩ := List.pairwise_cons.mp h
    rw [dedup, firstAt_cons, firstAt_cons]
    split_ifs with hk
    · rfl
    · exact firstAt_dedupFrom key x rows hk hx hrows

/-- The first version of every key survives a merge. -/
theorem firstAt_mergeRows (rows : List α) (k : κ) :
    firstAt key (mergeRows key rows) k = firstAt key rows k := by
  rw [mergeRows, firstAt_dedup key (sorted_sortRows key rows), firstAt_sortRows]

theorem increasing_mergeRows (rows : List α) : Increasing key (mergeRows key rows) :=
  increasing_dedup key (sorted_sortRows key rows)

theorem mem_mergeRows {x : α} {rows : List α} (h : x ∈ mergeRows key rows) : x ∈ rows :=
  (mem_sortRows key).mp (mem_dedup key h)

/-- Two lists with increasing keys and the same rows are the same. -/
theorem eq_of_increasing {xs ys : List α} (hxs : Increasing key xs) (hys : Increasing key ys)
    (h : ∀ x, x ∈ xs ↔ x ∈ ys) : xs = ys := by
  have hnodup {zs : List α} (hzs : Increasing key zs) : zs.Nodup :=
    hzs.imp fun hlt heq => hlt.ne (congrArg key heq)
  refine List.Perm.eq_of_pairwise (fun a b _ _ hab hba => ?_) hxs hys
    ((List.perm_ext_iff_of_nodup (hnodup hxs) (hnodup hys)).mpr h)
  exact absurd hba hab.asymm

end KeyedRows
