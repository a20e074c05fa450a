import Mathlib.Algebra.GroupWithZero.Nat
import Graphite.KeyedRows

/-! A merge of a sorted base list with sorted batches that are loaded one at a time: the
next batch is loaded when the one before is used up, and the merge ends when neither the
base nor the batch just loaded has a row. -/

namespace StreamMerge
open KeyedRows

variable {α κ : Type} [LinearOrder κ] (key : α → κ)

structure View (α : Type) where
  base : List α
  batch : List α
  later : List (List α)

namespace View

def load : View α → View α
  | ⟨base, [], batch :: later⟩ => ⟨base, batch, later⟩
  | v => v

/-- The smaller of the two next rows; of two with the same key the base's. -/
def pick : View α → Option (α × View α)
  | ⟨[], [], _⟩ => none
  | ⟨x :: base, [], later⟩ => some (x, ⟨base, [], later⟩)
  | ⟨[], y :: batch, later⟩ => some (y, ⟨[], batch, later⟩)
  | ⟨x :: base, y :: batch, later⟩ =>
    if key x < key y then some (x, ⟨base, y :: batch, later⟩)
    else if key x = key y then some (x, ⟨base, batch, later⟩)
    else some (y, ⟨x :: base, batch, later⟩)

def size (v : View α) : Nat := v.base.length + v.batch.length + (v.later.map List.length).sum

theorem size_load (v : View α) : v.load.size = v.size := by
  obtain ⟨base, batch, later⟩ := v
  cases batch with
  | cons y batch => rfl
  | nil =>
    cases later with
    | nil => rfl
    | cons c later =>
      simp only [load, size, List.length_nil, List.map_cons, List.sum_cons]
      omega

theorem size_pick {v v' : View α} {x : α} (h : v.pick key = some (x, v')) : v'.size < v.size := by
  obtain ⟨base, batch, later⟩ := v
  cases base with
  | nil =>
    cases batch with
    | nil => cases h
    | cons y batch =>
      cases h
      simp [size]
  | cons a base =>
    cases batch with
    | nil =>
      cases h
      simp only [size, List.length_cons]
      omega
    | cons y batch =>
      simp only [pick] at h
      split_ifs at h <;> cases h <;> simp only [size, List.length_cons] <;> omega

end View

/-- The rows that the merge gives, repetitions included, before it first has none. -/
inductive Emits : View α → List α → Prop
  | stop {v : View α} (h : v.load.pick key = none) : Emits v []
  | next {v v' : View α} {x : α} {rows : List α} (h : v.load.pick key = some (x, v'))
      (rest : Emits v' rows) : Emits v (x :: rows)

theorem exists_emits (v : View α) : ∃ rows, Emits key v rows ∧ rows.length ≤ v.size := by
  cases h : v.load.pick key with
  | none => exact ⟨[], .stop h, Nat.zero_le _⟩
  | some next =>
    obtain ⟨x, v'⟩ := next
    have hsize : v'.size < v.size := v.size_load ▸ v.load.size_pick key h
    obtain ⟨rows, hrows, hlen⟩ := exists_emits v'
    exact ⟨x :: rows, .next h hrows, by rw [List.length_cons]; omega⟩
termination_by v.size

/-- What is left of the base once the last key of a batch has been given. -/
def after (last : κ) (base : List α) : List α := base.dropWhile fun x => key x ≤ last

/-- The key of the last row of the batch `y :: batch`. -/
def lastKey : α → List α → κ
  | y, [] => key y
  | _, z :: batch => lastKey z batch

theorem le_lastKey {y : α} {batch : List α}
    (h : (y :: batch).Pairwise fun a b => key a ≤ key b) :
    ∀ x ∈ y :: batch, key x ≤ lastKey key y batch := by
  induction batch generalizing y with
  | nil => simp [lastKey]
  | cons z batch ih =>
    obtain ⟨hy, hbatch⟩ := List.pairwise_cons.mp h
    intro x hx
    rcases List.mem_cons.mp hx with rfl | hx
    · exact (hy z List.mem_cons_self).trans (ih hbatch z List.mem_cons_self)
    · exact ih hbatch x hx

omit [LinearOrder κ] in
theorem exists_lastKey (y : α) (batch : List α) :
    ∃ x ∈ y :: batch, key x = lastKey key y batch := by
  induction batch generalizing y with
  | nil => exact ⟨y, List.mem_cons_self, rfl⟩
  | cons z batch ih =>
    obtain ⟨x, hx, hkey⟩ := ih z
    exact ⟨x, List.mem_cons_of_mem y hx, hkey⟩

theorem after_eq_self {last : κ} {base : List α} (h : ∀ x ∈ base, last < key x) :
    after key last base = base := by
  cases base with
  | nil => rfl
  | cons x base =>
    rw [after, List.dropWhile_cons_of_neg]
    simpa using h x List.mem_cons_self

theorem after_cons_of_le {last : κ} {x : α} (h : key x ≤ last) (base : List α) :
    after key last (x :: base) = after key last base := by
  rw [after, List.dropWhile_cons_of_pos (by simpa using h), after]

/-- The rows given while a batch lasts: those of the batch, merged with the rows of the base
up to its last key. -/
structure Run (base : List α) (y : α) (batch front : List α) : Prop where
  sorted : front.Pairwise fun a b => key a ≤ key b
  keys : ∀ k, (∃ x ∈ front, key x = k) ↔
    (∃ x ∈ base, key x ≤ lastKey key y batch ∧ key x = k) ∨ ∃ x ∈ y :: batch, key x = k

variable {key}

/-- The row of the base comes first. -/
theorem Run.cons_base {a y : α} {base batch front : List α} (h : Run key base y batch front)
    (hle : key a ≤ lastKey key y batch) (hbase : ∀ x ∈ base, key a ≤ key x)
    (hbatch : ∀ x ∈ y :: batch, key a ≤ key x) : Run key (a :: base) y batch (a :: front) where
  sorted := by
    refine List.pairwise_cons.mpr ⟨fun x hx => ?_, h.sorted⟩
    rcases (h.keys (key x)).mp ⟨x, hx, rfl⟩ with ⟨z, hz, -, hkey⟩ | ⟨z, hz, hkey⟩
    · exact hkey ▸ hbase z hz
    · exact hkey ▸ hbatch z hz
  keys k := by
    simp only [List.exists_mem_cons_iff, h.keys, hle, true_and, or_assoc]

/-- The row of the batch comes first, or the base's row with its key. -/
theorem Run.cons_batch {x y z : α} {base batch front : List α} (h : Run key base z batch front)
    (hx : key x = key y) (hbase : ∀ w ∈ base, key y ≤ key w)
    (hbatch : ∀ w ∈ z :: batch, key y ≤ key w) : Run key base y (z :: batch) (x :: front) where
  sorted := by
    refine List.pairwise_cons.mpr ⟨fun v hv => ?_, h.sorted⟩
    rcases (h.keys (key v)).mp ⟨v, hv, rfl⟩ with ⟨w, hw, -, hkey⟩ | ⟨w, hw, hkey⟩
    · exact hx ▸ hkey ▸ hbase w hw
    · exact hx ▸ hkey ▸ hbatch w hw
  keys k := by
    rw [List.exists_mem_cons_iff, h.keys, lastKey, List.exists_mem_cons_iff (a := y), hx]
    exact or_left_comm

/-- A batch ends, with its row or with the base's row that has its key. -/
theorem Run.single {x y : α} (hx : key x = key y) {base : List α}
    (hbase : ∀ z ∈ base, key y < key z) : Run key base y [] [x] where
  sorted := List.pairwise_singleton _ x
  keys k := by
    have hnone : ¬ ∃ z ∈ base, key z ≤ lastKey key y [] ∧ key z = k := by
      rintro ⟨z, hz, hle, -⟩
      exact absurd (hbase z hz) (not_lt.mpr hle)
    simp [hnone, hx]

/-- A row of the base with the key of the batch's first row adds no key. -/
theorem Run.absorb {a y : α} {base batch front : List α} (h : Run key base y batch front)
    (ha : key a = key y) : Run key (a :: base) y batch front where
  sorted := h.sorted
  keys k := by
    rw [h.keys, List.exists_mem_cons_iff, List.exists_mem_cons_iff]
    constructor
    · rintro (hbase | hbatch)
      · exact Or.inl (Or.inr hbase)
      · exact Or.inr hbatch
    · rintro ((⟨-, hk⟩ | hbase) | hbatch)
      · exact Or.inr (Or.inl (ha ▸ hk))
      · exact Or.inl hbase
      · exact Or.inr hbatch

/-- The merge works through a batch and goes on with the rest of the base. -/
theorem Emits.batch {base : List α} {y : α} {batch : List α} {later : List (List α)}
    {rows : List α} (h : Emits key ⟨base, y :: batch, later⟩ rows)
    (hbase : Increasing key base) (hbatch : (y :: batch).Pairwise fun a b => key a ≤ key b) :
    ∃ front rest, rows = front ++ rest ∧ Run key base y batch front ∧
      Emits key ⟨after key (lastKey key y batch) base, [], later⟩ rest := by
  obtain ⟨hy, hbatch'⟩ := List.pairwise_cons.mp hbatch
  cases h with
  | stop hstop =>
    cases base <;> simp only [View.load, View.pick] at hstop
    · cases hstop
    · split_ifs at hstop
  | @next _ v' x rows hnext hrest =>
    cases base with
    | nil =>
      cases hnext
      cases batch with
      | nil => exact ⟨[y], rows, rfl, Run.single rfl nofun, hrest⟩
      | cons z batch =>
        obtain ⟨front, rest, rfl, hrun, hend⟩ := Emits.batch hrest hbase hbatch'
        exact ⟨y :: front, rest, rfl, hrun.cons_batch rfl nofun hy, hend⟩
    | cons a base =>
      obtain ⟨ha, hbase'⟩ := List.pairwise_cons.mp hbase
      simp only [View.load, View.pick] at hnext
      split_ifs at hnext with hlt heq
      · cases hnext
        have hle : key x ≤ lastKey key y batch :=
          hlt.le.trans (le_lastKey key hbatch y List.mem_cons_self)
        obtain ⟨front, rest, rfl, hrun, hend⟩ := Emits.batch hrest hbase' hbatch
        refine ⟨x :: front, rest, rfl, hrun.cons_base hle (fun w hw => (ha w hw).le) ?_, ?_⟩
        · exact List.forall_mem_cons.mpr ⟨hlt.le, fun w hw => hlt.le.trans (hy w hw)⟩
        · rw [after_cons_of_le key hle]
          exact hend
      · cases hnext
        have hle : key x ≤ lastKey key y batch :=
          heq.le.trans (le_lastKey key hbatch y List.mem_cons_self)
        rw [after_cons_of_le key hle]
        have hbase'' : ∀ w ∈ base, key y < key w := fun w hw => heq ▸ ha w hw
        cases batch with
        | nil =>
          refine ⟨[x], rows, rfl, (Run.single heq hbase'').absorb heq, ?_⟩
          rw [lastKey, after_eq_self key hbase'']
          exact hrest
        | cons z batch =>
          obtain ⟨front, rest, rfl, hrun, hend⟩ := Emits.batch hrest hbase' hbatch'
          exact ⟨x :: front, rest, rfl,
            (hrun.cons_batch heq (fun w hw => (hbase'' w hw).le) hy).absorb heq, hend⟩
      · cases hnext
        have hgt : key y < key a := lt_of_le_of_ne (not_lt.mp hlt) (Ne.symm heq)
        have hbase'' : ∀ w ∈ a :: base, key y < key w :=
          List.forall_mem_cons.mpr ⟨hgt, fun w hw => hgt.trans (ha w hw)⟩
        cases batch with
        | nil =>
          refine ⟨[y], rows, rfl, Run.single rfl hbase'', ?_⟩
          rw [lastKey, after_eq_self key hbase'']
          exact hrest
        | cons z batch =>
          obtain ⟨front, rest, rfl, hrun, hend⟩ := Emits.batch hrest hbase hbatch'
          exact ⟨y :: front, rest, rfl,
            hrun.cons_batch rfl (fun w hw => (hbase'' w hw).le) hy, hend⟩
termination_by base.length + batch.length

variable (key) in
/-- Rows in ascending order that start at `last` or later. -/
def Follows (last : Option κ) (rows : List α) : Prop :=
  (∀ k ∈ last, ∀ x ∈ rows, k ≤ key x) ∧ rows.Pairwise fun a b => key a ≤ key b

variable (key) in
/-- No batch has a row before the last one given when it is loaded: an empty batch lets one
row of the base pass, another one all rows up to its last key. -/
def InOrder : Option κ → List α → List (List α) → Prop
  | _, _, [] => True
  | _, [], [] :: _ => True
  | _, x :: base, [] :: later => InOrder (some (key x)) base later
  | last, base, (y :: batch) :: later =>
    (∀ k ∈ last, k ≤ key y) ∧
      InOrder (some (lastKey key y batch)) (after key (lastKey key y batch) base) later

variable (key) in
/-- The number of batches loaded: an empty one that finds the base used up is the last. -/
def loads : List α → List (List α) → Nat
  | _, [] => 0
  | [], [] :: _ => 1
  | _ :: base, [] :: later => loads base later + 1
  | base, (y :: batch) :: later => loads (after key (lastKey key y batch) base) later + 1

theorem emits_base {base rows : List α} (h : Emits key ⟨base, [], []⟩ rows) : rows = base := by
  induction base generalizing rows with
  | nil =>
    cases h with
    | stop => rfl
    | next hnext => cases hnext
  | cons x base ih =>
    cases h with
    | stop hstop => cases hstop
    | next hnext hrest =>
      cases hnext
      rw [ih hrest]

theorem emits_empty_batch {x : α} {base rows : List α} {later : List (List α)}
    (h : Emits key ⟨x :: base, [], [] :: later⟩ rows) :
    ∃ rest, rows = x :: rest ∧ Emits key ⟨base, [], later⟩ rest := by
  cases h with
  | stop hstop => cases hstop
  | @next _ v' z rest hnext hrest =>
    cases hnext
    exact ⟨rest, rfl, hrest⟩

theorem emits_spent {rows : List α} {later : List (List α)}
    (h : Emits key ⟨[], [], [] :: later⟩ rows) : rows = [] := by
  cases h with
  | stop => rfl
  | next hnext => cases hnext

theorem emits_loaded {base rows : List α} {y : α} {batch : List α} {later : List (List α)}
    (h : Emits key ⟨base, [], (y :: batch) :: later⟩ rows) :
    Emits key ⟨base, y :: batch, later⟩ rows := by
  cases h with
  | stop hstop => exact .stop hstop
  | next hnext hrest => exact .next hnext hrest

theorem after_sublist (last : κ) (base : List α) : (after key last base).Sublist base :=
  List.dropWhile_sublist _

theorem lt_of_mem_after {last : κ} {base : List α} (h : Increasing key base) :
    ∀ x ∈ after key last base, last < key x := by
  induction base with
  | nil => nofun
  | cons y base ih =>
    obtain ⟨hy, hbase⟩ := List.pairwise_cons.mp h
    by_cases hle : key y ≤ last
    · rw [after_cons_of_le key hle]
      exact ih hbase
    · have hlt : last < key y := not_le.mp hle
      rw [after_eq_self key
        (List.forall_mem_cons.mpr ⟨hlt, fun x hx => hlt.trans (hy x hx)⟩)]
      exact List.forall_mem_cons.mpr ⟨hlt, fun x hx => hlt.trans (hy x hx)⟩

theorem mem_after_iff {last : κ} {base : List α} (h : Increasing key base) {x : α}
    (hx : x ∈ base) : x ∈ after key last base ↔ last < key x := by
  refine ⟨lt_of_mem_after h x, fun hlt => ?_⟩
  induction base with
  | nil => cases hx
  | cons y base ih =>
    obtain ⟨hy, hbase⟩ := List.pairwise_cons.mp h
    by_cases hle : key y ≤ last
    · rw [after_cons_of_le key hle]
      rcases List.mem_cons.mp hx with rfl | hx
      · exact absurd hlt (not_lt.mpr hle)
      · exact ih hbase hx
    · rw [after, List.dropWhile_cons_of_neg (by simpa using hle)]
      exact hx

theorem Run.follows_append_iff {base front rest : List α} {y : α} {batch : List α}
    (h : Run key base y batch front) (hbatch : (y :: batch).Pairwise fun a b => key a ≤ key b)
    {last : Option κ} (hlast : ∀ k ∈ last, ∀ x ∈ base, k < key x) :
    Follows key last (front ++ rest) ↔
      (∀ k ∈ last, k ≤ key y) ∧ Follows key (some (lastKey key y batch)) rest := by
  obtain ⟨hy, -⟩ := List.pairwise_cons.mp hbatch
  have hmax : ∀ x ∈ front, key x ≤ lastKey key y batch := by
    intro x hx
    rcases (h.keys (key x)).mp ⟨x, hx, rfl⟩ with ⟨z, hz, hle, hkey⟩ | ⟨z, hz, hkey⟩
    · exact hkey ▸ hle
    · exact hkey ▸ le_lastKey key hbatch z hz
  obtain ⟨top, htop, htopKey⟩ : ∃ x ∈ front, key x = lastKey key y batch :=
    (h.keys _).mpr (Or.inr (exists_lastKey key y batch))
  obtain ⟨first, hfirst, hfirstKey⟩ : ∃ x ∈ front, key x = key y :=
    (h.keys _).mpr (Or.inr ⟨y, List.mem_cons_self, rfl⟩)
  constructor
  · rintro ⟨hfrom, hsorted⟩
    obtain ⟨-, hrest, hcross⟩ := List.pairwise_append.mp hsorted
    refine ⟨fun k hk => ?_, fun k hk x hx => ?_, hrest⟩
    · exact hfirstKey ▸ hfrom k hk first (List.mem_append_left rest hfirst)
    · cases hk
      exact htopKey ▸ hcross top htop x hx
  · rintro ⟨hfrom, hrestFrom, hrest⟩
    have hrestFrom' := hrestFrom _ rfl
    refine ⟨fun k hk x hx => ?_, List.pairwise_append.mpr ⟨h.sorted, hrest, fun x hx z hz =>
      (hmax x hx).trans (hrestFrom' z hz)⟩⟩
    have hkey : k ≤ key y := hfrom k hk
    rcases List.mem_append.mp hx with hx | hx
    · rcases (h.keys (key x)).mp ⟨x, hx, rfl⟩ with ⟨z, hz, -, hzx⟩ | ⟨z, hz, hzx⟩
      · exact hzx ▸ (hlast k hk z hz).le
      · rcases List.mem_cons.mp hz with rfl | hz
        · exact hzx ▸ hkey
        · exact hzx ▸ hkey.trans (hy z hz)
    · exact (hkey.trans (hfirstKey ▸ hmax first hfirst)).trans (hrestFrom' x hx)

/-- The merge gives its rows in ascending order just when every batch that counts starts
where the rows before it end. -/
theorem follows_iff {base : List α} {later : List (List α)} {rows : List α}
    (h : Emits key ⟨base, [], later⟩ rows) (hbase : Increasing key base)
    (hlater : ∀ batch ∈ later, batch.Pairwise fun a b => key a ≤ key b) {last : Option κ}
    (hlast : ∀ k ∈ last, ∀ x ∈ base, k < key x) :
    Follows key last rows ↔ InOrder key last base later := by
  induction later generalizing base last rows with
  | nil =>
    rw [emits_base h, InOrder]
    exact iff_true_intro ⟨fun k hk x hx => (hlast k hk x hx).le, hbase.imp fun hlt => hlt.le⟩
  | cons batch later ih =>
    obtain ⟨hbatch, hrestSorted⟩ := List.forall_mem_cons.mp hlater
    cases batch with
    | nil =>
      cases base with
      | nil =>
        rw [emits_spent h, InOrder]
        exact iff_true_intro ⟨nofun, List.Pairwise.nil⟩
      | cons x base =>
        obtain ⟨hx, hbase⟩ := List.pairwise_cons.mp hbase
        obtain ⟨rest, rfl, hrest⟩ := emits_empty_batch h
        have hnext : ∀ k ∈ some (key x), ∀ z ∈ base, k < key z := by
          intro k hk
          cases hk
          exact hx
        rw [InOrder, ← ih hrest hbase hrestSorted hnext]
        have hxLast : ∀ k ∈ last, k ≤ key x := fun k hk => (hlast k hk x List.mem_cons_self).le
        constructor
        · rintro ⟨-, hsorted⟩
          obtain ⟨hxRest, hsorted⟩ := List.pairwise_cons.mp hsorted
          exact ⟨fun k hk => (Option.some.inj hk) ▸ hxRest, hsorted⟩
        · rintro ⟨hfrom, hsorted⟩
          have hxRest := hfrom _ rfl
          refine ⟨fun k hk => ?_, List.pairwise_cons.mpr ⟨hxRest, hsorted⟩⟩
          exact List.forall_mem_cons.mpr
            ⟨hxLast k hk, fun z hz => (hxLast k hk).trans (hxRest z hz)⟩
    | cons y batch =>
      obtain ⟨front, rest, rfl, hrun, hrest⟩ := (emits_loaded h).batch hbase hbatch
      rw [InOrder, hrun.follows_append_iff hbatch hlast,
        ih hrest (hbase.sublist (after_sublist _ _)) hrestSorted]
      intro k hk
      cases hk
      exact lt_of_mem_after hbase

/-- The keys it gives are those of the base and of the batches it loads. -/
theorem exists_emitted_iff {base : List α} {later : List (List α)} {rows : List α}
    (h : Emits key ⟨base, [], later⟩ rows) (hbase : Increasing key base)
    (hlater : ∀ batch ∈ later, batch.Pairwise fun a b => key a ≤ key b) (k : κ) :
    (∃ x ∈ rows, key x = k) ↔
      (∃ x ∈ base, key x = k) ∨
        ∃ batch ∈ later.take (loads key base later), ∃ x ∈ batch, key x = k := by
  induction later generalizing base rows with
  | nil => simp [emits_base h]
  | cons batch later ih =>
    obtain ⟨hbatch, hrestSorted⟩ := List.forall_mem_cons.mp hlater
    cases batch with
    | nil =>
      cases base with
      | nil => simp [emits_spent h, loads]
      | cons x base =>
        obtain ⟨-, hbase⟩ := List.pairwise_cons.mp hbase
        obtain ⟨rest, rfl, hrest⟩ := emits_empty_batch h
        simp [loads, ih hrest hbase hrestSorted, or_assoc]
    | cons y batch =>
      obtain ⟨front, rest, rfl, hrun, hrest⟩ := (emits_loaded h).batch hbase hbatch
      have hsplit : (∃ x ∈ base, key x = k) ↔
          (∃ x ∈ base, key x ≤ lastKey key y batch ∧ key x = k) ∨
            ∃ x ∈ after key (lastKey key y batch) base, key x = k := by
        constructor
        · rintro ⟨x, hx, hk⟩
          by_cases hle : key x ≤ lastKey key y batch
          · exact Or.inl ⟨x, hx, hle, hk⟩
          · exact Or.inr ⟨x, (mem_after_iff hbase hx).mpr (not_le.mp hle), hk⟩
        · rintro (⟨x, hx, -, hk⟩ | ⟨x, hx, hk⟩)
          · exact ⟨x, hx, hk⟩
          · exact ⟨x, (after_sublist _ _).subset hx, hk⟩
      have happend : (∃ x ∈ front ++ rest, key x = k) ↔
          (∃ x ∈ front, key x = k) ∨ ∃ x ∈ rest, key x = k := by
        simp [or_and_right, exists_or]
      rw [happend, hrun.keys, ih hrest (hbase.sublist (after_sublist _ _)) hrestSorted, hsplit, loads,
        List.take_succ_cons, List.exists_mem_cons_iff (a := y :: batch)]
      exact or_or_or_comm

variable (key) in
/-- Skip the rows with the key of the row given before them. -/
def suppress : Option κ → List α → List α
  | _, [] => []
  | last, x :: rows =>
    if last = some (key x) then suppress last rows else x :: suppress (some (key x)) rows

theorem length_suppress_le (last : Option κ) (rows : List α) :
    (suppress key last rows).length ≤ rows.length := by
  induction rows generalizing last with
  | nil => exact Nat.le_refl _
  | cons x rows ih =>
    rw [suppress]
    split_ifs
    · exact (ih last).trans (Nat.le_succ _)
    · exact Nat.succ_le_succ (ih _)

theorem exists_suppress_iff (last : Option κ) (rows : List α) (k : κ) :
    (last = some k ∨ ∃ x ∈ suppress key last rows, key x = k) ↔
      last = some k ∨ ∃ x ∈ rows, key x = k := by
  induction rows generalizing last with
  | nil => rfl
  | cons x rows ih =>
    rw [suppress, List.exists_mem_cons_iff]
    split_ifs with hx
    · rw [ih, hx, Option.some_inj]
      simp
    · have hnext := ih (some (key x))
      rw [Option.some_inj] at hnext
      rw [List.exists_mem_cons_iff, hnext]

theorem follows_cons_iff (last : Option κ) (x : α) (rows : List α) :
    Follows key last (x :: rows) ↔
      (∀ k ∈ last, k ≤ key x) ∧ Follows key (some (key x)) rows := by
  constructor
  · rintro ⟨hfrom, hsorted⟩
    obtain ⟨hx, hsorted⟩ := List.pairwise_cons.mp hsorted
    refine ⟨fun k hk => hfrom k hk x List.mem_cons_self, fun k hk => ?_, hsorted⟩
    cases hk
    exact hx
  · rintro ⟨hfrom, hrest, hsorted⟩
    have hx := hrest _ rfl
    refine ⟨fun k hk => ?_, List.pairwise_cons.mpr ⟨hx, hsorted⟩⟩
    exact List.forall_mem_cons.mpr ⟨hfrom k hk, fun z hz => (hfrom k hk).trans (hx z hz)⟩

/-- What is left has strictly increasing keys just when the rows ascend. -/
theorem increasing_suppress_iff (last : Option κ) (rows : List α) :
    ((∀ k ∈ last, ∀ x ∈ suppress key last rows, k < key x) ∧
      Increasing key (suppress key last rows)) ↔ Follows key last rows := by
  induction rows generalizing last with
  | nil => simp [suppress, Follows, Increasing]
  | cons x rows ih =>
    rw [suppress, follows_cons_iff]
    split_ifs with hx
    · rw [ih, hx]
      exact (and_iff_right fun k hk => (Option.some.inj hk).ge).symm
    · rw [← ih (some (key x))]
      have hstrict : (∀ k ∈ last, k ≤ key x) ↔ ∀ k ∈ last, k < key x := by
        refine forall₂_congr fun k hk => ?_
        have hne : k ≠ key x := by
          rintro rfl
          exact hx hk
        exact ⟨fun hle => lt_of_le_of_ne hle hne, le_of_lt⟩
      rw [hstrict]
      constructor
      · rintro ⟨hfrom, hinc⟩
        obtain ⟨hx, hinc⟩ := List.pairwise_cons.mp hinc
        exact ⟨fun k hk => hfrom k hk x List.mem_cons_self,
          fun k hk => (Option.some.inj hk) ▸ hx, hinc⟩
      · rintro ⟨hfrom, hrest, hinc⟩
        have hx := hrest _ rfl
        refine ⟨fun k hk => ?_, List.pairwise_cons.mpr ⟨hx, hinc⟩⟩
        exact List.forall_mem_cons.mpr ⟨hfrom k hk, fun z hz => (hfrom k hk).trans (hx z hz)⟩

/-- The next row has the value that comes first when base and batches stand one behind the
other, and what is left has all other keys in the same order. -/
theorem View.firstAt_pick {v v' : View α} {x : α} (h : v.pick key = some (x, v'))
    (hbase : Increasing key v.base) (k : κ) :
    firstAt key (v.base ++ v.batch ++ v.later.flatten) k =
      if key x = k then some x else firstAt key (v'.base ++ v'.batch ++ v'.later.flatten) k := by
  obtain ⟨base, batch, later⟩ := v
  cases base with
  | nil =>
    cases batch with
    | nil => cases h
    | cons y batch =>
      cases h
      exact firstAt_cons key x _ k
  | cons a base =>
    obtain ⟨ha, -⟩ := List.pairwise_cons.mp hbase
    cases batch with
    | nil =>
      cases h
      exact firstAt_cons key x _ k
    | cons y batch =>
      simp only [View.pick] at h
      split_ifs at h with hlt heq
      · cases h
        exact firstAt_cons key x _ k
      · cases h
        simp only [List.cons_append, List.append_assoc, firstAt_append, firstAt_cons, ← heq]
        split_ifs <;> rfl
      · cases h
        have hya : key x < key a := lt_of_le_of_ne (not_lt.mp hlt) (Ne.symm heq)
        have hnone : key x = k → firstAt key (a :: base) k = none := by
          rintro rfl
          refine (firstAt_eq_none_iff key).mpr (List.forall_mem_cons.mpr ⟨hya.ne', fun z hz => ?_⟩)
          exact (hya.trans (ha z hz)).ne'
        simp only [List.append_assoc, firstAt_append, firstAt_cons key x]
        split_ifs with hx
        · rw [hnone hx]
          rfl
        · rfl

theorem View.base_pick {v v' : View α} {x : α} (h : v.pick key = some (x, v')) :
    v'.base.Sublist v.base := by
  obtain ⟨base, batch, later⟩ := v
  cases base with
  | nil =>
    cases batch with
    | nil => cases h
    | cons y batch =>
      cases h
      exact List.Sublist.refl _
  | cons a base =>
    cases batch with
    | nil =>
      cases h
      exact List.sublist_cons_self _ _
    | cons y batch =>
      simp only [View.pick] at h
      split_ifs at h <;> cases h
      · exact List.sublist_cons_self _ _
      · exact List.sublist_cons_self _ _
      · exact List.Sublist.refl _

theorem View.flatten_load (v : View α) :
    v.load.base ++ v.load.batch ++ v.load.later.flatten =
      v.base ++ v.batch ++ v.later.flatten ∧ v.load.base = v.base := by
  obtain ⟨base, batch, later⟩ := v
  cases batch with
  | cons y batch => exact ⟨rfl, rfl⟩
  | nil =>
    cases later with
    | nil => exact ⟨rfl, rfl⟩
    | cons c later => exact ⟨by simp [load], rfl⟩

/-- A key that the merge gives comes with the value of the base, else with that of the first
batch that has it. -/
theorem firstAt_of_emits {v : View α} {rows : List α} (h : Emits key v rows)
    (hbase : Increasing key v.base) {k : κ} {x : α} (hx : firstAt key rows k = some x) :
    firstAt key (v.base ++ v.batch ++ v.later.flatten) k = some x := by
  induction h with
  | stop => cases hx
  | @next v v' y rows hnext hrest ih =>
    obtain ⟨hflat, hload⟩ := v.flatten_load
    rw [← hload] at hbase
    rw [← hflat, View.firstAt_pick hnext hbase]
    rw [firstAt_cons] at hx
    split_ifs at hx ⊢ with hk
    · exact hx
    · exact ih (hbase.sublist (View.base_pick hnext)) hx

theorem firstAt_suppress {last : Option κ} {k : κ} (hlast : last ≠ some k) (rows : List α) :
    firstAt key (suppress key last rows) k = firstAt key rows k := by
  induction rows generalizing last with
  | nil => rfl
  | cons x rows ih =>
    rw [suppress, firstAt_cons key x rows]
    split_ifs with hrepeat hk hk
    · exact absurd (hk ▸ hrepeat) hlast
    · exact ih hlast
    · rw [firstAt_cons, if_pos hk]
    · rw [firstAt_cons, if_neg hk]
      exact ih fun h => hk (Option.some.inj h)

end StreamMerge
