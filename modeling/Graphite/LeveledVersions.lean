import Mathlib.Data.List.Induction
import Mathlib.Data.Nat.Find
import Mathlib.Tactic.ByContra

/-! The versions of one key in a leveled store. A level lists its versions from the
oldest to the newest, shallower levels are newer than deeper ones. Sinking a level moves
its oldest version behind those of the next level and drops the others. -/

namespace LeveledVersions

variable {α : Type}

/-- The versions on each level. -/
abbrev Versions (α : Type) := Nat → List α

def sink (i : Nat) (f : Versions α) : Versions α := fun n =>
  if n = i then [] else if n = i + 1 then f n ++ (f i).head?.toList else f n

def sinkAll (f : Versions α) (is : List Nat) : Versions α := is.foldl (fun f i => sink i f) f

/-- The version found looking from level 0 downwards, newest first. -/
def IsNewest (f : Versions α) (v : α) : Prop :=
  ∃ n, (∀ m < n, f m = []) ∧ (f n).getLast? = some v

/-- What arrives at a level when the levels of `is` above it sink. -/
def carried (is : List Nat) (f : Versions α) : Nat → Option α
  | 0 => none
  | n + 1 => if n ∈ is then (f n).head?.or (carried is f n) else none

/-- In every block of consecutive sinking levels that starts with the first level that
holds a version, the oldest version of the last level that holds one is the newest
version of the first one. -/
def NewestSurvives (is : List Nat) (f : Versions α) : Prop :=
  ∀ top bottom deep, (∀ m < top, f m = []) → f top ≠ [] → bottom ∉ is →
    (∀ m, top ≤ m → m < bottom → m ∈ is) → top ≤ deep → deep < bottom → f deep ≠ [] →
    (∀ m, deep < m → m < bottom → f m = []) → (f deep).head? = (f top).getLast?

theorem sinkAll_append (f : Versions α) (is : List Nat) (i : Nat) :
    sinkAll f (is ++ [i]) = sink i (sinkAll f is) := by
  simp [sinkAll]

theorem carried_append_of_le {is : List Nat} {i n : Nat} (f : Versions α) (h : n ≤ i) :
    carried (is ++ [i]) f n = carried is f n := by
  induction n with
  | zero => rfl
  | succ n ih =>
    have hne : n ≠ i := by omega
    have hmem : n ∈ is ++ [i] ↔ n ∈ is := by simp [hne]
    rw [carried, carried, ih (by omega)]
    simp only [hmem]

theorem carried_of_not_mem {is : List Nat} {n : Nat} (f : Versions α) (h : n ∉ is) :
    carried is f (n + 1) = none := by
  rw [carried, if_neg h]

/-- Sinking levels from the top down. -/
theorem sinkAll_eq (f : Versions α) {is : List Nat} (h : is.Pairwise (· < ·)) (n : Nat) :
    sinkAll f is n = if n ∈ is then [] else f n ++ (carried is f n).toList := by
  induction is using List.reverseRecOn generalizing n with
  | nil => cases n <;> simp [sinkAll, carried]
  | append_singleton is i ih =>
    obtain ⟨his, -, hlast⟩ := List.pairwise_append.mp h
    have hlt : ∀ m ∈ is, m < i := fun m hm => hlast m hm i (by simp)
    have hi : i ∉ is := fun hm => Nat.lt_irrefl i (hlt i hm)
    have hi' : i + 1 ∉ is := fun hm => by have := hlt _ hm; omega
    rw [sinkAll_append, sink]
    by_cases hn : n = i
    · simp [hn]
    · rw [if_neg hn]
      by_cases hn' : n = i + 1
      · subst hn'
        have hmem : i + 1 ∉ is ++ [i] := by simp [hi']
        have hhead : (f i ++ (carried is f i).toList).head? = (f i).head?.or (carried is f i) := by
          cases f i <;> cases carried is f i <;> rfl
        rw [if_pos rfl, if_neg hmem, ih his, ih his, if_neg hi, if_neg hi', carried_of_not_mem f hi,
          carried, if_pos (by simp), carried_append_of_le f le_rfl, hhead, Option.toList_none,
          List.append_nil]
      · have hmem : n ∈ is ++ [i] ↔ n ∈ is := by simp [hn]
        have hcarried : carried (is ++ [i]) f n = carried is f n := by
          rcases Nat.lt_or_ge i n with hgt | hle
          · obtain ⟨m, rfl⟩ := Nat.exists_eq_succ_of_ne_zero (by omega : n ≠ 0)
            have hm : m ∉ is := fun hmem => by have := hlt m hmem; omega
            rw [carried_of_not_mem f hm, carried_of_not_mem f (by simp [hm]; omega)]
          · exact carried_append_of_le f hle
        rw [if_neg hn', ih his, hcarried]
        simp only [hmem]

theorem carried_eq_none {is : List Nat} {f : Versions α} {n : Nat} (h : ∀ m < n, f m = []) :
    carried is f n = none := by
  induction n with
  | zero => rfl
  | succ n ih =>
    rw [carried, h n (by omega), ih fun m hm => h m (by omega)]
    split_ifs <;> rfl

/-- Below a block of sinking levels arrives the oldest version of its last level. -/
theorem carried_eq_head {is : List Nat} {f : Versions α} {deep bottom : Nat} (hlt : deep < bottom)
    (his : ∀ m, deep ≤ m → m < bottom → m ∈ is) (hdeep : f deep ≠ [])
    (hempty : ∀ m, deep < m → m < bottom → f m = []) :
    carried is f bottom = (f deep).head? := by
  induction bottom with
  | zero => omega
  | succ n ih =>
    rw [carried, if_pos (his n (by omega) (by omega))]
    rcases Nat.lt_or_ge deep n with h | h
    · rw [hempty n h (by omega),
        ih h (fun m h1 h2 => his m h1 (by omega)) fun m h1 h2 => hempty m h1 (by omega)]
      rfl
    · obtain rfl : n = deep := by omega
      obtain ⟨v, vs, hvs⟩ := List.exists_cons_of_ne_nil hdeep
      rw [hvs]
      rfl

theorem isNewest_iff {f : Versions α} {n : Nat} (hempty : ∀ m < n, f m = []) (hn : f n ≠ [])
    (v : α) : IsNewest f v ↔ (f n).getLast? = some v := by
  constructor
  · rintro ⟨k, hk, hv⟩
    obtain rfl : k = n := by
      rcases Nat.lt_trichotomy k n with h | h | h
      · rw [hempty k h] at hv
        cases hv
      · exact h
      · exact absurd (hk n h) hn
    exact hv
  · exact fun hv => ⟨n, hempty, hv⟩

/-- A store with finitely many levels. -/
def ofList (levels : List (List α)) : Versions α := fun n => levels.getD n []

/-- Looking through the levels finds the newest version. -/
theorem findSome?_eq_some_iff (levels : List (List α)) (v : α) :
    levels.findSome? List.getLast? = some v ↔ IsNewest (ofList levels) v := by
  induction levels with
  | nil =>
    refine iff_of_false (by simp) ?_
    rintro ⟨n, -, hn⟩
    simp [ofList] at hn
  | cons versions levels ih =>
    by_cases hnil : versions = []
    · rw [hnil, List.findSome?_cons, List.getLast?_nil, ih]
      constructor
      · rintro ⟨n, hempty, hn⟩
        refine ⟨n + 1, fun m hm => ?_, hn⟩
        cases m with
        | zero => rfl
        | succ m => exact hempty m (by omega)
      · rintro ⟨n, hempty, hn⟩
        cases n with
        | zero => cases hn
        | succ n => exact ⟨n, fun m hm => hempty (m + 1) (by omega), hn⟩
    · have hzero : ofList (versions :: levels) 0 = versions := rfl
      rw [isNewest_iff (f := ofList (versions :: levels))
        (fun m hm => absurd hm (Nat.not_lt_zero m)) (by rwa [hzero]), hzero,
        List.findSome?_cons]
      cases hlast : versions.getLast? with
      | none => exact absurd (List.getLast?_eq_none_iff.mp hlast) hnil
      | some w => rfl

theorem exists_not_mem_above (is : List Nat) (top : Nat) : ∃ n, top < n ∧ n ∉ is := by
  refine ⟨top + is.max?.getD 0 + 1, by omega, fun hmem => ?_⟩
  have hle := List.le_max?_getD_of_mem (k := 0) hmem
  omega

/-- The last level that holds a version between two levels. -/
theorem exists_deepest {f : Versions α} {top bottom : Nat} (hlt : top < bottom)
    (htop : f top ≠ []) :
    ∃ deep, top ≤ deep ∧ deep < bottom ∧ f deep ≠ [] ∧ ∀ m, deep < m → m < bottom → f m = [] := by
  induction bottom with
  | zero => omega
  | succ n ih =>
    by_cases hn : f n = []
    · have htn : top < n := by
        rcases Nat.lt_or_ge top n with h | h
        · exact h
        · exact absurd (by rwa [(by omega : top = n)]) htop
      obtain ⟨deep, h1, h2, h3, h4⟩ := ih htn
      refine ⟨deep, h1, by omega, h3, fun m hm hm' => ?_⟩
      rcases Nat.lt_or_ge m n with h | h
      · exact h4 m hm h
      · rwa [(by omega : m = n)]
    · exact ⟨n, by omega, by omega, hn, fun m hm hm' => by omega⟩

/-- Sinking levels changes no lookup exactly when the newest version survives. -/
theorem newest_sinkAll_iff (f : Versions α) {is : List Nat} (h : is.Pairwise (· < ·)) :
    (∀ v, IsNewest (sinkAll f is) v ↔ IsNewest f v) ↔ NewestSurvives is f := by
  by_cases hall : ∀ n, f n = []
  · have hsunk (n : Nat) : sinkAll f is n = [] := by
      rw [sinkAll_eq f h, hall n, carried_eq_none fun m _ => hall m]
      split_ifs <;> rfl
    refine iff_of_true (fun v => ?_) fun top _ _ _ htop => absurd (hall top) htop
    constructor
    · rintro ⟨n, -, hn⟩
      rw [hsunk n] at hn
      cases hn
    · rintro ⟨n, -, hn⟩
      rw [hall n] at hn
      cases hn
  · obtain ⟨top, htop, hempty⟩ : ∃ top, f top ≠ [] ∧ ∀ m < top, f m = [] := by
      have hex : ∃ n, f n ≠ [] := not_forall.mp hall
      classical
      exact ⟨Nat.find hex, Nat.find_spec hex, fun m hm => not_not.mp (Nat.find_min hex hm)⟩
    have hcarried : ∀ m ≤ top, carried is f m = none := fun m hm =>
      carried_eq_none fun k hk => hempty k (by omega)
    by_cases hsink : top ∈ is
    · -- the first level that holds a version sinks, to `bottom`
      obtain ⟨bottom, ⟨hlt, hbottom⟩, hmin⟩ : ∃ bottom, (top < bottom ∧ bottom ∉ is) ∧
          ∀ m < bottom, ¬ (top < m ∧ m ∉ is) := by
        have hex := exists_not_mem_above is top
        classical
        exact ⟨Nat.find hex, Nat.find_spec hex, fun m hm => Nat.find_min hex hm⟩
      have hblock : ∀ m, top ≤ m → m < bottom → m ∈ is := by
        intro m h1 h2
        rcases Nat.eq_or_lt_of_le h1 with rfl | h1
        · exact hsink
        · by_contra hm
          exact hmin m h2 ⟨h1, hm⟩
      obtain ⟨deep, h1, h2, hdeep, hbelow⟩ := exists_deepest hlt htop
      have hhead := carried_eq_head h2 (fun m hm => hblock m (by omega)) hdeep hbelow
      have hsunk : sinkAll f is bottom = f bottom ++ (f deep).head?.toList := by
        rw [sinkAll_eq f h, if_neg hbottom, hhead]
      have habove : ∀ m < bottom, sinkAll f is m = [] := by
        intro m hm
        rw [sinkAll_eq f h]
        split_ifs with hmem
        · rfl
        · have hmtop : m < top := by
            by_contra hge
            exact hmem (hblock m (by omega) hm)
          rw [hempty m hmtop, hcarried m (Nat.le_of_lt hmtop)]
          rfl
      obtain ⟨v, vs, hvs⟩ := List.exists_cons_of_ne_nil hdeep
      rw [hvs, List.head?_cons, Option.toList_some] at hsunk
      have hlast : (sinkAll f is bottom).getLast? = some v := by
        rw [hsunk, List.getLast?_concat]
      have hne : sinkAll f is bottom ≠ [] := by simp [hsunk]
      have hiff : (∀ w, IsNewest (sinkAll f is) w ↔ IsNewest f w) ↔
          (f deep).head? = (f top).getLast? := by
        simp only [isNewest_iff habove hne, isNewest_iff hempty htop, hlast, hvs, List.head?_cons]
        constructor
        · intro hw
          exact ((hw v).mp rfl).symm
        · intro heq w
          rw [heq]
      rw [hiff]
      constructor
      · intro heq top' bottom' deep' g1 g2 g3 g4 g5 g6 g7 g8
        obtain rfl : top' = top := by
          rcases Nat.lt_trichotomy top' top with hlt' | heq' | hgt
          · exact absurd (hempty top' hlt') g2
          · exact heq'
          · exact absurd (g1 top hgt) htop
        obtain rfl : bottom' = bottom := by
          rcases Nat.lt_trichotomy bottom' bottom with hlt' | heq' | hgt
          · exact absurd (hblock bottom' (by omega) hlt') g3
          · exact heq'
          · exact absurd (g4 bottom (by omega) hgt) hbottom
        obtain rfl : deep' = deep := by
          rcases Nat.lt_trichotomy deep' deep with hlt' | heq' | hgt
          · exact absurd (g8 deep hlt' h2) hdeep
          · exact heq'
          · exact absurd (hbelow deep' hgt g6) g7
        exact heq
      · exact fun hs => hs top bottom deep hempty htop hbottom hblock h1 h2 hdeep hbelow
    · -- nothing above it holds a version, and it stays
      have hsunk : sinkAll f is top = f top := by
        rw [sinkAll_eq f h, if_neg hsink, hcarried top le_rfl]
        simp
      have habove : ∀ m < top, sinkAll f is m = [] := by
        intro m hm
        rw [sinkAll_eq f h, hempty m hm, hcarried m (Nat.le_of_lt hm)]
        split_ifs <;> rfl
      refine iff_of_true (fun v => ?_) ?_
      · rw [isNewest_iff habove (by rwa [hsunk]), isNewest_iff hempty htop, hsunk]
      · intro top' bottom' deep' g1 g2 g3 g4 g5 g6
        obtain rfl : top' = top := by
          rcases Nat.lt_trichotomy top' top with hlt' | heq' | hgt
          · exact absurd (hempty top' hlt') g2
          · exact heq'
          · exact absurd (g1 top hgt) htop
        exact absurd (g4 _ le_rfl (by omega)) hsink

end LeveledVersions
