import Mathlib.Data.List.Basic

/-! Runs of a machine whose steps may go wrong. Where an invariant makes the states good,
every step under a guard keeps it, and every other step leads to a bad state at once, the
states of a run are all good exactly when each of its steps is under the guard. -/

namespace GuardedRuns

variable {σ ε : Type}

/-- The state after a list of events. -/
def run (step : σ → ε → σ) (s : σ) (events : List ε) : σ := events.foldl step s

/-- Every event finds a state that its guard allows. -/
def Guarded (step : σ → ε → σ) (guard : σ → ε → Prop) : σ → List ε → Prop
  | _, [] => True
  | s, e :: events => guard s e ∧ Guarded step guard (step s e) events

instance decidableGuarded (step : σ → ε → σ) (guard : σ → ε → Prop)
    [∀ s e, Decidable (guard s e)] :
    (s : σ) → (events : List ε) → Decidable (Guarded step guard s events)
  | _, [] => isTrue trivial
  | s, e :: events =>
    have := decidableGuarded step guard (step s e) events
    inferInstanceAs (Decidable (guard s e ∧ Guarded step guard (step s e) events))

/-- Every state that the run visits, the first and the last one included. -/
def Always (step : σ → ε → σ) (good : σ → Prop) (s : σ) (events : List ε) : Prop :=
  ∀ front, front <+: events → good (run step s front)

variable {step : σ → ε → σ} {guard : σ → ε → Prop} {good : σ → Prop}

theorem Guarded.mono {guard' : σ → ε → Prop} (himp : ∀ s e, guard s e → guard' s e) {s : σ}
    {events : List ε} (h : Guarded step guard s events) : Guarded step guard' s events := by
  induction events generalizing s with
  | nil => trivial
  | cons e events ih => exact ⟨himp s e h.1, ih h.2⟩

theorem run_append (s : σ) (front back : List ε) :
    run step s (front ++ back) = run step (run step s front) back :=
  List.foldl_append

theorem always_nil_iff (s : σ) : Always step good s [] ↔ good s := by
  constructor
  · intro h
    exact h [] (List.prefix_refl [])
  · intro h front hfront
    rw [List.prefix_nil.mp hfront]
    exact h

theorem always_cons_iff (s : σ) (e : ε) (events : List ε) :
    Always step good s (e :: events) ↔ good s ∧ Always step good (step s e) events := by
  constructor
  · intro h
    refine ⟨h [] (List.nil_prefix), fun front hfront => ?_⟩
    exact h (e :: front) ((List.prefix_cons_inj e).mpr hfront)
  · rintro ⟨hs, h⟩ front hfront
    cases front with
    | nil => exact hs
    | cons e' front =>
      obtain ⟨rfl, hrest⟩ := List.cons_prefix_cons.mp hfront
      exact h front hrest

instance decidableAlways (step : σ → ε → σ) (good : σ → Prop) [DecidablePred good] :
    (s : σ) → (events : List ε) → Decidable (Always step good s events)
  | s, [] => decidable_of_iff (good s) (always_nil_iff s).symm
  | s, e :: events =>
    have := decidableAlways step good (step s e) events
    decidable_of_iff (good s ∧ Always step good (step s e) events) (always_cons_iff s e events).symm

/-- Steps under the guard keep the run in the invariant. -/
theorem always_of_guarded (inv : σ → Prop) (hgood : ∀ s, inv s → good s)
    (hkeep : ∀ s e, inv s → guard s e → inv (step s e)) {s : σ} (hs : inv s) {events : List ε}
    (h : Guarded step guard s events) : Always step good s events := by
  induction events generalizing s with
  | nil => exact (always_nil_iff s).mpr (hgood s hs)
  | cons e events ih =>
    exact (always_cons_iff s e events).mpr ⟨hgood s hs, ih (hkeep s e hs h.1) h.2⟩

/-- The same where something more is given of all states of the run. -/
theorem always_iff_guarded_of_always (inv given : σ → Prop) (hgood : ∀ s, inv s → good s)
    (hkeep : ∀ s e, inv s → given s → guard s e → inv (step s e))
    (hbreak : ∀ s e, inv s → given s → ¬ guard s e → ¬ good (step s e)) {s : σ} (hs : inv s)
    {events : List ε} (hgiven : Always step given s events) :
    Always step good s events ↔ Guarded step guard s events := by
  induction events generalizing s with
  | nil => exact iff_of_true ((always_nil_iff s).mpr (hgood s hs)) trivial
  | cons e events ih =>
    obtain ⟨hgiven, hrest⟩ := (always_cons_iff s e events).mp hgiven
    rw [always_cons_iff, Guarded]
    by_cases he : guard s e
    · rw [ih (hkeep s e hs hgiven he) hrest]
      exact and_congr_left fun _ => iff_of_true (hgood s hs) he
    · refine iff_of_false (fun h => ?_) (fun h => he h.1)
      exact hbreak s e hs hgiven he (h.2 [] List.nil_prefix)

theorem always_iff_guarded (inv : σ → Prop) (hgood : ∀ s, inv s → good s)
    (hkeep : ∀ s e, inv s → guard s e → inv (step s e))
    (hbreak : ∀ s e, inv s → ¬ guard s e → ¬ good (step s e)) {s : σ} (hs : inv s)
    (events : List ε) : Always step good s events ↔ Guarded step guard s events :=
  always_iff_guarded_of_always inv (fun _ => True) hgood (fun s e hs _ => hkeep s e hs)
    (fun s e hs _ => hbreak s e hs) hs fun _ _ => trivial

end GuardedRuns
