import Mathlib.Data.List.Basic

/-! Programs over shared state under read-write locks that are not re-entrant.
A program is a tree of atomic actions, so that programs of several threads can be
interleaved; `exec` runs one of them alone. A program that asks for a lock it holds itself
in a conflicting mode waits for itself forever and is `blocked`. -/

namespace LockProgram

inductive Mode where
  | read
  | write
  deriving DecidableEq, Repr

/-- The guards a thread holds. -/
abbrev Held (L : Type) := List (L × Mode)

/-- A read guard excludes writers, a write guard everybody. -/
def Conflicts {L : Type} (held : Held L) (l : L) : Mode → Prop
  | .read => (l, .write) ∈ held
  | .write => (l, .write) ∈ held ∨ (l, .read) ∈ held

instance {L : Type} [DecidableEq L] (held : Held L) (l : L) (m : Mode) :
    Decidable (Conflicts held l m) :=
  match m with
  | .read => inferInstanceAs (Decidable (_ ∈ _))
  | .write => inferInstanceAs (Decidable (_ ∨ _))

/-- An action changes the state and goes on with what it has seen in the old one. -/
inductive Prog (L σ α : Type) where
  | done (a : α)
  | acquire (l : L) (m : Mode) (rest : Prog L σ α)
  | release (l : L) (m : Mode) (rest : Prog L σ α)
  | act (f : σ → σ) (rest : σ → Prog L σ α)

namespace Prog

variable {L σ α β : Type}

def bind : Prog L σ α → (α → Prog L σ β) → Prog L σ β
  | done a, f => f a
  | acquire l m rest, f => acquire l m (rest.bind f)
  | release l m rest, f => release l m (rest.bind f)
  | act g rest, f => act g fun s => (rest s).bind f

instance : Monad (Prog L σ) where
  pure := done
  bind := bind

end Prog

/-- How a program that runs alone ends. -/
inductive Outcome (L σ α : Type) where
  | finished (a : α) (held : Held L) (s : σ)
  | blocked (l : L) (m : Mode) (s : σ)

def Outcome.Blocked {L σ α : Type} : Outcome L σ α → Prop
  | .finished _ _ _ => False
  | .blocked _ _ _ => True

instance {L σ α : Type} (o : Outcome L σ α) : Decidable o.Blocked :=
  match o with
  | .finished _ _ _ => isFalse id
  | .blocked _ _ _ => isTrue trivial

/-- The state at the end, or the one in which the program waits. -/
def Outcome.state {L σ α : Type} : Outcome L σ α → σ
  | .finished _ _ s => s
  | .blocked _ _ s => s

/-- The program came to its result. -/
def Outcome.succeeded {L σ ε α : Type} : Outcome L σ (Except ε α) → Bool
  | .finished (.ok _) _ _ => true
  | .finished (.error _) _ _ => false
  | .blocked _ _ _ => false

/-- The program stopped with an error, in a state with this property. -/
def Outcome.StoppedIn {L σ ε α : Type} (good : σ → Prop) : Outcome L σ (Except ε α) → Prop
  | .finished (.error _) _ s => good s
  | .finished (.ok _) _ _ => False
  | .blocked _ _ _ => False

instance {L σ ε α : Type} (good : σ → Prop) [DecidablePred good]
    (o : Outcome L σ (Except ε α)) : Decidable (o.StoppedIn good) :=
  match o with
  | .finished (.error _) _ s => inferInstanceAs (Decidable (good s))
  | .finished (.ok _) _ _ => isFalse id
  | .blocked _ _ _ => isFalse id

variable {L σ ε α β : Type} [DecidableEq L]

def Prog.run : Prog L σ α → Held L → σ → Outcome L σ α
  | .done a, held, s => .finished a held s
  | .acquire l m rest, held, s =>
    if Conflicts held l m then .blocked l m s else rest.run ((l, m) :: held) s
  | .release l m rest, held, s => rest.run (held.erase (l, m)) s
  | .act f rest, held, s => (rest s).run held (f s)

/-- A program that may stop with an error. -/
abbrev Op (L σ ε : Type) := ExceptT ε (Prog L σ)

def exec (x : Op L σ ε α) (held : Held L) (s : σ) : Outcome L σ (Except ε α) := x.run.run held s

/-- What the state shows. -/
def gets (f : σ → α) : Op L σ ε α := ExceptT.mk (.act id fun s => .done (.ok (f s)))

/-- Change the state; the change may also be an error. -/
def attempt (f : σ → Except ε α × σ) : Op L σ ε α :=
  ExceptT.mk (.act (fun s => (f s).2) fun s => .done (f s).1)

/-- The guard lives as long as the body, also when the body stops with an error. -/
def withGuard (l : L) (m : Mode) (body : Op L σ ε α) : Op L σ ε α :=
  ExceptT.mk (.acquire l m (body.run.bind fun r => .release l m (.done r)))

theorem Prog.run_bind (x : Prog L σ α) (f : α → Prog L σ β) (held : Held L) (s : σ) :
    (x.bind f).run held s = match x.run held s with
      | .finished a held s => (f a).run held s
      | .blocked l m s => .blocked l m s := by
  induction x generalizing held s with
  | done a => rfl
  | acquire l m rest ih =>
    rw [Prog.bind, Prog.run, Prog.run]
    split_ifs
    · rfl
    · exact ih _ _
  | release l m rest ih => exact ih _ _
  | act g rest ih => exact ih s held (g s)

@[simp] theorem exec_pure (a : α) (held : Held L) (s : σ) :
    exec (pure a : Op L σ ε α) held s = .finished (.ok a) held s := rfl

@[simp] theorem exec_throw (e : ε) (held : Held L) (s : σ) :
    exec (throw e : Op L σ ε α) held s = .finished (.error e) held s := rfl

@[simp] theorem exec_gets (f : σ → α) (held : Held L) (s : σ) :
    exec (gets f : Op L σ ε α) held s = .finished (.ok (f s)) held s := rfl

@[simp] theorem exec_attempt (f : σ → Except ε α × σ) (held : Held L) (s : σ) :
    exec (attempt f) held s = .finished (f s).1 held (f s).2 := rfl

theorem exec_bind (x : Op L σ ε α) (f : α → Op L σ ε β) (held : Held L) (s : σ) :
    exec (x >>= f) held s = match exec x held s with
      | .finished (.ok a) held s => exec (f a) held s
      | .finished (.error e) held s => .finished (.error e) held s
      | .blocked l m s => .blocked l m s := by
  change (x.run.bind fun r => match r with
    | .ok a => (f a).run
    | .error e => .done (.error e)).run held s = _
  rw [Prog.run_bind, exec]
  cases x.run.run held s with
  | finished r held s => cases r <;> rfl
  | blocked l m s => rfl

theorem exec_withGuard (l : L) (m : Mode) (body : Op L σ ε α) (held : Held L) (s : σ) :
    exec (withGuard l m body) held s =
      if Conflicts held l m then .blocked l m s
      else match exec body ((l, m) :: held) s with
        | .finished r held s => .finished r (held.erase (l, m)) s
        | .blocked l m s => .blocked l m s := by
  change (.acquire l m (body.run.bind fun r => .release l m (.done r)) : Prog L σ (Except ε α)).run
    held s = _
  rw [Prog.run]
  split_ifs
  · rfl
  · rw [Prog.run_bind, exec]
    cases body.run.run ((l, m) :: held) s <;> rfl

theorem exec_attempt_of_eq {f : σ → Except ε α × σ} {s s' : σ} {r : Except ε α}
    (hf : f s = (r, s')) (held : Held L) : exec (attempt f) held s = .finished r held s' := by
  rw [exec_attempt, hf]

/-- A section of its own under a guard that is free. -/
theorem exec_withGuard_attempt {l : L} {m : Mode} {held : Held L} (h : ¬ Conflicts held l m)
    {f : σ → Except ε α × σ} {s s' : σ} {r : Except ε α} (hf : f s = (r, s')) :
    exec (withGuard l m (attempt f)) held s = .finished r held s' := by
  rw [exec_withGuard, if_neg h, exec_attempt, hf]
  simp

theorem exec_withGuard_gets {l : L} {m : Mode} {held : Held L} (h : ¬ Conflicts held l m)
    (f : σ → α) (s : σ) :
    exec (withGuard l m (gets f) : Op L σ ε α) held s = .finished (.ok (f s)) held s := by
  rw [exec_withGuard, if_neg h, exec_gets]
  simp

theorem exec_withGuard_conflict {l : L} {m : Mode} {held : Held L} (h : Conflicts held l m)
    (body : Op L σ ε α) (s : σ) : exec (withGuard l m body) held s = .blocked l m s := by
  rw [exec_withGuard, if_pos h]

theorem exec_bind_ok {x : Op L σ ε α} {held held' : Held L} {s s' : σ} {a : α}
    (h : exec x held s = .finished (.ok a) held' s') (f : α → Op L σ ε β) :
    exec (x >>= f) held s = exec (f a) held' s' := by
  rw [exec_bind, h]

theorem exec_bind_error {x : Op L σ ε α} {held held' : Held L} {s s' : σ} {e : ε}
    (h : exec x held s = .finished (.error e) held' s') (f : α → Op L σ ε β) :
    exec (x >>= f) held s = .finished (.error e) held' s' := by
  rw [exec_bind, h]

theorem exec_bind_blocked {x : Op L σ ε α} {held : Held L} {s s' : σ} {l : L} {m : Mode}
    (h : exec x held s = .blocked l m s') (f : α → Op L σ ε β) :
    exec (x >>= f) held s = .blocked l m s' := by
  rw [exec_bind, h]

/-- The first part of a program that comes to a result came to one itself. -/
theorem exec_bind_eq_ok {x : Op L σ ε α} {f : α → Op L σ ε β} {held held' : Held L} {s s' : σ}
    {b : β} (h : exec (x >>= f) held s = .finished (.ok b) held' s') :
    ∃ a held₁ s₁, exec x held s = .finished (.ok a) held₁ s₁ ∧
      exec (f a) held₁ s₁ = .finished (.ok b) held' s' := by
  rw [exec_bind] at h
  cases hx : exec x held s with
  | blocked l m s₁ =>
    rw [hx] at h
    cases h
  | finished r held₁ s₁ =>
    rw [hx] at h
    cases r with
    | error e => cases h
    | ok a => exact ⟨a, held₁, s₁, rfl, h⟩

/-- Under these guards the program comes to an end whatever the state is, and then holds
the same guards. -/
def RunsUnder (held : Held L) (x : Op L σ ε α) : Prop :=
  ∀ s, ∃ r s', exec x held s = .finished r held s'

theorem runsUnder_pure (held : Held L) (a : α) : RunsUnder held (pure a : Op L σ ε α) :=
  fun s => ⟨_, s, rfl⟩

theorem runsUnder_throw (held : Held L) (e : ε) : RunsUnder held (throw e : Op L σ ε α) :=
  fun s => ⟨_, s, rfl⟩

theorem runsUnder_gets (held : Held L) (f : σ → α) : RunsUnder held (gets f : Op L σ ε α) :=
  fun s => ⟨_, s, rfl⟩

theorem runsUnder_attempt (held : Held L) (f : σ → Except ε α × σ) : RunsUnder held (attempt f) :=
  fun s => ⟨(f s).1, (f s).2, rfl⟩

theorem RunsUnder.bind {held : Held L} {x : Op L σ ε α} {f : α → Op L σ ε β}
    (hx : RunsUnder held x) (hf : ∀ a, RunsUnder held (f a)) : RunsUnder held (x >>= f) := by
  intro s
  obtain ⟨r, s₁, h⟩ := hx s
  cases r with
  | error e => exact ⟨.error e, s₁, exec_bind_error h f⟩
  | ok a =>
    obtain ⟨r, s₂, h₂⟩ := hf a s₁
    exact ⟨r, s₂, (exec_bind_ok h f).trans h₂⟩

theorem RunsUnder.withGuard {l : L} {m : Mode} {held : Held L} {body : Op L σ ε α}
    (h : ¬ Conflicts held l m) (hbody : RunsUnder ((l, m) :: held) body) :
    RunsUnder held (withGuard l m body) := by
  intro s
  obtain ⟨r, s', hexec⟩ := hbody s
  refine ⟨r, s', ?_⟩
  rw [exec_withGuard, if_neg h, hexec]
  simp

theorem RunsUnder.not_blocked {held : Held L} {x : Op L σ ε α} (h : RunsUnder held x) (s : σ) :
    ¬ (exec x held s).Blocked := by
  obtain ⟨r, s', hexec⟩ := h s
  rw [hexec]
  exact id

end LockProgram
