import Graphite.LockProgram

/-! The states in which a program that runs alone may be stopped: before each of its actions
and at its end. The rules go along the program and show what holds in all of them. A
program may also work on more state than another one does, and otherwise do the same. -/

namespace LockProgram

variable {L σ τ ε α β : Type}

/-- The states before the actions, and the last one. -/
def Prog.stages [DecidableEq L] : Prog L σ α → Held L → σ → List σ
  | .done _, _, s => [s]
  | .acquire l m rest, held, s =>
    if Conflicts held l m then [s] else rest.stages ((l, m) :: held) s
  | .release l m rest, held, s => rest.stages (held.erase (l, m)) s
  | .act f rest, held, s => s :: (rest s).stages held (f s)

/-- Every state that the program goes through is good, and its end is one of those asked for. -/
def Through (good : σ → Prop) (post : α → σ → Prop) : Prog L σ α → σ → Prop
  | .done a, s => good s ∧ post a s
  | .acquire _ _ rest, s => good s ∧ Through good post rest s
  | .release _ _ rest, s => Through good post rest s
  | .act f rest, s => good s ∧ Through good post (rest s) (f s)

/-- The states of an operation. -/
def stages [DecidableEq L] (x : Op L σ ε α) (held : Held L) (s : σ) : List σ :=
  x.run.stages held s

def ThroughOp (good : σ → Prop) (post : Except ε α → σ → Prop) (x : Op L σ ε α) (s : σ) : Prop :=
  Through good post x.run s

section Stages

variable [DecidableEq L]

theorem Prog.self_mem_stages (x : Prog L σ α) (held : Held L) (s : σ) : s ∈ x.stages held s := by
  induction x generalizing held s with
  | done a => exact List.mem_singleton_self s
  | acquire l m rest ih =>
    rw [Prog.stages]
    split_ifs
    · exact List.mem_singleton_self s
    · exact ih _ _
  | release l m rest ih => exact ih _ _
  | act f rest ih => exact List.mem_cons_self

/-- The last state is one of them. -/
theorem Prog.state_mem_stages (x : Prog L σ α) (held : Held L) (s : σ) :
    (x.run held s).state ∈ x.stages held s := by
  induction x generalizing held s with
  | done a => exact List.mem_singleton_self s
  | acquire l m rest ih =>
    rw [Prog.run, Prog.stages]
    split_ifs
    · exact List.mem_singleton_self s
    · exact ih _ _
  | release l m rest ih => exact ih _ _
  | act f rest ih => exact List.mem_cons_of_mem s (ih s held (f s))

theorem Prog.mem_stages_bind {x : Prog L σ α} {held : Held L} {s t : σ}
    (h : t ∈ x.stages held s) (f : α → Prog L σ β) : t ∈ (x.bind f).stages held s := by
  induction x generalizing held s with
  | done a =>
    rw [List.mem_singleton.mp h]
    exact (f a).self_mem_stages held s
  | acquire l m rest ih =>
    rw [Prog.stages] at h
    rw [Prog.bind, Prog.stages]
    split_ifs at h ⊢
    · exact h
    · exact ih h
  | release l m rest ih =>
    rw [Prog.stages] at h
    rw [Prog.bind, Prog.stages]
    exact ih h
  | act g rest ih =>
    rcases List.mem_cons.mp h with rfl | h
    · exact List.mem_cons_self
    · exact List.mem_cons_of_mem s (ih s h)

theorem Prog.mem_stages_of_run {x : Prog L σ α} {held held' : Held L} {s s' t : σ} {a : α}
    (hrun : x.run held s = .finished a held' s') {f : α → Prog L σ β}
    (h : t ∈ (f a).stages held' s') : t ∈ (x.bind f).stages held s := by
  induction x generalizing held s with
  | done b =>
    cases hrun
    exact h
  | acquire l m rest ih =>
    rw [Prog.run] at hrun
    rw [Prog.bind, Prog.stages]
    split_ifs at hrun ⊢
    exact ih hrun
  | release l m rest ih =>
    rw [Prog.run] at hrun
    rw [Prog.bind, Prog.stages]
    exact ih hrun
  | act g rest ih => exact List.mem_cons_of_mem s (ih s hrun)

theorem Prog.mem_stages_bind_cases {x : Prog L σ α} {f : α → Prog L σ β} {held : Held L} {s t : σ}
    (h : t ∈ (x.bind f).stages held s) : t ∈ x.stages held s ∨
      ∃ a held' s', x.run held s = .finished a held' s' ∧ t ∈ (f a).stages held' s' := by
  induction x generalizing held s with
  | done a => exact Or.inr ⟨a, held, s, rfl, h⟩
  | acquire l m rest ih =>
    rw [Prog.bind, Prog.stages] at h
    rw [Prog.stages, Prog.run]
    split_ifs at h ⊢
    · exact Or.inl h
    · exact ih h
  | release l m rest ih => exact ih h
  | act g rest ih =>
    rcases List.mem_cons.mp h with rfl | h
    · exact Or.inl List.mem_cons_self
    · exact (ih s h).imp_left (List.mem_cons_of_mem s)

/-- A state of an operation is one of its first part, or one behind the result of that. -/
theorem mem_stages_bind_cases {x : Op L σ ε α} {f : α → Op L σ ε β} {held : Held L} {s t : σ}
    (h : t ∈ stages (x >>= f) held s) : t ∈ stages x held s ∨
      ∃ a held' s', exec x held s = .finished (.ok a) held' s' ∧ t ∈ stages (f a) held' s' := by
  rcases Prog.mem_stages_bind_cases h with h | ⟨r, held', s', hrun, h⟩
  · exact Or.inl h
  · cases r with
    | ok a => exact Or.inr ⟨a, held', s', hrun, h⟩
    | error e =>
      rw [List.mem_singleton.mp h]
      have hlast : (exec x held s).state ∈ stages x held s := Prog.state_mem_stages x.run held s
      have hexec : exec x held s = .finished (.error e) held' s' := hrun
      rw [hexec] at hlast
      exact Or.inl hlast

/-- The states of the first part of an operation. -/
theorem mem_stages_bind {x : Op L σ ε α} {held : Held L} {s t : σ} (h : t ∈ stages x held s)
    (f : α → Op L σ ε β) : t ∈ stages (x >>= f) held s :=
  Prog.mem_stages_bind h _

/-- The states of the second part. -/
theorem mem_stages_bind_ok {x : Op L σ ε α} {held held' : Held L} {s s' t : σ} {a : α}
    (hexec : exec x held s = .finished (.ok a) held' s') {f : α → Op L σ ε β}
    (h : t ∈ stages (f a) held' s') : t ∈ stages (x >>= f) held s :=
  Prog.mem_stages_of_run hexec h

theorem mem_stages_withGuard {l : L} {m : Mode} {body : Op L σ ε α} {held : Held L} {s t : σ}
    (hfree : ¬ Conflicts held l m) (h : t ∈ stages body ((l, m) :: held) s) :
    t ∈ stages (withGuard l m body) held s := by
  have hbind := Prog.mem_stages_bind h fun r => .release l m (.done r)
  change t ∈ (Prog.acquire l m (body.run.bind fun r => .release l m (.done r))).stages held s
  rw [Prog.stages, if_neg hfree]
  exact hbind

end Stages

section Rules

variable {good : σ → Prop}

theorem Through.mem_stages [DecidableEq L] {post : α → σ → Prop} {x : Prog L σ α} {s : σ}
    (h : Through good post x s) (held : Held L) : ∀ t ∈ x.stages held s, good t := by
  induction x generalizing held s with
  | done a => exact List.forall_mem_singleton.mpr h.1
  | acquire l m rest ih =>
    rw [Prog.stages]
    split_ifs
    · exact List.forall_mem_singleton.mpr h.1
    · exact ih h.2 _
  | release l m rest ih => exact ih h _
  | act f rest ih => exact List.forall_mem_cons.mpr ⟨h.1, ih s h.2 held⟩

/-- The end of a run is one that was asked for. -/
theorem Through.of_run [DecidableEq L] {post : α → σ → Prop} {x : Prog L σ α} {s s' : σ}
    (h : Through good post x s) {held held' : Held L} {a : α}
    (hrun : x.run held s = .finished a held' s') : good s' ∧ post a s' := by
  induction x generalizing held s with
  | done b =>
    cases hrun
    exact h
  | acquire l m rest ih =>
    rw [Prog.run] at hrun
    split_ifs at hrun
    exact ih h.2 hrun
  | release l m rest ih => exact ih h hrun
  | act f rest ih => exact ih s h.2 hrun

theorem Through.mono {post post' : α → σ → Prop} (himp : ∀ a s, good s → post a s → post' a s)
    {x : Prog L σ α} {s : σ} (h : Through good post x s) : Through good post' x s := by
  induction x generalizing s with
  | done a => exact ⟨h.1, himp a s h.1 h.2⟩
  | acquire l m rest ih => exact ⟨h.1, ih h.2⟩
  | release l m rest ih => exact ih h
  | act f rest ih => exact ⟨h.1, ih s h.2⟩

theorem Through.bind {f : α → Prog L σ β} {post : β → σ → Prop} {x : Prog L σ α} {s : σ}
    (h : Through good (fun a s => Through good post (f a) s) x s) :
    Through good post (x.bind f) s := by
  induction x generalizing s with
  | done a => exact h.2
  | acquire l m rest ih => exact ⟨h.1, ih h.2⟩
  | release l m rest ih => exact ih h
  | act g rest ih => exact ⟨h.1, ih s h.2⟩

variable {post : Except ε α → σ → Prop} {s : σ}

theorem through_pure {a : α} (hs : good s) (h : post (.ok a) s) :
    ThroughOp good post (pure a : Op L σ ε α) s := ⟨hs, h⟩

theorem through_throw {e : ε} (hs : good s) (h : post (.error e) s) :
    ThroughOp good post (throw e : Op L σ ε α) s := ⟨hs, h⟩

theorem through_gets {f : σ → α} (hs : good s) (h : post (.ok (f s)) s) :
    ThroughOp good post (gets f : Op L σ ε α) s := ⟨hs, hs, h⟩

theorem through_attempt {f : σ → Except ε α × σ} (hs : good s) (hf : good (f s).2)
    (h : post (f s).1 (f s).2) : ThroughOp good post (attempt f : Op L σ ε α) s := ⟨hs, hf, h⟩

theorem through_bind {x : Op L σ ε α} {f : α → Op L σ ε β} {post : Except ε β → σ → Prop}
    (h : ThroughOp good (fun r s => match r with
      | .ok a => ThroughOp good post (f a) s
      | .error e => post (.error e) s) x s) : ThroughOp good post (x >>= f) s := by
  refine Through.bind (Through.mono (fun r s hs hr => ?_) h)
  cases r with
  | ok a => exact hr
  | error e => exact ⟨hs, hr⟩

theorem through_withGuard {l : L} {m : Mode} {body : Op L σ ε α} (hs : good s)
    (h : ThroughOp good post body s) : ThroughOp good post (withGuard l m body) s :=
  ⟨hs, Through.bind (f := fun r => .release l m (.done r)) (Through.mono (fun _ _ => And.intro) h)⟩

end Rules

section Refinement

/-- The same program on more state. -/
def Prog.beside : Prog L σ α → Prog L (σ × τ) α
  | .done a => .done a
  | .acquire l m rest => .acquire l m rest.beside
  | .release l m rest => .release l m rest.beside
  | .act f rest => .act (fun st => (f st.1, st.2)) fun st => (rest st.1).beside

def beside (x : Op L σ ε α) : Op L (σ × τ) ε α := ExceptT.mk x.run.beside

theorem Through.beside {good : σ × τ → Prop} {post : α → σ × τ → Prop} {x : Prog L σ α} {s : σ}
    {g : τ} (h : Through (fun s => good (s, g)) (fun a s => post a (s, g)) x s) :
    Through good post x.beside (s, g) := by
  induction x generalizing s with
  | done a => exact h
  | acquire l m rest ih => exact ⟨h.1, ih h.2⟩
  | release l m rest ih => exact ih h
  | act f rest ih => exact ⟨h.1, ih s h.2⟩

theorem through_beside {good : σ × τ → Prop} {post : Except ε α → σ × τ → Prop} {x : Op L σ ε α}
    {s : σ} {g : τ} (h : ThroughOp (fun s => good (s, g)) (fun r s => post r (s, g)) x s) :
    ThroughOp good post (LockProgram.beside x) (s, g) :=
  Through.beside h

theorem Prog.through_beside_snd {good : τ → Prop} {g : τ} (hg : good g) (x : Prog L σ α) (s : σ) :
    Through (fun st => good st.2) (fun _ st => st.2 = g) x.beside (s, g) := by
  induction x generalizing s with
  | done a => exact ⟨hg, rfl⟩
  | acquire l m rest ih => exact ⟨hg, ih s⟩
  | release l m rest ih => exact ih s
  | act f rest ih => exact ⟨hg, ih s (f s)⟩

/-- What is only about the other state does not change. -/
theorem through_beside_snd {good : τ → Prop} {g : τ} (hg : good g) (x : Op L σ ε α) (s : σ) :
    ThroughOp (fun st => good st.2) (fun _ st => st.2 = g) (LockProgram.beside x) (s, g) :=
  Prog.through_beside_snd hg x.run s

variable [DecidableEq L]

/-- The outcome with more state. -/
def Outcome.and : Outcome L σ α → τ → Outcome L (σ × τ) α
  | .finished a held s, g => .finished a held (s, g)
  | .blocked l m s, g => .blocked l m (s, g)

/-- On its part of the state the first program does what the second one does. -/
def Refines (x' : Op L (σ × τ) ε α) (x : Op L σ ε α) : Prop :=
  ∀ held s g, ∃ g', exec x' held (s, g) = (exec x held s).and g'

theorem Prog.run_beside (x : Prog L σ α) (held : Held L) (s : σ) (g : τ) :
    (x.beside : Prog L (σ × τ) α).run held (s, g) = (x.run held s).and g := by
  induction x generalizing held s with
  | done a => rfl
  | acquire l m rest ih =>
    rw [Prog.beside, Prog.run, Prog.run]
    split_ifs
    · rfl
    · exact ih _ _
  | release l m rest ih => exact ih _ _
  | act f rest ih => exact ih s held (f s)

theorem Prog.stages_beside (x : Prog L σ α) (held : Held L) (s : σ) (g : τ) :
    (x.beside : Prog L (σ × τ) α).stages held (s, g) = (x.stages held s).map fun s => (s, g) := by
  induction x generalizing held s with
  | done a => rfl
  | acquire l m rest ih =>
    rw [Prog.beside, Prog.stages, Prog.stages]
    split_ifs
    · rfl
    · exact ih _ _
  | release l m rest ih => exact ih _ _
  | act f rest ih => exact congrArg _ (ih s held (f s))

theorem exec_beside (x : Op L σ ε α) (held : Held L) (s : σ) (g : τ) :
    exec (beside x : Op L (σ × τ) ε α) held (s, g) = (exec x held s).and g :=
  Prog.run_beside x.run held s g

theorem mem_stages_beside {x : Op L σ ε α} {held : Held L} {s : σ} {g : τ} {t : σ × τ}
    (h : t ∈ stages (beside x : Op L (σ × τ) ε α) held (s, g)) :
    t.1 ∈ stages x held s ∧ t.2 = g := by
  have hmap : t ∈ (stages x held s).map fun s => (s, g) := by
    rw [stages, ← Prog.stages_beside]
    exact h
  obtain ⟨s', hs', rfl⟩ := List.mem_map.mp hmap
  exact ⟨hs', rfl⟩

theorem refines_beside (x : Op L σ ε α) : Refines (beside x : Op L (σ × τ) ε α) x :=
  fun held s g => ⟨g, Prog.run_beside x.run held s g⟩

theorem refines_pure (a : α) :
    Refines (pure a : Op L (σ × τ) ε α) (pure a) := fun _ _ g => ⟨g, rfl⟩

theorem refines_throw (e : ε) :
    Refines (throw e : Op L (σ × τ) ε α) (throw e) := fun _ _ g => ⟨g, rfl⟩

theorem Refines.bind {x' : Op L (σ × τ) ε α} {x : Op L σ ε α} {f' : α → Op L (σ × τ) ε β}
    {f : α → Op L σ ε β} (hx : Refines x' x) (hf : ∀ a, Refines (f' a) (f a)) :
    Refines (x' >>= f') (x >>= f) := by
  intro held s g
  obtain ⟨g₁, h⟩ := hx held s g
  rw [exec_bind, exec_bind, h]
  cases exec x held s with
  | blocked l m s₁ => exact ⟨g₁, rfl⟩
  | finished r held₁ s₁ =>
    cases r with
    | error e => exact ⟨g₁, rfl⟩
    | ok a => exact hf a held₁ s₁ g₁

theorem Refines.withGuard {x' : Op L (σ × τ) ε α} {x : Op L σ ε α} (hx : Refines x' x) (l : L)
    (m : Mode) : Refines (withGuard l m x') (withGuard l m x) := by
  intro held s g
  rw [exec_withGuard, exec_withGuard]
  split_ifs
  · exact ⟨g, rfl⟩
  obtain ⟨g', h⟩ := hx ((l, m) :: held) s g
  rw [h]
  cases exec x ((l, m) :: held) s with
  | finished r held' s' => exact ⟨g', rfl⟩
  | blocked l' m' s' => exact ⟨g', rfl⟩

end Refinement

end LockProgram
