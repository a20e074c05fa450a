import Graphite.GuardedRuns
import Graphite.LockProgram

/-! Programs of several threads over one state. A schedule says which thread takes its next
action; a thread that waits for a lock, or has come to its end, stays where it is. A ghost
state watches the actions. The proof rules are those of rely and guarantee: a thread is safe
if each of its actions keeps the invariant and what the other threads rely on, whatever
these have done since its last action. -/

namespace LockProgram
open GuardedRuns

/-- The result of a program that has come to its end. -/
def Prog.result? {L σ α : Type} : Prog L σ α → Option α
  | .done a => some a
  | .acquire _ _ _ => none
  | .release _ _ _ => none
  | .act _ _ => none

theorem Prog.eq_done {L σ α : Type} {x : Prog L σ α} {a : α} (h : x.result? = some a) :
    x = .done a := by
  cases x with
  | done b => exact congrArg done (Option.some.inj h)
  | acquire l m rest => cases h
  | release l m rest => cases h
  | act f rest => cases h

structure Thread (L σ α : Type) where
  held : Held L
  prog : Prog L σ α

structure Config (L σ G α : Type) where
  threads : List (Thread L σ α)
  state : σ
  ghost : G

/-- Operations about to start. -/
def Config.start {L σ G ε α : Type} (ops : List (Op L σ ε α)) (s : σ) (g : G) :
    Config L σ G (Except ε α) :=
  ⟨ops.map fun op => ⟨[], op.run⟩, s, g⟩

namespace Config

variable {L σ G α : Type} (watch : Nat → σ → σ → G → G)
  (allowed : (Nat → Prop) → Nat → σ × G → σ × G → Prop)

/-- The guards of the other threads. -/
def others (c : Config L σ G α) (i : Nat) : Held L := (c.threads.eraseIdx i).flatMap Thread.held

/-- The result of the thread, once it has come to its end. -/
def resultAt (c : Config L σ G α) (i : Nat) : Option α :=
  (c.threads[i]?).bind fun t => t.prog.result?

/-- The thread has started and not come to its end. -/
def Running (c : Config L σ G α) (i : Nat) : Prop :=
  ∃ t, c.threads[i]? = some t ∧ t.prog.result? = none

/-- One action of a thread. -/
def step [DecidableEq L] (c : Config L σ G α) (i : Nat) : Config L σ G α :=
  match c.threads[i]? with
  | none => c
  | some ⟨_, .done _⟩ => c
  | some ⟨held, .acquire l m rest⟩ =>
    if Conflicts (held ++ c.others i) l m then c
    else { c with threads := c.threads.set i ⟨(l, m) :: held, rest⟩ }
  | some ⟨held, .release l m rest⟩ =>
    { c with threads := c.threads.set i ⟨held.erase (l, m), rest⟩ }
  | some ⟨held, .act f rest⟩ =>
    ⟨c.threads.set i ⟨held, rest c.state⟩, f c.state, watch i c.state (f c.state) c.ghost⟩

/-- A change of the state by the thread is one of those allowed. -/
def Allows (c : Config L σ G α) (i : Nat) : Prop :=
  ∀ held f rest, c.threads[i]? = some ⟨held, .act f rest⟩ →
    allowed c.Running i (c.state, c.ghost)
      (f c.state, watch i c.state (f c.state) c.ghost)

end Config

/-- What a proof about interleaved threads rests on: an invariant, what a running thread
relies on in the actions of the others, and what holds of all actions. -/
structure Discipline (σ G : Type) (watch : Nat → σ → σ → G → G)
    (allowed : (Nat → Prop) → Nat → σ × G → σ × G → Prop) where
  inv : σ × G → Prop
  rely : Nat → σ × G → σ × G → Prop
  always : σ × G → σ × G → Prop
  watch_self : ∀ i s g, watch i s s g = g
  rely_refl : ∀ i γ, rely i γ γ
  rely_trans : ∀ {i γ₁ γ₂ γ₃}, rely i γ₁ γ₂ → rely i γ₂ γ₃ → rely i γ₁ γ₃
  always_of_rely : ∀ {i γ₁ γ₂}, rely i γ₁ γ₂ → always γ₁ γ₂

namespace Discipline

variable {L σ G ε α β : Type} {watch : Nat → σ → σ → G → G}
  {allowed : (Nat → Prop) → Nat → σ × G → σ × G → Prop} (d : Discipline σ G watch allowed)
  (i : Nat)

/-- The thread may change the state to `s`, and is then in a good one. -/
def Moves (γ : σ × G) (s : σ) (good : σ × G → Prop) : Prop :=
  ∀ running, allowed running i γ (s, watch i γ.1 s γ.2) →
    d.inv (s, watch i γ.1 s γ.2) ∧ d.always γ (s, watch i γ.1 s γ.2) ∧
      (∀ k, k ≠ i → running k → d.rely k γ (s, watch i γ.1 s γ.2)) ∧
      good (s, watch i γ.1 s γ.2)

/-- Every action of the program is fine, and so is its result. -/
def Safe (post : α → σ × G → Prop) : Prog L σ α → σ × G → Prop
  | .done a, γ => post a γ
  | .acquire _ _ rest, γ => Safe post rest γ
  | .release _ _ rest, γ => Safe post rest γ
  | .act f rest, γ => ∀ γ', d.rely i γ γ' → d.inv γ' →
    d.Moves i γ' (f γ'.1) (Safe post (rest γ'.1))

/-- A safe operation. -/
def SafeOp (post : Except ε α → σ × G → Prop) (x : Op L σ ε α) (γ : σ × G) : Prop :=
  d.Safe i post x.run γ

variable {d i} {post : α → σ × G → Prop}

theorem Moves.mono {γ : σ × G} {s : σ} {good good' : σ × G → Prop} (h : d.Moves i γ s good)
    (himp : good (s, watch i γ.1 s γ.2) → good' (s, watch i γ.1 s γ.2)) : d.Moves i γ s good' := by
  intro running hallowed
  obtain ⟨hinv, halways, hrely, hgood⟩ := h running hallowed
  exact ⟨hinv, halways, hrely, himp hgood⟩

/-- Looking at the state is always fine. -/
theorem moves_self {γ : σ × G} (hinv : d.inv γ) {good : σ × G → Prop} (hgood : good γ) :
    d.Moves i γ γ.1 good := by
  intro running _
  rw [d.watch_self]
  exact ⟨hinv, d.always_of_rely (d.rely_refl i γ), fun k _ _ => d.rely_refl k γ, hgood⟩

theorem Safe.mono {post' : α → σ × G → Prop} (himp : ∀ a γ, post a γ → post' a γ)
    {x : Prog L σ α} {γ : σ × G} (h : d.Safe i post x γ) : d.Safe i post' x γ := by
  induction x generalizing γ with
  | done a => exact himp a γ h
  | acquire l m rest ih => exact ih h
  | release l m rest ih => exact ih h
  | act f rest ih => exact fun γ' hrely hinv => (h γ' hrely hinv).mono (ih γ'.1)

/-- A safe program stays safe while the others take their actions. -/
theorem Safe.stable (hpost : ∀ a γ γ', post a γ → d.always γ γ' → post a γ') {x : Prog L σ α}
    {γ γ' : σ × G} (h : d.Safe i post x γ) (hrely : d.rely i γ γ') : d.Safe i post x γ' := by
  induction x with
  | done a => exact hpost a γ γ' h (d.always_of_rely hrely)
  | acquire l m rest ih => exact ih h
  | release l m rest ih => exact ih h
  | act f rest ih => exact fun γ'' hrely' hinv => h γ'' (d.rely_trans hrely hrely') hinv

theorem Safe.bind {f : α → Prog L σ β} {post : β → σ × G → Prop} {x : Prog L σ α} {γ : σ × G}
    (h : d.Safe i (fun a γ => d.Safe i post (f a) γ) x γ) : d.Safe i post (x.bind f) γ := by
  induction x generalizing γ with
  | done a => exact h
  | acquire l m rest ih => exact ih h
  | release l m rest ih => exact ih h
  | act g rest ih => exact fun γ' hrely hinv => (h γ' hrely hinv).mono (ih γ'.1)

/-- What all actions keep is there at the end too. -/
theorem Safe.keep {P : σ × G → Prop} (hP : ∀ γ γ', P γ → d.always γ γ' → P γ') {x : Prog L σ α}
    {γ : σ × G} (h : d.Safe i post x γ) (hγ : P γ) :
    d.Safe i (fun a γ => post a γ ∧ P γ) x γ := by
  induction x generalizing γ with
  | done a => exact ⟨h, hγ⟩
  | acquire l m rest ih => exact ih h hγ
  | release l m rest ih => exact ih h hγ
  | act f rest ih =>
    intro γ' hrely hinv running hallowed
    obtain ⟨hinv', halways, hothers, hsafe⟩ := h γ' hrely hinv running hallowed
    have hγ' := hP γ γ' hγ (d.always_of_rely hrely)
    exact ⟨hinv', halways, hothers, ih γ'.1 hsafe (hP _ _ hγ' halways)⟩

section Operations

variable {post : Except ε α → σ × G → Prop} {γ : σ × G}

theorem safe_pure {a : α} (h : post (.ok a) γ) : d.SafeOp i post (pure a : Op L σ ε α) γ := h

theorem safe_throw {e : ε} (h : post (.error e) γ) : d.SafeOp i post (throw e : Op L σ ε α) γ := h

theorem safe_gets {f : σ → α} (h : ∀ γ', d.rely i γ γ' → d.inv γ' → post (.ok (f γ'.1)) γ') :
    d.SafeOp i post (gets f : Op L σ ε α) γ :=
  fun γ' hrely hinv => moves_self hinv (h γ' hrely hinv)

theorem safe_attempt {f : σ → Except ε α × σ}
    (h : ∀ γ', d.rely i γ γ' → d.inv γ' → d.Moves i γ' (f γ'.1).2 (post (f γ'.1).1)) :
    d.SafeOp i post (attempt f : Op L σ ε α) γ := h

theorem safe_bind {x : Op L σ ε α} {f : α → Op L σ ε β} {post : Except ε β → σ × G → Prop}
    (h : d.SafeOp i (fun r γ => match r with
      | .ok a => d.SafeOp i post (f a) γ
      | .error e => post (.error e) γ) x γ) : d.SafeOp i post (x >>= f) γ := by
  refine Safe.bind (Safe.mono (fun r γ hr => ?_) h)
  cases r with
  | ok a => exact hr
  | error e => exact hr

theorem safe_withGuard {l : L} {m : Mode} {body : Op L σ ε α} (h : d.SafeOp i post body γ) :
    d.SafeOp i post (withGuard l m body) γ :=
  Safe.bind (f := fun r => .release l m (.done r)) h

end Operations

end Discipline

namespace Config

variable {L σ G α : Type} [DecidableEq L] {watch : Nat → σ → σ → G → G}
  {allowed : (Nat → Prop) → Nat → σ × G → σ × G → Prop} {d : Discipline σ G watch allowed}

/-- The invariant holds and every thread is safe. -/
structure Good (d : Discipline σ G watch allowed) (posts : Nat → α → σ × G → Prop)
    (c : Config L σ G α) : Prop where
  inv : d.inv (c.state, c.ghost)
  safe : ∀ i t, c.threads[i]? = some t → d.Safe i (posts i) t.prog (c.state, c.ghost)

theorem getElem?_set_eq_some {xs : List α} {i k : Nat} {a x : α} (h : (xs.set i a)[k]? = some x) :
    (k = i ∧ x = a) ∨ (k ≠ i ∧ xs[k]? = some x) := by
  rw [List.getElem?_set] at h
  split_ifs at h with hik
  · exact Or.inl ⟨hik.symm, (Option.some.inj h).symm⟩
  · exact Or.inr ⟨fun hki => hik hki.symm, h⟩

theorem good_step {posts : Nat → α → σ × G → Prop}
    (hposts : ∀ i a γ γ', posts i a γ → d.always γ γ' → posts i a γ') {c : Config L σ G α} {i : Nat}
    (h : c.Good d posts) (hallowed : c.Allows watch allowed i) :
    (c.step watch i).Good d posts := by
  have hset {prog : Prog L σ α} {held : Held L} (hsafe : d.Safe i (posts i) prog (c.state, c.ghost)) :
      Good d posts { c with threads := c.threads.set i ⟨held, prog⟩ } := by
    refine ⟨h.inv, fun k t ht => ?_⟩
    rcases getElem?_set_eq_some ht with ⟨rfl, rfl⟩ | ⟨-, ht⟩
    · exact hsafe
    · exact h.safe k t ht
  unfold step
  split
  · exact h
  · exact h
  · rename_i held l m rest ht
    split_ifs
    · exact h
    · exact hset (h.safe i _ ht)
  · rename_i held l m rest ht
    exact hset (h.safe i _ ht)
  · rename_i held f rest ht
    obtain ⟨hinv, halways, hrely, hsafe⟩ := h.safe i _ ht _ (d.rely_refl i _) h.inv c.Running
      (hallowed held f rest ht)
    refine ⟨hinv, fun k t hk => ?_⟩
    rcases getElem?_set_eq_some hk with ⟨rfl, rfl⟩ | ⟨hki, hk⟩
    · exact hsafe
    · cases hdone : t.prog.result? with
      | none => exact (h.safe k t hk).stable (hposts k) (hrely k hki ⟨t, hk, hdone⟩)
      | some a =>
        have hsafe' := h.safe k t hk
        rw [Prog.eq_done hdone] at hsafe' ⊢
        exact hposts k a _ _ hsafe' halways

/-- Along a schedule of allowed actions the invariant holds and every thread is safe. -/
theorem always_good {posts : Nat → α → σ × G → Prop}
    (hposts : ∀ i a γ γ', posts i a γ → d.always γ γ' → posts i a γ') {c : Config L σ G α}
    (h : c.Good d posts) {schedule : List Nat}
    (hallowed : Guarded (step watch) (Allows watch allowed) c schedule) :
    Always (step watch) (Good d posts) c schedule :=
  always_of_guarded (Good d posts) (fun _ => id) (fun _ _ => good_step hposts) h hallowed

omit [DecidableEq L] in
/-- A thread that has come to its end has a good result. -/
theorem Good.post {posts : Nat → α → σ × G → Prop} {c : Config L σ G α} (h : c.Good d posts)
    {i : Nat} {a : α} (ha : c.resultAt i = some a) : posts i a (c.state, c.ghost) := by
  obtain ⟨t, ht, hdone⟩ := Option.bind_eq_some_iff.mp ha
  have hsafe := h.safe i t ht
  rwa [Prog.eq_done hdone] at hsafe

omit [DecidableEq L] in
theorem good_start {ε : Type} {posts : Nat → Except ε α → σ × G → Prop} {ops : List (Op L σ ε α)}
    {s : σ} {g : G} (hinv : d.inv (s, g))
    (hsafe : ∀ i op, ops[i]? = some op → d.SafeOp i (posts i) op (s, g)) :
    (start ops s g).Good d posts := by
  refine ⟨hinv, fun i t ht => ?_⟩
  rw [start, List.getElem?_map, Option.map_eq_some_iff] at ht
  obtain ⟨op, hop, rfl⟩ := ht
  exact hsafe i op hop

/-- A thread that is scheduled alone, while the others hold no guard, gets where it gets
when it runs alone. -/
theorem run_alone (watch : Nat → σ → σ → G → G) {prog : Prog L σ α} {held held' : Held L}
    {a : α} {s s' : σ} {threads : List (Thread L σ α)} {i : Nat} (hlt : i < threads.length)
    (hothers : (threads.eraseIdx i).flatMap Thread.held = [])
    (hrun : prog.run held s = .finished a held' s') (g : G) :
    ∃ n g', run (step watch) ⟨threads.set i ⟨held, prog⟩, s, g⟩ (List.replicate n i) =
      ⟨threads.set i ⟨held', .done a⟩, s', g'⟩ := by
  have hget (x : Thread L σ α) : (threads.set i x)[i]? = some x := List.getElem?_set_self hlt
  have hnone (x : Thread L σ α) (s : σ) (g : G) :
      Config.others ⟨threads.set i x, s, g⟩ i = [] := by
    rw [others, List.eraseIdx_set_eq, hothers]
  induction prog generalizing held s g with
  | done b =>
    cases hrun
    exact ⟨0, g, rfl⟩
  | acquire l m rest ih =>
    rw [Prog.run] at hrun
    split_ifs at hrun with hconflict
    obtain ⟨n, g', hn⟩ := ih hrun g
    refine ⟨n + 1, g', ?_⟩
    have hfirst : step watch ⟨threads.set i ⟨held, .acquire l m rest⟩, s, g⟩ i =
        ⟨threads.set i ⟨(l, m) :: held, rest⟩, s, g⟩ := by
      unfold step
      rw [hget]
      simp only [hnone, List.append_nil, if_neg hconflict, List.set_set]
    rw [List.replicate_succ, GuardedRuns.run, List.foldl_cons, hfirst]
    exact hn
  | release l m rest ih =>
    obtain ⟨n, g', hn⟩ := ih hrun g
    refine ⟨n + 1, g', ?_⟩
    have hfirst : step watch ⟨threads.set i ⟨held, .release l m rest⟩, s, g⟩ i =
        ⟨threads.set i ⟨held.erase (l, m), rest⟩, s, g⟩ := by
      unfold step
      rw [hget]
      simp only [List.set_set]
    rw [List.replicate_succ, GuardedRuns.run, List.foldl_cons, hfirst]
    exact hn
  | act f rest ih =>
    obtain ⟨n, g', hn⟩ := ih s hrun (watch i s (f s) g)
    refine ⟨n + 1, g', ?_⟩
    have hfirst : step watch ⟨threads.set i ⟨held, .act f rest⟩, s, g⟩ i =
        ⟨threads.set i ⟨held, rest s⟩, f s, watch i s (f s) g⟩ := by
      unfold step
      rw [hget]
      simp only [List.set_set]
    rw [List.replicate_succ, GuardedRuns.run, List.foldl_cons, hfirst]
    exact hn

end Config

section Sound

variable {L σ ε α β : Type}

/-- All steps are allowed, and threads rely on the invariant only. -/
def Discipline.ofInv (good : σ → Prop) :
    Discipline σ Unit (fun _ _ _ g => g) (fun _ _ _ _ => True) where
  inv γ := good γ.1
  rely _ _ _ := True
  always _ _ := True
  watch_self _ _ _ := rfl
  rely_refl _ _ := trivial
  rely_trans _ _ := trivial
  always_of_rely _ := trivial

/-- The operation keeps the invariant, and its result has the property whatever good states
it meets. -/
def Sound (good : σ → Prop) (post : Except ε α → Prop) (x : Op L σ ε α) : Prop :=
  ∀ i γ, (Discipline.ofInv good).SafeOp i (fun r _ => post r) x γ

variable {good : σ → Prop} {post : Except ε α → Prop}

theorem Sound.mono {post' : Except ε α → Prop} (himp : ∀ r, post r → post' r) {x : Op L σ ε α}
    (h : Sound good post x) : Sound good post' x :=
  fun i γ => Discipline.Safe.mono (fun r _ => himp r) (h i γ)

theorem sound_pure {a : α} (h : post (.ok a)) : Sound good post (pure a : Op L σ ε α) :=
  fun _ _ => h

theorem sound_throw {e : ε} (h : post (.error e)) : Sound good post (throw e : Op L σ ε α) :=
  fun _ _ => h

theorem sound_gets {f : σ → α} (h : ∀ s, good s → post (.ok (f s))) :
    Sound good post (gets f : Op L σ ε α) :=
  fun _ _ γ _ hgood => Discipline.moves_self hgood (h γ.1 hgood)

theorem sound_attempt {f : σ → Except ε α × σ} (h : ∀ s, good s → good (f s).2 ∧ post (f s).1) :
    Sound good post (attempt f : Op L σ ε α) :=
  fun _ _ γ _ hgood _ _ => ⟨(h γ.1 hgood).1, trivial, fun _ _ _ => trivial, (h γ.1 hgood).2⟩

theorem sound_bind {x : Op L σ ε α} {f : α → Op L σ ε β} {post : Except ε β → Prop}
    (h : Sound good (fun r => match r with
      | .ok a => Sound good post (f a)
      | .error e => post (.error e)) x) : Sound good post (x >>= f) := by
  intro i γ
  refine Discipline.safe_bind (Discipline.Safe.mono (fun r γ hr => ?_) (h i γ))
  cases r with
  | ok a => exact hr i γ
  | error e => exact hr

theorem sound_withGuard {l : L} {m : Mode} {body : Op L σ ε α} (h : Sound good post body) :
    Sound good post (withGuard l m body) :=
  fun i γ => Discipline.safe_withGuard (h i γ)

/-- What an interleaving of sound operations keeps. -/
theorem Sound.interleaved [DecidableEq L] {posts : Nat → Except ε α → Prop}
    {ops : List (Op L σ ε α)} (hops : ∀ i op, ops[i]? = some op → Sound good (posts i) op) {s : σ}
    (hs : good s) (schedule : List Nat) :
    (run (Config.step fun _ _ _ g => g) (Config.start ops s ()) schedule).Good
      (Discipline.ofInv good) fun i r _ => posts i r := by
  have hstart : (Config.start ops s ()).Good (Discipline.ofInv good) fun i r _ => posts i r :=
    Config.good_start hs fun i op hop => hops i op hop i _
  refine Config.always_good (fun _ _ _ _ h _ => h) hstart ?_ schedule List.prefix_rfl
  generalize Config.start ops s () = c
  induction schedule generalizing c with
  | nil => trivial
  | cons i schedule ih => exact ⟨fun _ _ _ _ => trivial, ih _⟩

theorem Discipline.Safe.run [DecidableEq L] {post : α → Prop} {x : Prog L σ α} {i : Nat} {s s' : σ}
    {held held' : Held L} {a : α} (h : (ofInv good).Safe i (fun a _ => post a) x (s, ()))
    (hs : good s) (hrun : x.run held s = .finished a held' s') : post a ∧ good s' := by
  induction x generalizing held s with
  | done b =>
    cases hrun
    exact ⟨h, hs⟩
  | acquire l m rest ih =>
    rw [Prog.run] at hrun
    split_ifs at hrun
    exact ih h hs hrun
  | release l m rest ih => exact ih h hs hrun
  | act f rest ih =>
    obtain ⟨hgood, -, -, hrest⟩ := h (s, ()) trivial hs (fun _ => True) trivial
    exact ih s hrest hgood hrun

/-- A sound operation that runs alone. -/
theorem Sound.exec [DecidableEq L] {x : Op L σ ε α} (h : Sound good post x) {held : Held L}
    (hruns : RunsUnder held x) {s : σ} (hs : good s) :
    ∃ r s', LockProgram.exec x held s = .finished r held s' ∧ post r ∧ good s' := by
  obtain ⟨r, s', hexec⟩ := hruns s
  exact ⟨r, s', hexec, Discipline.Safe.run (h 0 (s, ())) hs hexec⟩

end Sound

end LockProgram
