import Graphite.Interleaving
import Mathlib.Data.List.InsertIdx

/-! Operations of several threads on a state that only grows. What a thread has found stays
true while the others take their actions, so a fact about its place in the program may be
about the state. -/

namespace LockProgram
open GuardedRuns

/-- An invariant of the state, and the order in which the state grows. -/
structure Growth (σ : Type) where
  good : σ → Prop
  grows : σ → σ → Prop
  refl : ∀ s, grows s s
  trans : ∀ {a b c}, grows a b → grows b c → grows a c

/-- All steps are allowed, and threads rely on growth. -/
def Growth.discipline {σ : Type} (w : Growth σ) :
    Discipline σ Unit (fun _ _ _ g => g) (fun _ _ _ _ => True) where
  inv γ := w.good γ.1
  rely _ γ γ' := w.grows γ.1 γ'.1
  always γ γ' := w.grows γ.1 γ'.1
  watch_self _ _ _ := rfl
  rely_refl _ γ := w.refl γ.1
  rely_trans := w.trans
  always_of_rely := id

variable {L σ ε α β : Type}

/-- From this state on the operation keeps the invariant and lets the state grow, and ends
with a result and a state as told. -/
def Steady (w : Growth σ) (post : Except ε α → σ → Prop) (x : Op L σ ε α) (s : σ) : Prop :=
  ∀ i, w.discipline.SafeOp i (fun r γ => post r γ.1) x (s, ())

variable {w : Growth σ} {post : Except ε α → σ → Prop} {s : σ}

theorem Steady.mono {post' : Except ε α → σ → Prop} (himp : ∀ r s, post r s → post' r s)
    {x : Op L σ ε α} (h : Steady w post x s) : Steady w post' x s :=
  fun i => Discipline.Safe.mono (fun r γ => himp r γ.1) (h i)

/-- What grows with the state is there at the end too. -/
theorem Steady.keep {P : σ → Prop} (hP : ∀ s s', P s → w.grows s s' → P s') {x : Op L σ ε α}
    (h : Steady w post x s) (hs : P s) : Steady w (fun r s => post r s ∧ P s) x s :=
  fun i => Discipline.Safe.keep (P := fun γ => P γ.1) (fun γ γ' => hP γ.1 γ'.1) (h i) hs

theorem steady_pure {a : α} (h : post (.ok a) s) : Steady w post (pure a : Op L σ ε α) s :=
  fun _ => h

theorem steady_throw {e : ε} (h : post (.error e) s) : Steady w post (throw e : Op L σ ε α) s :=
  fun _ => h

theorem steady_gets {f : σ → α} (h : ∀ s', w.grows s s' → w.good s' → post (.ok (f s')) s') :
    Steady w post (gets f : Op L σ ε α) s :=
  fun _ => Discipline.safe_gets fun γ hgrows hgood => h γ.1 hgrows hgood

theorem steady_attempt {f : σ → Except ε α × σ}
    (h : ∀ s', w.grows s s' → w.good s' →
      w.good (f s').2 ∧ w.grows s' (f s').2 ∧ post (f s').1 (f s').2) :
    Steady w post (attempt f : Op L σ ε α) s := by
  intro i
  refine Discipline.safe_attempt fun γ hgrows hgood _ _ => ?_
  obtain ⟨hgood', hgrows', hpost⟩ := h γ.1 hgrows hgood
  exact ⟨hgood', hgrows', fun _ _ _ => hgrows', hpost⟩

theorem steady_bind {x : Op L σ ε α} {f : α → Op L σ ε β} {post : Except ε β → σ → Prop}
    (h : Steady w (fun r s => match r with
      | .ok a => Steady w post (f a) s
      | .error e => post (.error e) s) x s) : Steady w post (x >>= f) s := by
  intro i
  refine Discipline.safe_bind (Discipline.Safe.mono (fun r γ hr => ?_) (h i))
  cases r with
  | ok a => exact hr i
  | error e => exact hr

theorem Steady.grown {x : Op L σ ε α} (h : Steady w post x s) :
    Steady w (fun r s' => post r s' ∧ w.grows s s') x s :=
  h.keep (fun _ _ => w.trans) (w.refl s)

/-- One operation after another; the state has only grown in between. -/
theorem Steady.bind {middle : Except ε α → σ → Prop} {x : Op L σ ε α} {f : α → Op L σ ε β}
    {post : Except ε β → σ → Prop} (hx : Steady w middle x s)
    (hf : ∀ a s', middle (.ok a) s' → w.grows s s' → Steady w post (f a) s')
    (he : ∀ e s', middle (.error e) s' → post (.error e) s') : Steady w post (x >>= f) s := by
  refine steady_bind (hx.grown.mono fun r s' h => ?_)
  cases r with
  | ok a => exact hf a s' h.1 h.2
  | error e => exact he e s' h.1

theorem steady_withGuard {l : L} {m : Mode} {body : Op L σ ε α} (h : Steady w post body s) :
    Steady w post (withGuard l m body) s :=
  fun i => Discipline.safe_withGuard (h i)

/-- Along every schedule the invariant holds, and what has ended has a result as told. -/
theorem Steady.interleaved [DecidableEq L] {posts : Nat → Except ε α → σ → Prop}
    (hposts : ∀ i r s s', posts i r s → w.grows s s' → posts i r s') {ops : List (Op L σ ε α)}
    (hs : w.good s) (hops : ∀ i op, ops[i]? = some op → Steady w (posts i) op s)
    (schedule : List Nat) :
    Always (Config.step fun _ _ _ g => g)
      (fun c => w.good c.state ∧ ∀ i r, c.resultAt i = some r → posts i r c.state)
      (Config.start ops s ()) schedule := by
  have hstart : (Config.start ops s ()).Good w.discipline fun i r γ => posts i r γ.1 :=
    Config.good_start hs fun i op hop => hops i op hop i
  have hallowed : Guarded (Config.step fun _ _ _ g => g)
      (Config.Allows (fun _ _ _ g => g) fun _ _ _ _ => True) (Config.start ops s ()) schedule := by
    generalize Config.start ops s () = c
    induction schedule generalizing c with
    | nil => trivial
    | cons i schedule ih => exact ⟨fun _ _ _ _ => trivial, ih _⟩
  have hgood := Config.always_good (fun i r γ γ' => hposts i r γ.1 γ'.1) hstart hallowed
  exact fun front hfront => ⟨(hgood front hfront).inv, fun i r hr => (hgood front hfront).post hr⟩

section Unbegun

variable {G : Type} {c c' : Config L σ G α} {begun : Nat → Prop}

/-- Two configurations that differ only in the programs of threads that have not begun. -/
structure Config.SameBegun (begun : Nat → Prop) (c c' : Config L σ G α) : Prop where
  state : c.state = c'.state
  ghost : c.ghost = c'.ghost
  threads : ∀ k, begun k → c.threads[k]? = c'.threads[k]?
  held : c.threads.map Thread.held = c'.threads.map Thread.held

theorem Config.SameBegun.others (h : c.SameBegun begun c') (i : Nat) : c.others i = c'.others i := by
  have hheld := congrArg (fun held => (held.eraseIdx i).flatten) h.held
  simpa only [Config.others, List.flatMap_def, List.eraseIdx_map] using hheld

theorem Config.SameBegun.set (h : c.SameBegun begun c') (i : Nat) (t : Thread L σ α) (s : σ) (g : G) :
    Config.SameBegun begun ⟨c.threads.set i t, s, g⟩ ⟨c'.threads.set i t, s, g⟩ := by
  have hlength : c.threads.length = c'.threads.length := by
    simpa using congrArg List.length h.held
  refine ⟨rfl, rfl, fun k hk => ?_, ?_⟩
  · rw [List.getElem?_set, List.getElem?_set, hlength, h.threads k hk]
  · rw [List.map_set, List.map_set, h.held]

theorem Config.SameBegun.step [DecidableEq L] (h : c.SameBegun begun c')
    (watch : Nat → σ → σ → G → G) {i : Nat} (hi : begun i) :
    (c.step watch i).SameBegun begun (c'.step watch i) := by
  unfold Config.step
  rw [h.threads i hi, h.others i, h.state, h.ghost]
  split
  · exact h
  · exact h
  · split_ifs
    · exact h
    · exact h.set i _ _ _
  · exact h.set i _ _ _
  · exact h.set i _ _ _

/-- A thread that never takes a turn has no influence. -/
theorem Config.SameBegun.run [DecidableEq L] (h : c.SameBegun begun c')
    (watch : Nat → σ → σ → G → G) {schedule : List Nat} (hall : ∀ i ∈ schedule, begun i) :
    (GuardedRuns.run (Config.step watch) c schedule).SameBegun begun
      (GuardedRuns.run (Config.step watch) c' schedule) := by
  induction schedule generalizing c c' with
  | nil => exact h
  | cons i schedule ih =>
    exact ih (h.step watch (hall i List.mem_cons_self)) fun k hk => hall k (List.mem_cons_of_mem i hk)

theorem Config.SameBegun.resultAt (h : c.SameBegun begun c') {i : Nat} (hi : begun i) :
    c.resultAt i = c'.resultAt i := by
  rw [Config.resultAt, Config.resultAt, h.threads i hi]

theorem Config.sameBegun_start {ops ops' : List (Op L σ ε α)} (hlength : ops.length = ops'.length)
    (hops : ∀ k, begun k → ops[k]? = ops'[k]?) (s : σ) (g : G) :
    (Config.start ops s g).SameBegun begun (Config.start ops' s g) := by
  refine ⟨rfl, rfl, fun k hk => ?_, ?_⟩
  · rw [Config.start, Config.start, List.getElem?_map, List.getElem?_map, hops k hk]
  · rw [Config.start, Config.start, List.map_map, List.map_map]
    exact List.ext_getElem (by simpa using hlength) fun n _ _ => by simp

end Unbegun

end LockProgram
