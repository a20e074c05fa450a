import Mathlib.Data.Set.Subsingleton
import Graphite.Interleaving

/-! What the threads of an interleaving wait for. Which locks a program asks for, and under
which guards, is found along the program, from an invariant of its actions and from what is
given of all states; the interleaving keeps it for every thread. -/

namespace LockProgram
open GuardedRuns

/-- An invariant of the state, what else is given of it, and the requests that are made. -/
structure Requests (L σ : Type) where
  inv : σ → Prop
  given : σ → Prop
  asks : Held L → L → Mode → Prop

namespace Requests

variable {L σ ε α β : Type} [DecidableEq L] (d : Requests L σ)

/-- The program makes these requests only, and keeps the invariant. -/
def Follows (post : Held L → α → Prop) : Held L → Prog L σ α → Prop
  | held, .done a => post held a
  | held, .acquire l m rest => d.asks held l m ∧ Follows post ((l, m) :: held) rest
  | held, .release l m rest => Follows post (held.erase (l, m)) rest
  | held, .act f rest => ∀ s, d.inv s → d.given s → d.inv (f s) ∧ Follows post held (rest s)

/-- An operation that holds the same guards at its end. -/
def FollowsOp (post : Except ε α → Prop) (held : Held L) (x : Op L σ ε α) : Prop :=
  d.Follows (fun held' r => held' = held ∧ post r) held x.run

variable {d}

theorem Follows.mono {post post' : Held L → α → Prop} (himp : ∀ held a, post held a → post' held a)
    {x : Prog L σ α} {held : Held L} (h : d.Follows post held x) : d.Follows post' held x := by
  induction x generalizing held with
  | done a => exact himp held a h
  | acquire l m rest ih => exact ⟨h.1, ih h.2⟩
  | release l m rest ih => exact ih h
  | act f rest ih => exact fun s hinv hgiven => ⟨(h s hinv hgiven).1, ih s (h s hinv hgiven).2⟩

theorem Follows.bind {post : Held L → β → Prop} {x : Prog L σ α} {f : α → Prog L σ β}
    {held : Held L} (h : d.Follows (fun held a => d.Follows post held (f a)) held x) :
    d.Follows post held (x.bind f) := by
  induction x generalizing held with
  | done a => exact h
  | acquire l m rest ih => exact ⟨h.1, ih h.2⟩
  | release l m rest ih => exact ih h
  | act g rest ih => exact fun s hinv hgiven => ⟨(h s hinv hgiven).1, ih s (h s hinv hgiven).2⟩

variable {post : Except ε α → Prop} {held : Held L}

theorem FollowsOp.mono {post' : Except ε α → Prop} (himp : ∀ r, post r → post' r)
    {x : Op L σ ε α} (h : d.FollowsOp post held x) : d.FollowsOp post' held x :=
  Follows.mono (fun _ r => And.imp_right (himp r)) h

theorem follows_pure {a : α} (h : post (.ok a)) : d.FollowsOp post held (pure a : Op L σ ε α) :=
  ⟨rfl, h⟩

theorem follows_throw {e : ε} (h : post (.error e)) :
    d.FollowsOp post held (throw e : Op L σ ε α) := ⟨rfl, h⟩

theorem follows_gets {f : σ → α} (h : ∀ s, d.inv s → d.given s → post (.ok (f s))) :
    d.FollowsOp post held (gets f : Op L σ ε α) :=
  fun s hinv hgiven => ⟨hinv, rfl, h s hinv hgiven⟩

theorem follows_attempt {f : σ → Except ε α × σ}
    (h : ∀ s, d.inv s → d.given s → d.inv (f s).2 ∧ post (f s).1) :
    d.FollowsOp post held (attempt f : Op L σ ε α) :=
  fun s hinv hgiven => ⟨(h s hinv hgiven).1, rfl, (h s hinv hgiven).2⟩

theorem follows_bind {x : Op L σ ε α} {f : α → Op L σ ε β} {post : Except ε β → Prop}
    (h : d.FollowsOp (fun r => match r with
      | .ok a => d.FollowsOp post held (f a)
      | .error e => post (.error e)) held x) : d.FollowsOp post held (x >>= f) := by
  refine Follows.bind (Follows.mono (fun held' r hr => ?_) h)
  obtain ⟨rfl, hr⟩ := hr
  cases r with
  | ok a => exact hr
  | error e => exact ⟨rfl, hr⟩

/-- A first part whose result does not matter. -/
theorem follows_then {x : Op L σ ε α} {f : α → Op L σ ε β} {post : Except ε β → Prop}
    (hx : d.FollowsOp (fun _ => True) held x) (herror : ∀ e, post (.error e))
    (hf : ∀ a, d.FollowsOp post held (f a)) : d.FollowsOp post held (x >>= f) := by
  refine follows_bind (FollowsOp.mono (fun r _ => ?_) hx)
  cases r with
  | ok a => exact hf a
  | error e => exact herror e

theorem follows_withGuard {l : L} {m : Mode} {body : Op L σ ε α} (hasks : d.asks held l m)
    (h : d.FollowsOp post ((l, m) :: held) body) :
    d.FollowsOp post held (withGuard l m body) := by
  refine ⟨hasks, Follows.bind (Follows.mono (fun held' r hr => ?_) h)⟩
  obtain ⟨rfl, hr⟩ := hr
  exact ⟨List.erase_cons_head _ _, hr⟩

end Requests

/-- A lock that is asked for, after the guards held meanwhile. -/
abbrev Request (L : Type) := Held L × L × Mode

def Thread.request? {L σ α : Type} : Thread L σ α → Option (Request L)
  | ⟨held, .acquire l m _⟩ => some (held, l, m)
  | ⟨_, .done _⟩ => none
  | ⟨_, .release _ _ _⟩ => none
  | ⟨_, .act _ _⟩ => none

namespace Config

variable {L σ G α : Type}

/-- What the thread asks for. -/
def request? (c : Config L σ G α) (i : Nat) : Option (Request L) :=
  (c.threads[i]?).bind Thread.request?

/-- The thread asks for a lock that the other one holds in a conflicting mode. -/
def WaitsFor (c : Config L σ G α) (i k : Nat) : Prop :=
  ∃ r, c.request? i = some r ∧ ∃ t, c.threads[k]? = some t ∧ Conflicts t.held r.2.1 r.2.2

/-- Some threads, at least two, each wait for another one of them. -/
def CircularWait (c : Config L σ G α) : Prop :=
  ∃ threads : Set Nat, threads.Nontrivial ∧ ∀ i ∈ threads, ∃ k ∈ threads, k ≠ i ∧ c.WaitsFor i k

theorem request?_eq_some {c : Config L σ G α} {i : Nat} {r : Request L}
    (h : c.request? i = some r) : ∃ rest, c.threads[i]? = some ⟨r.1, .acquire r.2.1 r.2.2 rest⟩ := by
  obtain ⟨⟨held, prog⟩, ht, hr⟩ := Option.bind_eq_some_iff.mp h
  cases prog with
  | done a => cases hr
  | acquire l m rest =>
    cases hr
    exact ⟨rest, ht⟩
  | release l m rest => cases hr
  | act f rest => cases hr

/-- A thread that waits for one with a request of its own. -/
theorem WaitsFor.conflicts {c : Config L σ G α} {i k : Nat} (h : c.WaitsFor i k) {r r' : Request L}
    (hi : c.request? i = some r) (hk : c.request? k = some r') :
    Conflicts r'.1 r.2.1 r.2.2 := by
  obtain ⟨r, hr, t, ht, hconflicts⟩ := h
  obtain ⟨rest, hrest⟩ := request?_eq_some hk
  cases hi.symm.trans hr
  cases ht.symm.trans hrest
  exact hconflicts

theorem waitsFor_of_conflicts {c : Config L σ G α} {i k : Nat} {r r' : Request L}
    (hi : c.request? i = some r) (hk : c.request? k = some r')
    (h : Conflicts r'.1 r.2.1 r.2.2) : c.WaitsFor i k := by
  obtain ⟨rest, hrest⟩ := request?_eq_some hk
  exact ⟨r, hi, _, hrest, h⟩

theorem circularWait_of_pair {c : Config L σ G α} {i k : Nat} (hne : i ≠ k)
    (hi : c.WaitsFor i k) (hk : c.WaitsFor k i) : c.CircularWait := by
  refine ⟨{i, k}, Set.nontrivial_pair hne, ?_⟩
  rintro x (rfl | rfl)
  · exact ⟨k, Or.inr rfl, hne.symm, hi⟩
  · exact ⟨i, Or.inl rfl, hne, hk⟩

variable [DecidableEq L] {d : Requests L σ} {watch : Nat → σ → σ → G → G}

/-- The invariant holds, and every thread makes the known requests only. -/
structure Following (d : Requests L σ) (c : Config L σ G α) : Prop where
  inv : d.inv c.state
  threads : ∀ (i : Nat) (t : Thread L σ α), c.threads[i]? = some t →
    d.Follows (fun _ _ => True) t.held t.prog

theorem Following.asks {c : Config L σ G α} (h : c.Following d) {i : Nat} {r : Request L}
    (hi : c.request? i = some r) : d.asks r.1 r.2.1 r.2.2 := by
  obtain ⟨rest, hrest⟩ := request?_eq_some hi
  exact (h.threads i _ hrest).1

theorem Following.set {c : Config L σ G α} (h : c.Following d) {i : Nat} {held : Held L}
    {prog : Prog L σ α} (hnew : d.Follows (fun _ _ => True) held prog) {s : σ} (hs : d.inv s)
    (g : G) : Following d ⟨c.threads.set i ⟨held, prog⟩, s, g⟩ := by
  refine ⟨hs, fun k t ht => ?_⟩
  rcases getElem?_set_eq_some ht with ⟨rfl, rfl⟩ | ⟨-, ht⟩
  · exact hnew
  · exact h.threads k t ht

theorem following_step {c : Config L σ G α} (h : c.Following d) (hgiven : d.given c.state)
    (i : Nat) : (c.step watch i).Following d := by
  unfold step
  split
  · exact h
  · exact h
  · rename_i held l m rest ht
    split_ifs
    · exact h
    · exact h.set (h.threads i _ ht).2 h.inv c.ghost
  · rename_i held l m rest ht
    have hrest : d.Follows (fun _ _ => True) (held.erase (l, m)) rest := h.threads i _ ht
    exact h.set hrest h.inv c.ghost
  · rename_i held f rest ht
    obtain ⟨hinv, hrest⟩ := h.threads i _ ht c.state h.inv hgiven
    exact h.set hrest hinv _

/-- What a thread asks for changes only with its own actions. -/
theorem request?_step_of_ne (c : Config L σ G α) {i k : Nat} (hne : k ≠ i) :
    (c.step watch i).request? k = c.request? k := by
  have hthread : (c.step watch i).threads[k]? = c.threads[k]? := by
    unfold step
    split
    · rfl
    · rfl
    · split_ifs
      · rfl
      · exact List.getElem?_set_ne hne.symm
    · exact List.getElem?_set_ne hne.symm
    · exact List.getElem?_set_ne hne.symm
  rw [request?, request?, hthread]

end Config

end LockProgram
