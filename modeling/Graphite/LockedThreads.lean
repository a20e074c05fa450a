import Graphite.Interleaving

/-! Rely and guarantee for threads that hold guards. What a thread relies on may depend on
its guards: two threads never hold guards that exclude each other, so an action has to keep
only what a thread with compatible guards relies on. -/

namespace LockProgram
open GuardedRuns

variable {L σ G ε α β : Type}

/-- Guards that two threads may hold at once. -/
def Compatible (held held' : Held L) : Prop :=
  ∀ l m, (l, m) ∈ held → ¬ Conflicts held' l m

theorem Compatible.symm {held held' : Held L} (h : Compatible held held') :
    Compatible held' held := by
  intro l m hm hconflicts
  cases m with
  | read => exact h l .write hconflicts (Or.inr hm)
  | write =>
    rcases hconflicts with hwrite | hread
    · exact h l .write hwrite (Or.inl hm)
    · exact h l .read hread hm

theorem Compatible.mono {held held' less : Held L} (h : Compatible held held')
    (hless : less ⊆ held) : Compatible less held' :=
  fun l m hm => h l m (hless hm)

/-- The writer of a lock is compatible with nobody else who writes it. -/
theorem not_compatible_write {held held' : Held L} {l : L} (h : (l, .write) ∈ held)
    (h' : (l, .write) ∈ held') : ¬ Compatible held held' :=
  fun hcompatible => hcompatible l .write h (Or.inl h')

/-- An invariant, what a thread relies on under its guards, and how a ghost watches. -/
structure LockDiscipline (L σ G : Type) where
  watch : Nat → σ → σ → G → G
  allowed : Nat → σ × G → σ × G → Prop
  inv : σ × G → Prop
  rely : Nat → Held L → σ × G → σ × G → Prop
  watch_self : ∀ i s g, watch i s s g = g
  rely_refl : ∀ i held γ, rely i held γ γ
  rely_trans : ∀ {i held γ₁ γ₂ γ₃}, rely i held γ₁ γ₂ → rely i held γ₂ γ₃ → rely i held γ₁ γ₃
  rely_mono : ∀ {i held held' γ γ'}, held ⊆ held' → rely i held' γ γ' → rely i held γ γ'

namespace LockDiscipline

variable (d : LockDiscipline L σ G) (i : Nat)

/-- What stays true whatever the others do meanwhile. -/
def Stable (held : Held L) (P : σ × G → Prop) (γ : σ × G) : Prop :=
  ∀ γ', d.rely i held γ γ' → d.inv γ' → P γ'

/-- The thread may change the state to `s`, and is then in a good one. -/
def Moves (held : Held L) (γ : σ × G) (s : σ) (good : σ × G → Prop) : Prop :=
  d.allowed i γ (s, d.watch i γ.1 s γ.2) →
    d.inv (s, d.watch i γ.1 s γ.2) ∧
      (∀ k, k ≠ i → ∀ held', Compatible held held' →
        d.rely k held' γ (s, d.watch i γ.1 s γ.2)) ∧
      good (s, d.watch i γ.1 s γ.2)

variable [DecidableEq L]

/-- Every action of the program is fine, and so is its result. -/
def Safe (post : Held L → α → σ × G → Prop) : Held L → Prog L σ α → σ × G → Prop
  | held, .done a, γ => d.Stable i held (post held a) γ
  | held, .acquire l m rest, γ => d.Stable i held (Safe post ((l, m) :: held) rest) γ
  | held, .release l m rest, γ => d.Stable i held (Safe post (held.erase (l, m)) rest) γ
  | held, .act f rest, γ => d.Stable i held (fun γ' =>
    d.Moves i held γ' (f γ'.1) (Safe post held (rest γ'.1))) γ

/-- A safe operation, which holds the same guards at its end. -/
def SafeOp (held : Held L) (post : Except ε α → σ × G → Prop) (x : Op L σ ε α) (γ : σ × G) :
    Prop :=
  d.Safe i (fun held' r γ => held' = held ∧ post r γ) held x.run γ

variable {d i} {held : Held L}

omit [DecidableEq L] in
theorem Stable.now {P : σ × G → Prop} {γ : σ × G} (h : d.Stable i held P γ) (hinv : d.inv γ) :
    P γ := h γ (d.rely_refl i held γ) hinv

omit [DecidableEq L] in
theorem Stable.later {P : σ × G → Prop} {γ γ' : σ × G} (h : d.Stable i held P γ)
    (hrely : d.rely i held γ γ') : d.Stable i held P γ' :=
  fun γ'' hrely' hinv => h γ'' (d.rely_trans hrely hrely') hinv

omit [DecidableEq L] in
theorem Moves.mono {γ : σ × G} {s : σ} {good good' : σ × G → Prop} (h : d.Moves i held γ s good)
    (himp : ∀ γ', d.inv γ' → good γ' → good' γ') : d.Moves i held γ s good' := by
  intro hallowed
  obtain ⟨hinv, hrely, hgood⟩ := h hallowed
  exact ⟨hinv, hrely, himp _ hinv hgood⟩

omit [DecidableEq L] in
/-- Looking at the state is always fine. -/
theorem moves_self {γ : σ × G} (hinv : d.inv γ) {good : σ × G → Prop} (hgood : good γ) :
    d.Moves i held γ γ.1 good := by
  intro _
  rw [d.watch_self]
  exact ⟨hinv, fun k _ held' _ => d.rely_refl k held' γ, hgood⟩

theorem Safe.stable {post : Held L → α → σ × G → Prop} {x : Prog L σ α} {γ γ' : σ × G}
    (h : d.Safe i post held x γ) (hrely : d.rely i held γ γ') : d.Safe i post held x γ' := by
  cases x with
  | done a => exact Stable.later h hrely
  | acquire l m rest => exact Stable.later h hrely
  | release l m rest => exact Stable.later h hrely
  | act f rest => exact Stable.later h hrely

theorem Safe.mono {post post' : Held L → α → σ × G → Prop}
    (himp : ∀ held a γ, d.inv γ → post held a γ → post' held a γ) {x : Prog L σ α} {γ : σ × G}
    (h : d.Safe i post held x γ) : d.Safe i post' held x γ := by
  induction x generalizing held γ with
  | done a => exact fun γ' hrely hinv => himp held a γ' hinv (h γ' hrely hinv)
  | acquire l m rest ih => exact fun γ' hrely hinv => ih (h γ' hrely hinv)
  | release l m rest ih => exact fun γ' hrely hinv => ih (h γ' hrely hinv)
  | act f rest ih =>
    exact fun γ' hrely hinv => (h γ' hrely hinv).mono fun γ'' _ hsafe => ih γ'.1 hsafe

theorem Safe.bind {post : Held L → β → σ × G → Prop} {f : α → Prog L σ β} {x : Prog L σ α}
    {γ : σ × G} (hinv : d.inv γ)
    (h : d.Safe i (fun held a γ => d.Safe i post held (f a) γ) held x γ) :
    d.Safe i post held (x.bind f) γ := by
  induction x generalizing held γ with
  | done a => exact Stable.now h hinv
  | acquire l m rest ih => exact fun γ' hrely hinv => ih hinv (h γ' hrely hinv)
  | release l m rest ih => exact fun γ' hrely hinv => ih hinv (h γ' hrely hinv)
  | act g rest ih =>
    exact fun γ' hrely hinv => (h γ' hrely hinv).mono fun γ'' hinv' hsafe => ih γ'.1 hinv' hsafe

section Operations

variable {post : Except ε α → σ × G → Prop} {γ : σ × G}

theorem SafeOp.mono {post' : Except ε α → σ × G → Prop}
    (himp : ∀ r γ, d.inv γ → post r γ → post' r γ) {x : Op L σ ε α}
    (h : d.SafeOp i held post x γ) : d.SafeOp i held post' x γ :=
  Safe.mono (fun _ r γ hinv hr => ⟨hr.1, himp r γ hinv hr.2⟩) h

theorem safe_pure {a : α} (h : d.Stable i held (post (.ok a)) γ) :
    d.SafeOp i held post (pure a : Op L σ ε α) γ :=
  fun γ' hrely hinv => ⟨rfl, h γ' hrely hinv⟩

theorem safe_throw {e : ε} (h : d.Stable i held (post (.error e)) γ) :
    d.SafeOp i held post (throw e : Op L σ ε α) γ :=
  fun γ' hrely hinv => ⟨rfl, h γ' hrely hinv⟩

theorem safe_gets {f : σ → α}
    (h : d.Stable i held (fun γ' => d.Stable i held (post (.ok (f γ'.1))) γ') γ) :
    d.SafeOp i held post (gets f : Op L σ ε α) γ :=
  fun γ' hrely hinv => moves_self hinv fun γ'' hrely' hinv' =>
    ⟨rfl, h γ' hrely hinv γ'' hrely' hinv'⟩

theorem safe_attempt {f : σ → Except ε α × σ}
    (h : d.Stable i held (fun γ' =>
      d.Moves i held γ' (f γ'.1).2 (d.Stable i held (post (f γ'.1).1))) γ) :
    d.SafeOp i held post (attempt f : Op L σ ε α) γ :=
  fun γ' hrely hinv => (h γ' hrely hinv).mono fun _ _ hstable γ'' hrely' hinv' =>
    ⟨rfl, hstable γ'' hrely' hinv'⟩

theorem safe_bind {x : Op L σ ε α} {f : α → Op L σ ε β} {post : Except ε β → σ × G → Prop}
    (hinv : d.inv γ)
    (h : d.SafeOp i held (fun r γ => match r with
      | .ok a => d.SafeOp i held post (f a) γ
      | .error e => d.Stable i held (post (.error e)) γ) x γ) :
    d.SafeOp i held post (x >>= f) γ := by
  refine Safe.bind hinv (Safe.mono (fun held' r γ' _ hr => ?_) h)
  obtain ⟨rfl, hr⟩ := hr
  cases r with
  | ok a => exact hr
  | error e => exact fun γ'' hrely hinv => ⟨rfl, hr γ'' hrely hinv⟩

/-- Behind the guard the result must last without it. -/
theorem safe_withGuard {l : L} {m : Mode} {body : Op L σ ε α}
    (h : d.Stable i held
      (d.SafeOp i ((l, m) :: held) (fun r => d.Stable i held (post r)) body) γ) :
    d.SafeOp i held post (withGuard l m body) γ := by
  intro γ' hrely hinv
  refine Safe.bind hinv (Safe.mono (fun held' r γ₁ _ hr => ?_) (h γ' hrely hinv))
  obtain ⟨rfl, hr⟩ := hr
  intro γ₂ hrely₂ _
  rw [List.erase_cons_head]
  have hr₂ := Stable.later hr (d.rely_mono (List.subset_cons_self _ _) hrely₂)
  exact fun γ₃ hrely₃ hinv₃ => ⟨rfl, hr₂ γ₃ hrely₃ hinv₃⟩

end Operations

end LockDiscipline

namespace Config

variable [DecidableEq L] {d : LockDiscipline L σ G} {posts : Nat → α → σ × G → Prop}

/-- A change of the state by the thread is one of those allowed. -/
def Permits (d : LockDiscipline L σ G) (c : Config L σ G α) (i : Nat) : Prop :=
  ∀ held f rest, c.threads[i]? = some ⟨held, .act f rest⟩ →
    d.allowed i (c.state, c.ghost) (f c.state, d.watch i c.state (f c.state) c.ghost)

/-- The invariant holds, every thread is safe, and no two guards exclude each other. -/
structure Sane (d : LockDiscipline L σ G) (posts : Nat → α → σ × G → Prop) (c : Config L σ G α) :
    Prop where
  inv : d.inv (c.state, c.ghost)
  safe : ∀ (i : Nat) (t : Thread L σ α), c.threads[i]? = some t →
    d.Safe i (fun _ => posts i) t.held t.prog (c.state, c.ghost)
  compatible : ∀ (i k : Nat) (t t' : Thread L σ α), c.threads[i]? = some t →
    c.threads[k]? = some t' → i ≠ k →
    Compatible t.held t'.held

omit [DecidableEq L] in
theorem mem_others {c : Config L σ G α} {i k : Nat} {t : Thread L σ α}
    (h : c.threads[k]? = some t) (hne : k ≠ i) {x : L × Mode} (hx : x ∈ t.held) :
    x ∈ c.others i := by
  refine List.mem_flatMap.mpr ⟨t, ?_, hx⟩
  exact List.mem_eraseIdx_iff_getElem?.mpr ⟨k, hne, h⟩

/-- A thread that goes on with other guards. -/
theorem Sane.set {c : Config L σ G α} (h : c.Sane d posts) {i : Nat} {held : Held L}
    {prog : Prog L σ α} (hsafe : d.Safe i (fun _ => posts i) held prog (c.state, c.ghost))
    (hcompatible : ∀ k t, c.threads[k]? = some t → k ≠ i → Compatible held t.held) :
    Sane d posts { c with threads := c.threads.set i ⟨held, prog⟩ } := by
  refine ⟨h.inv, fun k t ht => ?_, fun a b t t' ht ht' hab => ?_⟩
  · rcases getElem?_set_eq_some ht with ⟨rfl, rfl⟩ | ⟨-, ht⟩
    · exact hsafe
    · exact h.safe k t ht
  · rcases getElem?_set_eq_some ht with ⟨hai, rfl⟩ | ⟨hai, hta⟩
    · rcases getElem?_set_eq_some ht' with ⟨hbi, -⟩ | ⟨hbi, htb⟩
      · exact absurd (hai.trans hbi.symm) hab
      · exact hcompatible b t' htb hbi
    · rcases getElem?_set_eq_some ht' with ⟨-, rfl⟩ | ⟨-, htb⟩
      · exact (hcompatible a t hta hai).symm
      · exact h.compatible a b t t' hta htb hab

theorem sane_step {c : Config L σ G α} (h : c.Sane d posts) {i : Nat} (hpermits : c.Permits d i) :
    (c.step d.watch i).Sane d posts := by
  unfold step
  split
  · exact h
  · exact h
  · rename_i held l m rest ht
    split_ifs with hconflicts
    · exact h
    · refine h.set ((h.safe i _ ht).now h.inv) fun k t hk hne => ?_
      have hfree : ¬ Conflicts t.held l m := by
        intro hconflict
        refine hconflicts ?_
        have hmem {x : L × Mode} (hx : x ∈ t.held) : x ∈ held ++ c.others i :=
          List.mem_append_right held (mem_others hk hne hx)
        cases m with
        | read => exact hmem hconflict
        | write => exact hconflict.imp hmem hmem
      intro l' m' hmem
      rcases List.mem_cons.mp hmem with heq | hmem
      · cases heq
        exact hfree
      · exact h.compatible i k _ t ht hk hne.symm l' m' hmem
  · rename_i held l m rest ht
    refine h.set ((h.safe i _ ht).now h.inv) fun k t hk hne => ?_
    exact (h.compatible i k _ t ht hk hne.symm).mono List.erase_subset
  · rename_i held f rest ht
    obtain ⟨hinv, hrely, hsafe⟩ := (h.safe i _ ht).now h.inv (hpermits held f rest ht)
    refine ⟨hinv, fun k t hk => ?_, fun a b t t' ha hb hab => ?_⟩
    · rcases getElem?_set_eq_some hk with ⟨rfl, rfl⟩ | ⟨hki, hk⟩
      · exact hsafe
      · exact (h.safe k t hk).stable (hrely k hki t.held (h.compatible i k _ t ht hk (Ne.symm hki)))
    · rcases getElem?_set_eq_some ha with ⟨hai, rfl⟩ | ⟨hai, hta⟩
      · rcases getElem?_set_eq_some hb with ⟨hbi, -⟩ | ⟨hbi, htb⟩
        · exact absurd (hai.trans hbi.symm) hab
        · exact h.compatible i b ⟨held, .act f rest⟩ t' ht htb (hai ▸ hab)
      · rcases getElem?_set_eq_some hb with ⟨hbi, rfl⟩ | ⟨-, htb⟩
        · exact h.compatible a i t ⟨held, .act f rest⟩ hta ht (hbi ▸ hab)
        · exact h.compatible a b t t' hta htb hab

theorem always_sane {c : Config L σ G α} (h : c.Sane d posts) {schedule : List Nat}
    (hpermits : Guarded (step d.watch) (Permits d) c schedule) :
    Always (step d.watch) (Sane d posts) c schedule :=
  always_of_guarded (Sane d posts) (fun _ => id) (fun _ _ hsane => sane_step hsane) h hpermits

/-- A thread that has come to its end has a good result. -/
theorem Sane.post {c : Config L σ G α} (h : c.Sane d posts) {i : Nat} {a : α}
    (ha : c.resultAt i = some a) : posts i a (c.state, c.ghost) := by
  obtain ⟨t, ht, hdone⟩ := Option.bind_eq_some_iff.mp ha
  have hsafe := h.safe i t ht
  rw [Prog.eq_done hdone] at hsafe
  exact LockDiscipline.Stable.now hsafe h.inv

theorem sane_start {posts : Nat → Except ε α → σ × G → Prop} {ops : List (Op L σ ε α)} {s : σ}
    {g : G} (hinv : d.inv (s, g))
    (hsafe : ∀ i op, ops[i]? = some op → d.SafeOp i [] (posts i) op (s, g)) :
    (start ops s g).Sane d posts := by
  have hthread {i : Nat} {t : Thread L σ (Except ε α)} (ht : (start ops s g).threads[i]? = some t) :
      ∃ op, ops[i]? = some op ∧ ⟨[], op.run⟩ = t := by
    rwa [start, List.getElem?_map, Option.map_eq_some_iff] at ht
  refine ⟨hinv, fun i t ht => ?_, fun i k t t' ht ht' _ => ?_⟩
  · obtain ⟨op, hop, rfl⟩ := hthread ht
    exact LockDiscipline.Safe.mono (fun _ _ _ _ h => h.2) (hsafe i op hop)
  · obtain ⟨op, -, rfl⟩ := hthread ht
    exact fun l m hm => absurd hm List.not_mem_nil

end Config

end LockProgram
