import Graphite.LockedThreads
import Graphite.LsmCrash
import Graphite.LsmTrace

/-! Write calls of several threads below the flush threshold: whether the memtable ends as
the log says. A batch of `insert_batch` or `insert_multi` is put into the memtable and
appended to the log under one guard of the memtable; a replicated batch gives the log free
before it asks for the memtable, and another call may log and store its ticks in between. -/

namespace Graphite
open KeyedRows LockProgram GuardedRuns

/-- The ticks of the calls in the order of the log and in the order of the memtable, with
their threads, and the threads that have left half of a call somewhere. -/
structure Orders where
  logged : List (Nat × List Tick)
  stored : List (Nat × List Tick)
  torn : List Nat

namespace Orders

def ticks (g : Orders) : List Tick := g.logged.flatMap Prod.snd

/-- The log or the memtable has the ticks, and the other one has not. -/
def InFlight (g : Orders) (e : Nat × List Tick) : Prop :=
  (e ∈ g.logged ∧ e ∉ g.stored) ∨ (e ∈ g.stored ∧ e ∉ g.logged)

end Orders

/-- The version of its key that counts among these ticks. -/
def LastIn (ticks : List Tick) (x : Tick) : Prop := firstAt Tick.key ticks.reverse x.key = some x

instance (ticks : List Tick) (x : Tick) : Decidable (LastIn ticks x) :=
  inferInstanceAs (Decidable (_ = _))

theorem lastIn_singleton (x : Tick) : LastIn [x] x := by
  simp [LastIn, firstAt]

theorem LastIn.append {ticks : List Tick} {x : Tick} (h : LastIn ticks x) (front : List Tick) :
    LastIn (front ++ ticks) x := by
  rw [LastIn, List.reverse_append, firstAt_append,
    show firstAt Tick.key ticks.reverse x.key = some x from h, Option.some_or]

theorem get_insertAll_of_lastIn (m : SkipList) {ticks : List Tick} {x : Tick}
    (h : LastIn ticks x) : (m.insertAll ticks).get x.key = some x := by
  rw [SkipList.get_insertAll, show firstAt Tick.key ticks.reverse x.key = some x from h,
    Option.some_or]

theorem get_insertAll_of_forall_ne (m : SkipList) {ticks : List Tick} {key : Key}
    (h : ∀ x ∈ ticks, x.key ≠ key) : (m.insertAll ticks).get key = m.get key := by
  have hnone : firstAt Tick.key ticks.reverse key = none :=
    (firstAt_eq_none_iff Tick.key).mpr fun x hx => h x (List.mem_reverse.mp hx)
  rw [SkipList.get_insertAll, hnone, Option.none_or]

/-- A key is that of some last version, or of no tick at all. -/
theorem lastIn_or_forall_ne (ticks : List Tick) (key : Key) :
    (∃ x, LastIn ticks x ∧ x.key = key) ∨ ∀ x ∈ ticks, x.key ≠ key := by
  cases hfirst : firstAt Tick.key ticks.reverse key with
  | some x =>
    obtain ⟨-, hkey⟩ := firstAt_eq_some Tick.key hfirst
    exact Or.inl ⟨x, by rw [LastIn, hkey, hfirst], hkey⟩
  | none =>
    right
    exact fun x hx => (firstAt_eq_none_iff Tick.key).mp hfirst x (List.mem_reverse.mpr hx)

section Rules

variable (c : Codec) (jobs : List Job) (s₀ : LsmTree)

/-- What an action of a thread adds to the orders. -/
def watchOrders (i : Nat) (before after : LsmTree × Nat) (g : Orders) : Orders :=
  let ticks := rowsOf jobs i after.1.symbolDict
  let appended := before.1.wal.extend c (ticks.map .insert)
  { logged :=
      if after.1.wal ≠ before.1.wal ∧ after.1.wal = appended then g.logged ++ [(i, ticks)]
      else g.logged
    stored := if after.1.totalRows ≠ before.1.totalRows then g.stored ++ [(i, ticks)] else g.stored
    torn :=
      if (after.1.wal = before.1.wal ∨ after.1.wal = appended) ∧
          (after.1.memtable = before.1.memtable ∨
            after.1.memtable = before.1.memtable.insertAll ticks)
        then g.torn
      else i :: g.torn }

/-- Outside the keys in flight the memtable is what the log says. -/
structure Agrees (s : LsmTree) (g : Orders) : Prop where
  wal : s.wal = s₀.wal.extend c (g.ticks.map .insert)
  memtable : ∀ key, (∀ e, g.InFlight e → ∀ x ∈ e.2, x.key ≠ key) →
    s.memtable.get key = (s₀.memtable.insertAll g.ticks).get key

structure SameOrder (γ : (LsmTree × Nat) × Orders) : Prop where
  below : γ.1.1.memtable.len < γ.1.1.flushThreshold
  role : γ.1.1.role = s₀.role
  flushThreshold : γ.1.1.flushThreshold = s₀.flushThreshold
  threads : ∀ e ∈ γ.2.logged ++ γ.2.stored, e.1 < jobs.length
  torn : ∀ i ∈ γ.2.torn, i < jobs.length
  agrees : γ.2.torn = [] → Agrees c s₀ γ.1.1 γ.2

/-- The memtable stays below the threshold, and a replicated batch goes into it only while
its ticks are the newest of their keys in the log. -/
def allowedOrders (i : Nat) (γ γ' : (LsmTree × Nat) × Orders) : Prop :=
  γ'.1.1.memtable.len < γ'.1.1.flushThreshold ∧
    ∀ entries, jobs[i]? = some (.write (.applyReplicationBatch entries)) →
      γ'.1.1.totalRows ≠ γ.1.1.totalRows →
        ∀ x, LastIn (rowsOf jobs i γ.1.1.symbolDict) x → LastIn γ.2.ticks x

/-- What a thread relies on: nobody changes the memtable under its guard, and on a primary
nobody writes while it has the dictionary. -/
structure KeepsGuarded (i : Nat) (held : Held Lock) (γ γ' : (LsmTree × Nat) × Orders) : Prop where
  dict : γ.1.1.symbolDict.idToSymbol <+: γ'.1.1.symbolDict.idToSymbol
  role : γ'.1.1.role = γ.1.1.role
  logged : ∀ ticks, (i, ticks) ∈ γ'.2.logged ↔ (i, ticks) ∈ γ.2.logged
  stored : ∀ ticks, (i, ticks) ∈ γ'.2.stored ↔ (i, ticks) ∈ γ.2.stored
  torn : i ∈ γ'.2.torn ↔ i ∈ γ.2.torn
  memtable : (.memtable, .write) ∈ held → γ'.1.1.memtable = γ.1.1.memtable
  primary : (.symbolDict, .write) ∈ held → γ.1.1.role = .primary →
    γ'.1.1.memtable = γ.1.1.memtable ∧ γ'.2.logged = γ.2.logged

variable {c jobs s₀}

theorem watchOrders_self (i : Nat) (s : LsmTree × Nat) (g : Orders) :
    watchOrders c jobs i s s g = g := by
  simp [watchOrders]

namespace KeepsGuarded

variable {i : Nat} {held held' : Held Lock} {γ γ₁ γ₂ γ₃ : (LsmTree × Nat) × Orders}

theorem refl (i : Nat) (held : Held Lock) (γ : (LsmTree × Nat) × Orders) :
    KeepsGuarded i held γ γ :=
  ⟨List.prefix_rfl, rfl, fun _ => Iff.rfl, fun _ => Iff.rfl, Iff.rfl, fun _ => rfl,
    fun _ _ => ⟨rfl, rfl⟩⟩

theorem trans (h : KeepsGuarded i held γ₁ γ₂) (h' : KeepsGuarded i held γ₂ γ₃) :
    KeepsGuarded i held γ₁ γ₃ where
  dict := h.dict.trans h'.dict
  role := h'.role.trans h.role
  logged ticks := (h'.logged ticks).trans (h.logged ticks)
  stored ticks := (h'.stored ticks).trans (h.stored ticks)
  torn := h'.torn.trans h.torn
  memtable hheld := (h'.memtable hheld).trans (h.memtable hheld)
  primary hheld hrole := by
    obtain ⟨hmemtable, hlogged⟩ := h.primary hheld hrole
    obtain ⟨hmemtable', hlogged'⟩ := h'.primary hheld (h.role.trans hrole)
    exact ⟨hmemtable'.trans hmemtable, hlogged'.trans hlogged⟩

theorem mono (hsub : held ⊆ held') (h : KeepsGuarded i held' γ₁ γ₂) :
    KeepsGuarded i held γ₁ γ₂ :=
  ⟨h.dict, h.role, h.logged, h.stored, h.torn, fun hheld => h.memtable (hsub hheld),
    fun hheld => h.primary (hsub hheld)⟩

theorem drop {x : Lock × Mode} (h : KeepsGuarded i (x :: held) γ₁ γ₂) :
    KeepsGuarded i held γ₁ γ₂ := h.mono (List.subset_cons_self _ _)

end KeepsGuarded

/-- Threads that write, below the threshold. -/
def keepsOrder (c : Codec) (jobs : List Job) (s₀ : LsmTree) :
    LockDiscipline Lock (LsmTree × Nat) Orders where
  watch := watchOrders c jobs
  allowed := allowedOrders jobs
  inv := SameOrder c jobs s₀
  rely := KeepsGuarded
  watch_self := watchOrders_self
  rely_refl := KeepsGuarded.refl
  rely_trans := KeepsGuarded.trans
  rely_mono := KeepsGuarded.mono

section Agreement

variable {s s' : LsmTree} {g : Orders} {e : Nat × List Tick}

/-- The memtable may change at keys that are in flight anyway. -/
theorem Agrees.touch (h : Agrees c s₀ s g) (hwal : s'.wal = s.wal) (he : g.InFlight e)
    (hother : ∀ key, (∀ x ∈ e.2, x.key ≠ key) → s'.memtable.get key = s.memtable.get key) :
    Agrees c s₀ s' g := by
  refine ⟨hwal.trans h.wal, fun key hkey => ?_⟩
  rw [hother key (hkey e he)]
  exact h.memtable key hkey

theorem Agrees.append (h : Agrees c s₀ s g)
    (hstored : e ∈ g.stored → ∀ x, LastIn e.2 x → s.memtable.get x.key = some x) :
    Agrees c s₀ (s.withWal (s.wal.extend c (e.2.map .insert)))
      { g with logged := g.logged ++ [e] } := by
  have hticks : Orders.ticks { g with logged := g.logged ++ [e] } = g.ticks ++ e.2 := by
    simp [Orders.ticks]
  refine ⟨?_, fun key hkey => ?_⟩
  · rw [hticks, List.map_append, Wal.extend_append, ← h.wal]
    rfl
  rw [hticks, SkipList.insertAll_append]
  change s.memtable.get key = _
  have hbefore : (∀ x ∈ e.2, x.key ≠ key) →
      s.memtable.get key = (s₀.memtable.insertAll g.ticks).get key := by
    intro hnone
    refine h.memtable key fun f hf => ?_
    by_cases hfe : f = e
    · rw [hfe]
      exact hnone
    · refine hkey f (hf.imp (fun hf => ⟨List.mem_append_left _ hf.1, hf.2⟩) fun hf => ⟨hf.1, ?_⟩)
      simpa [hfe] using hf.2
  rcases lastIn_or_forall_ne e.2 key with ⟨x, hx, rfl⟩ | hnone
  · rw [get_insertAll_of_lastIn _ hx]
    by_cases hmem : e ∈ g.stored
    · exact hstored hmem x hx
    · obtain ⟨hmemx, -⟩ := firstAt_eq_some Tick.key hx
      refine absurd rfl (hkey e (Or.inl ⟨?_, hmem⟩) x (List.mem_reverse.mp hmemx))
      exact List.mem_append_right _ List.mem_cons_self
  · rw [get_insertAll_of_forall_ne _ hnone]
    exact hbefore hnone

theorem Agrees.store (h : Agrees c s₀ s g) (hwal : s'.wal = s.wal)
    (hother : ∀ key, (∀ x ∈ e.2, x.key ≠ key) → s'.memtable.get key = s.memtable.get key)
    (hlogged : e ∈ g.logged → ∀ x, LastIn e.2 x →
      s'.memtable.get x.key = some x ∧ LastIn g.ticks x) :
    Agrees c s₀ s' { g with stored := g.stored ++ [e] } := by
  refine ⟨hwal.trans h.wal, fun key hkey => ?_⟩
  change s'.memtable.get key = (s₀.memtable.insertAll g.ticks).get key
  rcases lastIn_or_forall_ne e.2 key with ⟨x, hx, rfl⟩ | hnone
  · by_cases hmem : e ∈ g.logged
    · obtain ⟨hget, hlast⟩ := hlogged hmem x hx
      rw [hget, get_insertAll_of_lastIn _ hlast]
    · obtain ⟨hmemx, -⟩ := firstAt_eq_some Tick.key hx
      refine absurd rfl (hkey e (Or.inr ⟨?_, hmem⟩) x (List.mem_reverse.mp hmemx))
      exact List.mem_append_right _ List.mem_cons_self
  · rw [hother key hnone]
    refine h.memtable key fun f hf => ?_
    by_cases hfe : f = e
    · rw [hfe]
      exact hnone
    · refine hkey f (hf.imp (fun hf => ⟨hf.1, ?_⟩) fun hf => ⟨List.mem_append_left _ hf.1, hf.2⟩)
      simpa [hfe] using hf.2

/-- With nothing in flight the memtable is what the log says. -/
theorem Agrees.memtable_eq (h : Agrees c s₀ s g) (hnone : ∀ e, ¬ g.InFlight e) :
    s.memtable = s₀.memtable.insertAll g.ticks :=
  SkipList.ext_get fun key => h.memtable key fun e he => absurd he (hnone e)

end Agreement

section Moves

variable {i : Nat} {held : Held Lock} {γ : (LsmTree × Nat) × Orders} {s : LsmTree} {time : Nat}
  {good : (LsmTree × Nat) × Orders → Prop}

theorem mem_logged_watchOrders {e : Nat × List Tick} :
    e ∈ (watchOrders c jobs i γ.1 (s, time) γ.2).logged ↔ e ∈ γ.2.logged ∨
      (s.wal ≠ γ.1.1.wal ∧
        s.wal = γ.1.1.wal.extend c ((rowsOf jobs i s.symbolDict).map .insert)) ∧
      e = (i, rowsOf jobs i s.symbolDict) := by
  unfold watchOrders
  dsimp only
  split_ifs with h
  · rw [List.mem_append, List.mem_singleton, and_iff_right h]
  · simp only [h, false_and, or_false]

theorem mem_stored_watchOrders {e : Nat × List Tick} :
    e ∈ (watchOrders c jobs i γ.1 (s, time) γ.2).stored ↔ e ∈ γ.2.stored ∨
      s.totalRows ≠ γ.1.1.totalRows ∧ e = (i, rowsOf jobs i s.symbolDict) := by
  unfold watchOrders
  dsimp only
  split_ifs with h
  · rw [List.mem_append, List.mem_singleton, and_iff_right h]
  · simp only [h, false_and, or_false]

theorem torn_watchOrders (c : Codec) (jobs : List Job) (i : Nat) (before after : LsmTree × Nat)
    (g : Orders) :
    (watchOrders c jobs i before after g).torn = g.torn ∨
      (watchOrders c jobs i before after g).torn = i :: g.torn := by
  unfold watchOrders
  dsimp only
  split_ifs
  · exact Or.inl rfl
  · exact Or.inr rfl

/-- What an action has to keep, whatever it does. -/
theorem moves_of (hinv : SameOrder c jobs s₀ γ) (hi : i < jobs.length)
    (hdict : γ.1.1.symbolDict.idToSymbol <+: s.symbolDict.idToSymbol)
    (hrole : s.role = γ.1.1.role) (hthreshold : s.flushThreshold = γ.1.1.flushThreshold)
    (hmemtable : s.memtable = γ.1.1.memtable ∨ (.memtable, .write) ∈ held)
    (hprimary : (s.memtable = γ.1.1.memtable ∧ s.wal = γ.1.1.wal) ∨
      (.symbolDict, .write) ∈ held ∨ γ.1.1.role ≠ .primary)
    (hagrees : allowedOrders jobs i γ ((s, time), watchOrders c jobs i γ.1 (s, time) γ.2) →
      (watchOrders c jobs i γ.1 (s, time) γ.2).torn = [] → Agrees c s₀ γ.1.1 γ.2 →
        Agrees c s₀ s (watchOrders c jobs i γ.1 (s, time) γ.2))
    (hgood : good ((s, time), watchOrders c jobs i γ.1 (s, time) γ.2)) :
    (keepsOrder c jobs s₀).Moves i held γ (s, time) good := by
  have htorn := torn_watchOrders c jobs i γ.1 (s, time) γ.2
  intro hallowed
  refine ⟨⟨hallowed.1, hrole.trans hinv.role, hthreshold.trans hinv.flushThreshold, ?_, ?_, ?_⟩,
    fun k hk held' hcompatible => ⟨hdict, hrole, ?_, ?_, ?_, ?_, ?_⟩, hgood⟩
  · intro e he
    rcases List.mem_append.mp he with he | he
    · rcases mem_logged_watchOrders.mp he with he | ⟨-, rfl⟩
      · exact hinv.threads e (List.mem_append_left _ he)
      · exact hi
    · rcases mem_stored_watchOrders.mp he with he | ⟨-, rfl⟩
      · exact hinv.threads e (List.mem_append_right _ he)
      · exact hi
  · intro k hk
    rcases htorn with h | h
    · exact hinv.torn k (h ▸ hk)
    · rcases List.mem_cons.mp (h ▸ hk) with rfl | hk
      · exact hi
      · exact hinv.torn k hk
  · intro hnil
    refine hagrees hallowed hnil (hinv.agrees ?_)
    rcases htorn with h | h
    · exact h.symm.trans hnil
    · exact absurd (h.symm.trans hnil) (List.cons_ne_nil _ _)
  · intro ticks
    refine mem_logged_watchOrders.trans (or_iff_left ?_)
    rintro ⟨-, heq⟩
    exact hk (congrArg Prod.fst heq)
  · intro ticks
    refine mem_stored_watchOrders.trans (or_iff_left ?_)
    rintro ⟨-, heq⟩
    exact hk (congrArg Prod.fst heq)
  · rcases htorn with h | h
    · exact iff_of_eq (congrArg (k ∈ ·) h)
    · exact (iff_of_eq (congrArg (k ∈ ·) h)).trans (List.mem_cons.trans (or_iff_right hk))
  · intro hheld
    rcases hmemtable with h | h
    · exact h
    · exact absurd hcompatible (not_compatible_write h hheld)
  · intro hheld hr
    rcases hprimary with h | h | h
    · refine ⟨h.1, ?_⟩
      change (if _ then _ else _) = _
      rw [if_neg fun hchanged => hchanged.1 h.2]
    · exact absurd hcompatible (not_compatible_write h hheld)
    · exact absurd hr h

/-- Where the call of a thread stands: its ticks are these from now on, and are in the log
or in the memtable or not. -/
structure Stands (jobs : List Job) (i : Nat) (ticks : List Tick) (logged stored : Prop)
    (dict : SymbolDictionary) (g : Orders) : Prop where
  fixed : ∃ job, jobs[i]? = some job ∧ job.Fixed ticks dict
  torn : i ∉ g.torn
  logged : ∀ ticks', (i, ticks') ∈ g.logged ↔ logged ∧ ticks ≠ [] ∧ ticks' = ticks
  stored : ∀ ticks', (i, ticks') ∈ g.stored ↔ stored ∧ ticks ≠ [] ∧ ticks' = ticks

/-- The call is through, or has never had anything to write. -/
structure Settled (i : Nat) (g : Orders) : Prop where
  torn : i ∉ g.torn
  iff : ∀ ticks, (i, ticks) ∈ g.logged ↔ (i, ticks) ∈ g.stored

/-- The call has written nothing yet. -/
structure Untouched (i : Nat) (g : Orders) : Prop where
  torn : i ∉ g.torn
  logged : ∀ ticks, (i, ticks) ∉ g.logged
  stored : ∀ ticks, (i, ticks) ∉ g.stored

variable {ticks : List Tick} {logged stored : Prop} {γ' : (LsmTree × Nat) × Orders}

theorem Stands.stable (h : Stands jobs i ticks logged stored γ.1.1.symbolDict γ.2)
    (hrely : KeepsGuarded i held γ γ') :
    Stands jobs i ticks logged stored γ'.1.1.symbolDict γ'.2 := by
  obtain ⟨job, hjob, hfixed⟩ := h.fixed
  exact ⟨⟨job, hjob, hfixed.mono hrely.dict⟩, fun hi => h.torn (hrely.torn.mp hi),
    fun ticks' => (hrely.logged ticks').trans (h.logged ticks'),
    fun ticks' => (hrely.stored ticks').trans (h.stored ticks')⟩

theorem Stands.settled {dict : SymbolDictionary} {g : Orders}
    (h : Stands jobs i ticks True True dict g) : Settled i g :=
  ⟨h.torn, fun ticks' => (h.logged ticks').trans (h.stored ticks').symm⟩

theorem Stands.rowsOf_eq {d dict : SymbolDictionary} {g : Orders}
    (h : Stands jobs i ticks logged stored d g) (hdict : d.idToSymbol <+: dict.idToSymbol) :
    rowsOf jobs i dict = ticks := by
  obtain ⟨job, hjob, hfixed⟩ := h.fixed
  rw [rowsOf, hjob]
  exact hfixed dict hdict

theorem Stands.lt_length {dict : SymbolDictionary} {g : Orders}
    (h : Stands jobs i ticks logged stored dict g) : i < jobs.length := by
  obtain ⟨job, hjob, -⟩ := h.fixed
  exact (List.getElem?_eq_some_iff.mp hjob).1

theorem Settled.stable (h : Settled i γ.2) (hrely : KeepsGuarded i held γ γ') : Settled i γ'.2 :=
  ⟨fun hi => h.torn (hrely.torn.mp hi), fun ticks =>
    (hrely.logged ticks).trans ((h.iff ticks).trans (hrely.stored ticks).symm)⟩

theorem Untouched.stable (h : Untouched i γ.2) (hrely : KeepsGuarded i held γ γ') :
    Untouched i γ'.2 :=
  ⟨fun hi => h.torn (hrely.torn.mp hi), fun ticks hl => h.logged ticks ((hrely.logged ticks).mp hl),
    fun ticks hs => h.stored ticks ((hrely.stored ticks).mp hs)⟩

theorem Untouched.settled {g : Orders} (h : Untouched i g) : Settled i g :=
  ⟨h.torn, fun ticks => iff_of_false (h.logged ticks) (h.stored ticks)⟩

theorem Untouched.stands {g : Orders} (h : Untouched i g) {job : Job} (hjob : jobs[i]? = some job)
    {dict : SymbolDictionary} (hfixed : job.Fixed ticks dict) :
    Stands jobs i ticks False False dict g :=
  ⟨⟨job, hjob, hfixed⟩, h.torn, fun ticks' => iff_of_false (h.logged ticks') fun h => h.1,
    fun ticks' => iff_of_false (h.stored ticks') fun h => h.1⟩

/-- An action that changes the memtable by the thread's own ticks at most. -/
theorem watchOrders_of_same (hwal : s.wal = γ.1.1.wal) (hrows : s.totalRows = γ.1.1.totalRows)
    (hmemtable : s.memtable = γ.1.1.memtable ∨
      s.memtable = γ.1.1.memtable.insertAll (rowsOf jobs i s.symbolDict)) :
    watchOrders c jobs i γ.1 (s, time) γ.2 = γ.2 := by
  unfold watchOrders
  dsimp only
  rw [if_neg fun h => h.1 hwal, if_neg fun h => h hrows, if_pos ⟨Or.inl hwal, hmemtable⟩]

/-- An action that leaves the log and the memtable alone. -/
theorem moves_same (hinv : SameOrder c jobs s₀ γ) (hi : i < jobs.length)
    (hdict : γ.1.1.symbolDict.idToSymbol <+: s.symbolDict.idToSymbol)
    (hrole : s.role = γ.1.1.role) (hthreshold : s.flushThreshold = γ.1.1.flushThreshold)
    (hmemtable : s.memtable = γ.1.1.memtable) (hwal : s.wal = γ.1.1.wal)
    (hrows : s.totalRows = γ.1.1.totalRows) (hgood : good ((s, time), γ.2)) :
    (keepsOrder c jobs s₀).Moves i held γ (s, time) good := by
  have hwatch : watchOrders c jobs i γ.1 (s, time) γ.2 = γ.2 :=
    watchOrders_of_same hwal hrows (Or.inl hmemtable)
  refine moves_of hinv hi hdict hrole hthreshold (Or.inl hmemtable) (Or.inl ⟨hmemtable, hwal⟩)
    (fun _ _ h => ?_) ?_
  · rw [hwatch]
    exact ⟨hwal.trans h.wal, fun key hkey => hmemtable ▸ h.memtable key hkey⟩
  · rw [hwatch]
    exact hgood

theorem extend_ne (c : Codec) (w : Wal) (hticks : ticks ≠ []) :
    w.extend c (ticks.map .insert) ≠ w := by
  intro h
  have hsequence := congrArg Wal.sequence h
  have hpos := List.length_pos_iff.mpr hticks
  simp only [Wal.extend, List.length_map] at hsequence
  omega

/-- The thread appends its ticks to the log, or part of them. -/
theorem moves_append_orders (hinv : SameOrder c jobs s₀ γ)
    (h : Stands jobs i ticks False stored γ.1.1.symbolDict γ.2) (wal : Wal)
    (hprimary : (.symbolDict, .write) ∈ held ∨ γ.1.1.role ≠ .primary)
    (hearly : stored → ∀ x, LastIn ticks x → γ.1.1.memtable.get x.key = some x) :
    (keepsOrder c jobs s₀).Moves i held γ (γ.1.1.withWal wal, time) fun γ' =>
      wal = γ.1.1.wal.extend c (ticks.map .insert) → γ'.1.1.memtable = γ.1.1.memtable ∧
        γ'.1.1.role = γ.1.1.role ∧ Stands jobs i ticks True stored γ'.1.1.symbolDict γ'.2 ∧
        γ'.2.ticks = γ.2.ticks ++ ticks := by
  have hticks : rowsOf jobs i (γ.1.1.withWal wal).symbolDict = ticks := h.rowsOf_eq List.prefix_rfl
  by_cases hsame : wal = γ.1.1.wal
  · refine moves_same hinv h.lt_length List.prefix_rfl rfl rfl rfl hsame rfl fun hfull => ?_
    have hnil : ticks = [] := by
      by_contra hne
      exact extend_ne c γ.1.1.wal hne (hfull.symm.trans hsame)
    refine ⟨rfl, rfl, ⟨h.fixed, h.torn, fun ticks' => ?_, h.stored⟩, ?_⟩
    · exact (h.logged ticks').trans (iff_of_false (fun h => h.1) fun h => h.2.1 hnil)
    · rw [hnil, List.append_nil]
  by_cases hfull : wal = γ.1.1.wal.extend c (ticks.map .insert)
  · have hne : ticks ≠ [] := by
      rintro rfl
      exact hsame (hfull.trans (Wal.extend_nil c _))
    have hwatch : watchOrders c jobs i γ.1 (γ.1.1.withWal wal, time) γ.2 =
        { γ.2 with logged := γ.2.logged ++ [(i, ticks)] } := by
      unfold watchOrders
      dsimp only
      rw [hticks, if_pos ⟨hsame, hfull⟩, if_neg fun h => h rfl, if_pos ⟨Or.inr hfull, Or.inl rfl⟩]
    refine moves_of hinv h.lt_length List.prefix_rfl rfl rfl (Or.inl rfl) (Or.inr hprimary)
      (fun _ _ hagrees => ?_) fun _ => ?_
    · rw [hwatch, hfull]
      refine hagrees.append (e := (i, ticks)) fun hmem => hearly ((h.stored ticks).mp hmem).1
    · rw [hwatch]
      refine ⟨rfl, rfl, ⟨h.fixed, h.torn, fun ticks' => ?_, h.stored⟩, ?_⟩
      · rw [List.mem_append, List.mem_singleton, Prod.mk_right_inj, h.logged ticks', false_and,
          false_or, true_and, and_iff_right hne]
      · simp [Orders.ticks]
  · refine moves_of hinv h.lt_length List.prefix_rfl rfl rfl (Or.inl rfl) (Or.inr hprimary)
      (fun _ htorn => ?_) fun h => absurd h hfull
    unfold watchOrders at htorn
    dsimp only at htorn
    rw [hticks, if_neg] at htorn
    · exact absurd htorn (List.cons_ne_nil _ _)
    · exact fun h => h.1.elim hsame hfull

/-- The ticks are counted; they have been put into the memtable by this action or before. -/
theorem moves_store_orders (hinv : SameOrder c jobs s₀ γ)
    (h : Stands jobs i ticks logged False s.symbolDict γ.2)
    (hdict : γ.1.1.symbolDict.idToSymbol <+: s.symbolDict.idToSymbol)
    (hrole : s.role = γ.1.1.role) (hthreshold : s.flushThreshold = γ.1.1.flushThreshold)
    (hwal : s.wal = γ.1.1.wal) (hrows : s.totalRows = γ.1.1.totalRows + ticks.length)
    (hmemtable : s.memtable = γ.1.1.memtable ∨
      s.memtable = γ.1.1.memtable.insertAll ticks ∧ (.memtable, .write) ∈ held)
    (hprimary : (.symbolDict, .write) ∈ held ∨ γ.1.1.role ≠ .primary)
    (hlate : allowedOrders jobs i γ ((s, time), watchOrders c jobs i γ.1 (s, time) γ.2) → logged →
      ∀ x, LastIn ticks x → s.memtable.get x.key = some x ∧ LastIn γ.2.ticks x) :
    (keepsOrder c jobs s₀).Moves i held γ (s, time) fun γ' =>
      γ'.1.1 = s ∧ Stands jobs i ticks logged True s.symbolDict γ'.2 := by
  have hticks : rowsOf jobs i s.symbolDict = ticks := h.rowsOf_eq List.prefix_rfl
  by_cases hne : ticks = []
  · have hsame : s.memtable = γ.1.1.memtable := by
      rcases hmemtable with h | ⟨h, -⟩
      · exact h
      · rw [h, hne]
        rfl
    have hcount : s.totalRows = γ.1.1.totalRows := by rw [hrows, hne]; rfl
    refine moves_same hinv h.lt_length hdict hrole hthreshold hsame hwal hcount
      ⟨rfl, h.fixed, h.torn, h.logged, fun ticks' => ?_⟩
    exact (h.stored ticks').trans (iff_of_false (fun h => h.1) fun h => h.2.1 hne)
  have hcount : s.totalRows ≠ γ.1.1.totalRows := by
    have hpos := List.length_pos_iff.mpr hne
    omega
  have hown : s.memtable = γ.1.1.memtable ∨ s.memtable = γ.1.1.memtable.insertAll ticks :=
    hmemtable.imp_right And.left
  have hwatch : watchOrders c jobs i γ.1 (s, time) γ.2 =
      { γ.2 with stored := γ.2.stored ++ [(i, ticks)] } := by
    unfold watchOrders
    dsimp only
    rw [hticks, if_neg fun h => h.1 hwal, if_pos hcount, if_pos ⟨Or.inl hwal, hown⟩]
  have hother (key : Key) (hkey : ∀ x ∈ ticks, x.key ≠ key) :
      s.memtable.get key = γ.1.1.memtable.get key := by
    rcases hown with h | h
    · rw [h]
    · rw [h, get_insertAll_of_forall_ne _ hkey]
  refine moves_of hinv h.lt_length hdict hrole hthreshold (hmemtable.imp_right And.right)
    (Or.inr hprimary) (fun hallowed _ hagrees => ?_) ?_
  · have hnewest := hlate hallowed
    rw [hwatch]
    exact hagrees.store (e := (i, ticks)) hwal hother fun hmem =>
      hnewest ((h.logged ticks).mp hmem).1
  · rw [hwatch]
    refine ⟨rfl, h.fixed, h.torn, h.logged, fun ticks' => ?_⟩
    rw [List.mem_append, List.mem_singleton, Prod.mk_right_inj, h.stored ticks', false_and,
      false_or, true_and, and_iff_right hne]

/-- A tick goes into the memtable before it is counted. -/
theorem moves_touch (hinv : SameOrder c jobs s₀ γ) {x : Tick}
    (h : Stands jobs i [x] True False γ.1.1.symbolDict γ.2) (hmemtable : (.memtable, .write) ∈ held)
    (hprimary : (.symbolDict, .write) ∈ held)
    (hgood : good (({ γ.1.1 with memtable := γ.1.1.memtable.insert x }, time), γ.2)) :
    (keepsOrder c jobs s₀).Moves i held γ
      ({ γ.1.1 with memtable := γ.1.1.memtable.insert x }, time) good := by
  have hticks : rowsOf jobs i γ.1.1.symbolDict = [x] := h.rowsOf_eq List.prefix_rfl
  have hwatch : watchOrders c jobs i γ.1
      ({ γ.1.1 with memtable := γ.1.1.memtable.insert x }, time) γ.2 = γ.2 := by
    refine watchOrders_of_same rfl rfl (Or.inr ?_)
    rw [hticks]
    rfl
  have hflight : γ.2.InFlight (i, [x]) :=
    Or.inl ⟨(h.logged [x]).mpr ⟨trivial, List.cons_ne_nil _ _, rfl⟩,
      fun hmem => ((h.stored [x]).mp hmem).1⟩
  refine moves_of hinv h.lt_length List.prefix_rfl rfl rfl (Or.inr hmemtable)
    (Or.inr (Or.inl hprimary)) (fun _ _ hagrees => ?_) ?_
  · rw [hwatch]
    refine hagrees.touch rfl hflight fun key hkey => ?_
    exact get_insertAll_of_forall_ne γ.1.1.memtable hkey
  · rw [hwatch]
    exact hgood

/-- A batch that stops in the middle leaves some rows in the memtable. -/
theorem moves_spoil (hinv : SameOrder c jobs s₀ γ) (h : Stands jobs i [] logged stored γ.1.1.symbolDict γ.2)
    (rows : List Tick) (hmemtable : (.memtable, .write) ∈ held)
    (hprimary : (.symbolDict, .write) ∈ held) :
    (keepsOrder c jobs s₀).Moves i held γ (γ.1.1.take rows, time) fun _ => True := by
  have hticks : rowsOf jobs i (γ.1.1.take rows).symbolDict = [] := h.rowsOf_eq List.prefix_rfl
  refine moves_of hinv h.lt_length List.prefix_rfl rfl rfl (Or.inr hmemtable)
    (Or.inr (Or.inl hprimary)) (fun _ htorn hagrees => ?_) trivial
  by_cases hsame : (γ.1.1.take rows).memtable = γ.1.1.memtable
  · have hagrees' : Agrees c s₀ (γ.1.1.take rows) γ.2 :=
      ⟨hagrees.wal, fun key hkey => hsame ▸ hagrees.memtable key hkey⟩
    unfold watchOrders
    dsimp only
    have hwal : (γ.1.1.take rows).wal = γ.1.1.wal := rfl
    simp only [hticks, hwal, hsame, ne_eq, not_true_eq_false, false_and, if_false, true_or,
      and_self, if_true]
    split_ifs
    · exact hagrees'
    · exact hagrees'.store (e := (i, [])) rfl (fun _ _ => rfl) fun _ x hx => by cases hx
  · unfold watchOrders at htorn
    dsimp only at htorn
    rw [hticks, if_neg] at htorn
    · exact absurd htorn (List.cons_ne_nil _ _)
    · exact fun h => h.2.elim hsame hsame

end Moves

end Rules

section Operations
open LsmTree LockDiscipline

variable {c : Codec} {jobs : List Job} {s₀ : LsmTree} {i : Nat} {held : Held Lock}
  {γ : (LsmTree × Nat) × Orders} {job : Job} {p : Platform} {env : Env}

/-- Below the threshold, if the first part of a call comes to its end. -/
def Through (s₀ : LsmTree) (i : Nat) (r : Except (Stop LsmError) Nat)
    (γ : (LsmTree × Nat) × Orders) : Prop :=
  ∀ len, r = .ok len → len < s₀.flushThreshold ∧ Settled i γ.2

theorem Through.stable {r : Except (Stop LsmError) Nat} (h : Through s₀ i r γ) :
    (keepsOrder c jobs s₀).Stable i held (Through s₀ i r) γ :=
  fun _ hrely _ len hlen => ⟨(h len hlen).1, (h len hlen).2.stable hrely⟩

/-- The call is through when it returns normally. -/
def Done {α : Type} (i : Nat) (r : Except (Stop LsmError) α) (γ : (LsmTree × Nat) × Orders) :
    Prop :=
  ∀ a, r = .ok a → Settled i γ.2

theorem Done.stable {α : Type} {r : Except (Stop LsmError) α} (h : Done i r γ) :
    (keepsOrder c jobs s₀).Stable i held (Done i r) γ :=
  fun _ hrely _ a ha => (h a ha).stable hrely

theorem stable_error {α : Type} (P : α → (LsmTree × Nat) × Orders → Prop) (e : Stop LsmError) :
    (keepsOrder c jobs s₀).Stable i held
      (fun γ => ∀ a, (.error e : Except (Stop LsmError) α) = .ok a → P a γ) γ :=
  fun _ _ _ a h => by cases h

/-- The end of the first part of a call. -/
theorem safe_len (h : Settled i γ.2) :
    (keepsOrder c jobs s₀).SafeOp i held (Through s₀ i)
      (gets (fun st => st.1.memtable.len) : LsmOp Nat) γ := by
  refine safe_gets fun γ₁ hrely₁ hinv₁ γ₂ hrely₂ _ len hlen => ?_
  cases hlen
  exact ⟨hinv₁.flushThreshold ▸ hinv₁.below, (h.stable hrely₁).stable hrely₂⟩

theorem safe_flushIfFull_orders {len : Nat} (hlen : len < s₀.flushThreshold) (h : Settled i γ.2)
    (hinv : SameOrder c jobs s₀ γ) :
    (keepsOrder c jobs s₀).SafeOp i held (Done i) (flushIfFull p env len) γ := by
  refine safe_bind hinv (safe_gets fun γ₁ hrely₁ hinv₁ γ₂ hrely₂ hinv₂ => ?_)
  have hbelow : ¬ len ≥ γ₁.1.1.flushThreshold := by
    rw [hinv₁.flushThreshold]
    exact Nat.not_le.mpr hlen
  dsimp only
  rw [if_neg hbelow]
  exact safe_pure fun γ₃ hrely₃ _ _ _ => ((h.stable hrely₁).stable hrely₂).stable hrely₃

/-- The call's ticks are appended to the log in a section of their own. -/
theorem safe_append {f : Nat → Wal → Except (Stop WalError) Nat × Wal} {ticks : List Tick}
    {stored : Prop} (h : Stands jobs i ticks False stored γ.1.1.symbolDict γ.2)
    (hf : ∀ time w n, (f time w).1 = .ok n → (f time w).2 = w.extend c (ticks.map .insert))
    (hprimary : (.symbolDict, .write) ∈ held ∨ γ.1.1.role ≠ .primary)
    (hearly : stored → (.memtable, .write) ∈ held ∧
      ∀ x, LastIn ticks x → γ.1.1.memtable.get x.key = some x) :
    (keepsOrder c jobs s₀).SafeOp i held (fun r γ' => ∀ n, r = .ok n →
        γ'.1.1.role = γ.1.1.role ∧ Stands jobs i ticks True stored γ'.1.1.symbolDict γ'.2 ∧
        ((.symbolDict, .write) ∈ held → γ.1.1.role = .primary →
          ∀ x, LastIn ticks x → LastIn γ'.2.ticks x))
      (withGuard .wal .write (attempt (onWal f)) : LsmOp Nat) γ := by
  refine safe_withGuard fun γ₁ hrely₁ _ => safe_attempt ?_
  rintro ⟨⟨s₂, time₂⟩, g₂⟩ hrely₂ hinv₂
  have hrely : KeepsGuarded i held γ ((s₂, time₂), g₂) := hrely₁.trans hrely₂.drop
  have hprimary₂ : (.symbolDict, .write) ∈ held ∨ s₂.role ≠ .primary := by
    rw [show s₂.role = γ.1.1.role from hrely.role]
    exact hprimary
  have hearly₂ : stored → ∀ x, LastIn ticks x → s₂.memtable.get x.key = some x := by
    intro hstored
    rw [show s₂.memtable = γ.1.1.memtable from hrely.memtable (hearly hstored).1]
    exact (hearly hstored).2
  refine (moves_append_orders hinv₂ (h.stable hrely) (f time₂ s₂.wal).2
    (hprimary₂.imp_left (List.mem_cons_of_mem _)) hearly₂).mono
    fun γ₃ _ hgood γ₄ hrely₄ _ γ₅ hrely₅ _ n hn => ?_
  have hok : (f time₂ s₂.wal).1 = .ok n := by
    rw [onWal] at hn
    cases hresult : (f time₂ s₂.wal).1 with
    | error e =>
      rw [hresult] at hn
      cases hn
    | ok n' =>
      rw [hresult] at hn
      cases hn
      rfl
  obtain ⟨-, hrole, hstands, hticks⟩ := hgood (hf time₂ s₂.wal n hok)
  have hrely' : KeepsGuarded i held γ₃ γ₅ := hrely₄.drop.trans hrely₅
  refine ⟨hrely'.role.trans (hrole.trans hrely.role), hstands.stable hrely', ?_⟩
  intro hheld hr x hx
  rw [Orders.ticks, (hrely'.primary hheld (hrole.trans (hrely.role.trans hr))).2, ← Orders.ticks,
    hticks]
  exact hx.append _

/-- The tick of an `insert` is the newest of the log, and nobody else writes. -/
structure Placed (jobs : List Job) (i : Nat) (x : Tick) (γ : (LsmTree × Nat) × Orders) : Prop where
  role : γ.1.1.role = .primary
  stands : Stands jobs i [x] True False γ.1.1.symbolDict γ.2
  newest : LastIn γ.2.ticks x

theorem Placed.stable {x : Tick} {γ' : (LsmTree × Nat) × Orders} (h : Placed jobs i x γ)
    (hheld : (.symbolDict, .write) ∈ held) (hrely : KeepsGuarded i held γ γ') :
    Placed jobs i x γ' ∧ γ'.1.1.memtable = γ.1.1.memtable := by
  obtain ⟨hmemtable, hlogged⟩ := hrely.primary hheld h.role
  refine ⟨⟨hrely.role.trans h.role, h.stands.stable hrely, ?_⟩, hmemtable⟩
  rw [Orders.ticks, hlogged]
  exact h.newest

/-- What `insert` does once its tick is in the log. -/
theorem safe_insertPlaced {x : Tick} (hinv : SameOrder c jobs s₀ γ) (h : Placed jobs i x γ) :
    (keepsOrder c jobs s₀).SafeOp i [(.symbolDict, .write)] (Through s₀ i) (do
      withGuard .memtable .write (attempt (insertMemtable x))
      attempt countRow
      withGuard .memtable .read (gets fun st => st.1.memtable.len) : LsmOp Nat) γ := by
  have hheld : (Lock.symbolDict, Mode.write) ∈ [(Lock.symbolDict, Mode.write)] := by decide
  refine safe_bind hinv (safe_withGuard fun γ₁ hrely₁ _ => safe_attempt ?_)
  rintro ⟨⟨s₂, time₂⟩, g₂⟩ hrely₂ hinv₂
  obtain ⟨h₂, -⟩ := h.stable hheld (hrely₁.trans hrely₂.drop)
  refine moves_touch hinv₂ h₂.stands (by decide) (by decide) fun γ₃ hrely₃ _ γ₄ hrely₄ hinv₄ => ?_
  have htouched : Placed jobs i x
      (({ s₂ with memtable := s₂.memtable.insert x }, time₂), g₂) := ⟨h₂.role, h₂.stands, h₂.newest⟩
  obtain ⟨h₄, hmemtable₄⟩ := htouched.stable hheld (hrely₃.drop.trans hrely₄)
  refine safe_bind hinv₄ (safe_attempt ?_)
  rintro ⟨⟨s₅, time₅⟩, g₅⟩ hrely₅ hinv₅
  obtain ⟨h₅, hmemtable₅⟩ := h₄.stable hheld hrely₅
  have hget : s₅.memtable.get x.key = some x := by
    rw [show s₅.memtable = s₂.memtable.insert x from hmemtable₅.trans hmemtable₄,
      SkipList.get_insert, if_pos rfl]
  refine (moves_store_orders hinv₅ (s := { s₅ with totalRows := s₅.totalRows + 1 }) h₅.stands
    List.prefix_rfl rfl rfl rfl rfl (Or.inl rfl) (Or.inl hheld) fun _ _ y hy => ?_).mono
    fun γ₆ _ hgood γ₇ hrely₇ _ => ?_
  · obtain ⟨hmem, -⟩ := firstAt_eq_some Tick.key hy
    obtain rfl : y = x := List.mem_singleton.mp hmem
    exact ⟨hget, h₅.newest⟩
  · have hsettled : Settled i γ₇.2 := hgood.2.settled.stable hrely₇
    exact safe_withGuard fun γ₈ hrely₈ _ =>
      SafeOp.mono (fun _ _ _ hr => hr.stable) (safe_len (hsettled.stable hrely₈))

theorem safe_storeTick {symbol : String} {tick : Tick} (hinv : SameOrder c jobs s₀ γ)
    (hjob : jobs[i]? = some (.write (.insertion (.insert symbol tick))))
    (h : Untouched i γ.2) (hrole : γ.1.1.role = .primary) :
    (keepsOrder c jobs s₀).SafeOp i [(.symbolDict, .write)] (Through s₀ i)
      (storeTick c env symbol tick) γ := by
  refine safe_bind hinv (safe_attempt ?_)
  rintro ⟨⟨s₁, time₁⟩, g₁⟩ hrely₁ hinv₁
  have hfixed : Job.Fixed (.write (.insertion (.insert symbol tick)))
      [tick.withSymbol (s₁.symbolDict.getOrInsert symbol).1]
      (s₁.symbolDict.getOrInsert symbol).2 := InsertCall.fixed_of_stored rfl
  have hlt : i < jobs.length := (List.getElem?_eq_some_iff.mp hjob).1
  refine moves_same hinv₁ hlt (s₁.symbolDict.prefix_getOrInsert symbol) rfl rfl rfl rfl rfl ?_
  intro γ₂ hrely₂ hinv₂
  have hstands := ((h.stable hrely₁).stands hjob hfixed).stable hrely₂
  have hrole₂ : γ₂.1.1.role = .primary := hrely₂.role.trans (hrely₁.role.trans hrole)
  refine safe_bind hinv₂ (SafeOp.mono ?_ (safe_append hstands (fun time w n hn => ?_)
    (Or.inl (by decide)) False.elim))
  · rintro (e | n) γ₃ hinv₃ hr
    · exact stable_error _ e
    · obtain ⟨hrole₃, hstands₃, hnewest⟩ := hr n rfl
      refine safe_insertPlaced hinv₃ ⟨hrole₃.trans hrole₂, hstands₃, ?_⟩
      exact hnewest (by decide) hrole₂ _ (lastIn_singleton _)
  · exact (Wal.append_eq_ok (Prod.ext hn rfl)).1

/-- The memtable guard is held from the first row to the end of the append. -/
theorem safe_log_early {ticks : List Tick} (hinv : SameOrder c jobs s₀ γ)
    (h : Stands jobs i ticks False True γ.1.1.symbolDict γ.2)
    (hget : ∀ x, LastIn ticks x → γ.1.1.memtable.get x.key = some x) :
    (keepsOrder c jobs s₀).SafeOp i [(.memtable, .write), (.symbolDict, .write)] (Through s₀ i) (do
      let _ ← withGuard .wal .write (attempt (appendWalBatch c env (ticks.map .insert)))
      gets fun st => st.1.memtable.len : LsmOp Nat) γ := by
  refine safe_bind hinv (SafeOp.mono ?_ (safe_append h (fun time w n hn => ?_)
    (Or.inl (by decide)) fun _ => ⟨by decide, hget⟩))
  · rintro (e | n) γ₃ _ hr
    · exact stable_error _ e
    · exact safe_len (hr n rfl).2.1.settled
  · exact (Wal.appendBatch_eq_ok (Prod.ext hn rfl)).1

/-- The rows of a batch go into the memtable first. -/
theorem moves_early {ticks : List Tick} {dict : SymbolDictionary} (hinv : SameOrder c jobs s₀ γ)
    (hdict : γ.1.1.symbolDict.idToSymbol <+: dict.idToSymbol)
    (h : Stands jobs i ticks False False dict γ.2) :
    (keepsOrder c jobs s₀).Moves i [(.memtable, .write), (.symbolDict, .write)] γ
      ((γ.1.1.withDict dict).take ticks, γ.1.2)
      ((keepsOrder c jobs s₀).Stable i [(.memtable, .write), (.symbolDict, .write)]
        ((keepsOrder c jobs s₀).SafeOp i [(.memtable, .write), (.symbolDict, .write)]
          (Through s₀ i) (do
            let _ ← withGuard .wal .write (attempt (appendWalBatch c env (ticks.map .insert)))
            gets fun st => st.1.memtable.len : LsmOp Nat))) := by
  refine (moves_store_orders hinv (s := (γ.1.1.withDict dict).take ticks) h hdict rfl rfl rfl rfl
    (Or.inr ⟨rfl, by decide⟩) (Or.inl (by decide)) fun _ hfalse => hfalse.elim).mono
    fun γ₁ _ hgood γ₂ hrely₂ hinv₂ => ?_
  obtain ⟨hstate, hstands⟩ := hgood
  have hstands₁ : Stands jobs i ticks False True γ₁.1.1.symbolDict γ₁.2 := by
    rw [hstate]
    exact hstands
  refine safe_log_early hinv₂ (hstands₁.stable hrely₂) fun x hx => ?_
  rw [show γ₂.1.1.memtable = γ₁.1.1.memtable from hrely₂.memtable (by decide), hstate]
  exact get_insertAll_of_lastIn γ.1.1.memtable hx

theorem safe_storeBatch {symbol : String} {batch : TickBatch} (hinv : SameOrder c jobs s₀ γ)
    (hjob : jobs[i]? = some (.write (.insertion (.insertBatch symbol batch))))
    (h : Untouched i γ.2) :
    (keepsOrder c jobs s₀).SafeOp i [(.symbolDict, .write)] (Through s₀ i)
      (storeBatch c env symbol batch) γ := by
  refine safe_bind hinv (safe_attempt ?_)
  rintro ⟨⟨s₁, time₁⟩, g₁⟩ hrely₁ hinv₁
  have huntouched₁ : Untouched i g₁ := h.stable hrely₁
  have hlt : i < jobs.length := (List.getElem?_eq_some_iff.mp hjob).1
  refine moves_same hinv₁ hlt (s₁.symbolDict.prefix_getOrInsert symbol) rfl rfl rfl rfl rfl ?_
  intro γ₂ hrely₂ hinv₂
  have huntouched : Untouched i γ₂.2 := by
    refine Untouched.stable ?_ hrely₂
    exact huntouched₁
  refine safe_withGuard fun γ₃ hrely₃ hinv₃ =>
    SafeOp.mono (fun _ _ _ (hr : Through s₀ i _ _) => hr.stable) ?_
  refine safe_bind hinv₃ (safe_attempt ?_)
  rintro ⟨⟨s₄, time₄⟩, g₄⟩ hrely₄ hinv₄
  have huntouched₄ : Untouched i g₄ := (huntouched.stable hrely₃).stable hrely₄
  have hgrown : (s₁.symbolDict.getOrInsert symbol).2.idToSymbol <+: s₄.symbolDict.idToSymbol :=
    hrely₂.dict.trans (hrely₃.dict.trans hrely₄.dict)
  have hid := SymbolDictionary.getOrInsert_of_grown hgrown
  cases hticks : batch.ticks (s₁.symbolDict.getOrInsert symbol).1 with
  | none =>
    obtain ⟨rows, hloop, -⟩ := batchLoop_of_none hticks s₄ time₄
    have hfixed : Job.Fixed (.write (.insertion (.insertBatch symbol batch))) [] s₄.symbolDict := by
      intro e he
      have hid := SymbolDictionary.getOrInsert_of_grown (hgrown.trans he)
      simp only [Job.rows, InsertCall.rows, InsertCall.stored, hid, hticks]
      rfl
    dsimp only
    rw [hloop]
    refine (moves_spoil hinv₄ (huntouched₄.stands hjob hfixed) rows (by decide) (by decide)).mono
      fun γ₅ _ _ => ?_
    exact fun γ₆ _ _ => stable_error _ _
  | some ticks =>
    have hstored : (InsertCall.insertBatch symbol batch).stored s₁.symbolDict =
        some (ticks, (s₁.symbolDict.getOrInsert symbol).2) := by
      rw [InsertCall.stored, hticks]
      rfl
    have hfixed := (InsertCall.fixed_of_stored hstored).mono hgrown
    dsimp only
    rw [batchLoop_of_some hticks s₄ time₄]
    exact moves_early hinv₄ List.prefix_rfl (huntouched₄.stands hjob hfixed)

theorem safe_storeMulti {symbolTicks : List SymbolTick}
    (hjob : jobs[i]? = some (.write (.insertion (.insertMulti symbolTicks))))
    (h : Untouched i γ.2) :
    (keepsOrder c jobs s₀).SafeOp i [(.symbolDict, .write)] (Through s₀ i)
      (storeMulti c env symbolTicks) γ := by
  refine safe_withGuard fun γ₁ hrely₁ hinv₁ =>
    SafeOp.mono (fun _ _ _ (hr : Through s₀ i _ _) => hr.stable) ?_
  refine safe_bind hinv₁ (safe_attempt ?_)
  rintro ⟨⟨s₂, time₂⟩, g₂⟩ hrely₂ hinv₂
  have huntouched : Untouched i g₂ := (h.stable hrely₁).stable hrely₂
  have hfixed : Job.Fixed (.write (.insertion (.insertMulti symbolTicks)))
      (s₂.symbolDict.intern symbolTicks).1 (s₂.symbolDict.intern symbolTicks).2 :=
    InsertCall.fixed_of_stored rfl
  dsimp only
  rw [multiLoop_eq symbolTicks s₂ time₂]
  exact moves_early hinv₂ (InsertCall.intern_spec s₂.symbolDict symbolTicks).1
    (huntouched.stands hjob hfixed)

/-- The part of an insert call up to the test of the threshold. -/
theorem safe_store_orders {call : InsertCall} (hinv : SameOrder c jobs s₀ γ)
    (hjob : jobs[i]? = some (.write (.insertion call))) (h : Untouched i γ.2)
    (hrole : call.refused γ.1.1.role = false) :
    (keepsOrder c jobs s₀).SafeOp i [(.symbolDict, .write)] (Through s₀ i) (call.store c env) γ := by
  cases call with
  | insert symbol tick =>
    have hprimary : γ.1.1.role = .primary := by
      cases hr : γ.1.1.role with
      | primary => rfl
      | replica =>
        rw [hr] at hrole
        cases hrole
    exact safe_storeTick hinv hjob h hprimary
  | insertBatch symbol batch => exact safe_storeBatch hinv hjob h
  | insertMulti ticks => exact safe_storeMulti hjob h

theorem safe_guarded_orders {call : InsertCall} (hjob : jobs[i]? = some (.write (.insertion call)))
    (h : Untouched i γ.2) (hrole : call.refused γ.1.1.role = false) :
    (keepsOrder c jobs s₀).SafeOp i [] (Done i)
      (withGuard .symbolDict .write (call.store c env >>= flushIfFull p env) : LsmOp Unit) γ := by
  refine safe_withGuard fun γ₁ hrely₁ hinv₁ =>
    SafeOp.mono (fun _ _ _ (hr : Done i _ _) => hr.stable) ?_
  have hrole₁ : call.refused γ₁.1.1.role = false := by
    rw [show γ₁.1.1.role = γ.1.1.role from hrely₁.role]
    exact hrole
  refine safe_bind hinv₁ (SafeOp.mono ?_ (safe_store_orders hinv₁ hjob (h.stable hrely₁) hrole₁))
  rintro (e | len) γ₂ hinv₂ hr
  · exact stable_error _ e
  · exact safe_flushIfFull_orders (hr len rfl).1 (hr len rfl).2 hinv₂

theorem safe_insertCall_orders {call : InsertCall} (hinv : SameOrder c jobs s₀ γ)
    (hjob : jobs[i]? = some (.write (.insertion call))) (h : Untouched i γ.2) :
    (keepsOrder c jobs s₀).SafeOp i [] (Done i) (call.op p c env) γ := by
  cases call with
  | insert symbol tick =>
    refine safe_bind hinv (safe_gets fun γ₁ hrely₁ _ γ₂ hrely₂ _ => ?_)
    have huntouched : Untouched i γ₂.2 := (h.stable hrely₁).stable hrely₂
    dsimp only
    split_ifs with hreplica
    · exact safe_throw (stable_error _ _)
    · refine safe_guarded_orders hjob huntouched ?_
      rw [show γ₂.1.1.role = γ₁.1.1.role from hrely₂.role]
      simpa [InsertCall.refused] using hreplica
  | insertBatch symbol batch =>
    rw [InsertCall.op, LsmTree.insertBatch]
    split_ifs
    · exact safe_pure fun γ' hrely _ _ _ => h.settled.stable hrely
    · exact safe_guarded_orders hjob h rfl
  | insertMulti ticks =>
    rw [InsertCall.op, LsmTree.insertMulti]
    split_ifs
    · exact safe_pure fun γ' hrely _ _ _ => h.settled.stable hrely
    · exact safe_guarded_orders hjob h rfl

/-- The memtable section of a replicated batch, while its ticks are the newest of the log. -/
theorem safe_storeResolved {entries : List ReplicationEntry} {ticks : List Tick}
    (hjob : jobs[i]? = some (.write (.applyReplicationBatch entries)))
    (h : Stands jobs i ticks True False γ.1.1.symbolDict γ.2) (hrole : γ.1.1.role ≠ .primary) :
    (keepsOrder c jobs s₀).SafeOp i [] (Through s₀ i) (withGuard .memtable .write do
      attempt (insertResolved ticks)
      gets fun st => st.1.memtable.len : LsmOp Nat) γ := by
  refine safe_withGuard fun γ₁ hrely₁ hinv₁ =>
    SafeOp.mono (fun _ _ _ (hr : Through s₀ i _ _) => hr.stable) ?_
  refine safe_bind hinv₁ (safe_attempt ?_)
  rintro ⟨⟨s₂, time₂⟩, g₂⟩ hrely₂ hinv₂
  have hstands : Stands jobs i ticks True False s₂.symbolDict g₂ :=
    (h.stable hrely₁).stable hrely₂
  have hrole₂ : s₂.role ≠ .primary := by
    rw [show s₂.role = γ.1.1.role from hrely₂.role.trans hrely₁.role]
    exact hrole
  dsimp only
  rw [insertResolved_eq ticks s₂ time₂]
  refine (moves_store_orders hinv₂ (s := s₂.take ticks) hstands List.prefix_rfl rfl rfl rfl rfl
    (Or.inr ⟨rfl, by decide⟩) (Or.inr hrole₂) fun hallowed _ x hx => ?_).mono
    fun γ₃ _ hgood γ₄ hrely₄ _ => ?_
  · obtain ⟨hmem, -⟩ := firstAt_eq_some Tick.key hx
    have hcount : (s₂.take ticks).totalRows ≠ s₂.totalRows := by
      have hpos := List.length_pos_of_mem (List.mem_reverse.mp hmem)
      simp only [LsmTree.take]
      omega
    refine ⟨get_insertAll_of_lastIn s₂.memtable hx, hallowed.2 entries hjob hcount x ?_⟩
    rw [hstands.rowsOf_eq List.prefix_rfl]
    exact hx
  · exact safe_len (hgood.2.settled.stable hrely₄)

theorem safe_storeReplicated_orders {entries : List ReplicationEntry}
    (hinv : SameOrder c jobs s₀ γ)
    (hjob : jobs[i]? = some (.write (.applyReplicationBatch entries))) (h : Untouched i γ.2)
    (hrole : γ.1.1.role ≠ .primary) :
    (keepsOrder c jobs s₀).SafeOp i [] (Through s₀ i) (storeReplicated c env entries) γ := by
  have hlt : i < jobs.length := (List.getElem?_eq_some_iff.mp hjob).1
  refine safe_bind hinv (safe_withGuard fun γ₁ hrely₁ _ => safe_attempt ?_)
  rintro ⟨⟨s₂, time₂⟩, g₂⟩ hrely₂ hinv₂
  have huntouched : Untouched i g₂ := (h.stable hrely₁).stable hrely₂
  have hrole₂ : s₂.role = γ.1.1.role := hrely₂.role.trans hrely₁.role
  have hfixed : Job.Fixed (.write (.applyReplicationBatch entries))
      (s₂.symbolDict.resolveEntries entries).1 (s₂.symbolDict.resolveEntries entries).2 := by
    intro e he
    rw [Job.rows, SymbolDictionary.resolveEntries_of_grown he]
  dsimp only
  rw [resolve_eq entries s₂ time₂]
  refine moves_same hinv₂ hlt (s₂.symbolDict.prefix_resolveEntries entries) rfl rfl rfl rfl rfl ?_
  have hstands := huntouched.stands hjob hfixed
  intro γ₃ hrely₃ _ γ₄ hrely₄ hinv₄
  have hstands₄ := (hstands.stable hrely₃).stable hrely₄
  have hrole₄ : γ₄.1.1.role ≠ .primary := by
    rw [show γ₄.1.1.role = γ.1.1.role from hrely₄.role.trans (hrely₃.role.trans hrole₂)]
    exact hrole
  refine safe_bind hinv₄ (SafeOp.mono ?_ (safe_append hstands₄ (fun time w n hn => ?_)
    (Or.inr hrole₄) False.elim))
  · rintro (e | n) γ₅ _ hr
    · exact stable_error _ e
    · obtain ⟨hrole₅, hstands₅, -⟩ := hr n rfl
      exact safe_storeResolved hjob hstands₅ (hrole₅ ▸ hrole₄)
  · exact (Wal.appendBatch_eq_ok (Prod.ext hn rfl)).1

/-- The replication state is all that changes. -/
theorem advance_eq (env : Env) (sequence : Nat) (s : LsmTree) (time : Nat) :
    ∃ last time', (LsmTree.advance env sequence (s, time)).2 =
      ({ s with lastPrimarySequence := last }, time') := by
  rw [LsmTree.advance, DiskM.current_bind]
  split_ifs
  · exact ⟨_, _, rfl⟩
  · exact ⟨_, _, rfl⟩

theorem safe_applyReplicationBatch_orders {entries : List ReplicationEntry}
    (hinv : SameOrder c jobs s₀ γ)
    (hjob : jobs[i]? = some (.write (.applyReplicationBatch entries))) (h : Untouched i γ.2) :
    (keepsOrder c jobs s₀).SafeOp i [] (Done i) (applyReplicationBatch p c env entries) γ := by
  have hlt : i < jobs.length := (List.getElem?_eq_some_iff.mp hjob).1
  unfold applyReplicationBatch
  split_ifs
  · exact safe_pure fun γ' hrely _ _ _ => h.settled.stable hrely
  refine safe_bind hinv (safe_gets fun γ₁ hrely₁ _ γ₂ hrely₂ hinv₂ => ?_)
  have huntouched : Untouched i γ₂.2 := (h.stable hrely₁).stable hrely₂
  dsimp only
  split_ifs with hreplica
  · exact safe_throw (stable_error _ _)
  have hrole : γ₂.1.1.role ≠ .primary := by
    rw [show γ₂.1.1.role = γ₁.1.1.role from hrely₂.role, not_not.mp hreplica]
    exact fun h => by cases h
  refine safe_bind hinv₂ (SafeOp.mono ?_ (safe_storeReplicated_orders hinv₂ hjob huntouched hrole))
  rintro (e | len) γ₃ hinv₃ hr
  · exact stable_error _ e
  obtain ⟨hlen, hsettled⟩ := hr len rfl
  refine safe_bind hinv₃ (SafeOp.mono ?_ (safe_flushIfFull_orders hlen hsettled hinv₃))
  rintro (e | _) γ₄ hinv₄ hr
  · exact stable_error _ e
  have hsettled₄ : Settled i γ₄.2 := hr () rfl
  refine safe_bind hinv₄ (safe_withGuard fun γ₅ hrely₅ _ => safe_attempt ?_)
  rintro ⟨⟨s₆, time₆⟩, g₆⟩ hrely₆ hinv₆
  have hsettled₆ : Settled i g₆ := (hsettled₄.stable hrely₅).stable hrely₆
  obtain ⟨last, time₇, hadvance⟩ := advance_eq env
    (((entries.map ReplicationEntry.sequence).max?).getD 0) s₆ time₆
  dsimp only
  rw [hadvance]
  refine moves_same hinv₆ hlt List.prefix_rfl rfl rfl rfl rfl rfl fun γ₇ hrely₇ _ γ₈ hrely₈ _ => ?_
  have hsettled₇ : Settled i γ₇.2 := by
    refine Settled.stable ?_ hrely₇
    exact hsettled₆
  split
  · exact safe_pure fun γ₉ hrely₉ _ _ _ => (hsettled₇.stable hrely₈).stable hrely₉
  · exact stable_error _ _

theorem safe_op_orders {call : WriteCall} (hinv : SameOrder c jobs s₀ γ)
    (hjob : jobs[i]? = some (.write call)) (h : Untouched i γ.2) :
    (keepsOrder c jobs s₀).SafeOp i [] (Done i) (call.op p c env) γ := by
  cases call with
  | insertion call => exact safe_insertCall_orders hinv hjob h
  | applyReplicationBatch entries =>
    refine safe_bind hinv (SafeOp.mono ?_ (safe_applyReplicationBatch_orders hinv hjob h))
    rintro (e | n) γ₁ _ hr
    · exact stable_error _ e
    · exact safe_pure fun γ₂ hrely _ _ _ => (hr n rfl).stable hrely

end Operations

/-- Write calls of several threads, about to start. -/
def writing (p : Platform) (c : Codec) (env : Env) (calls : List WriteCall) (s : LsmTree)
    (time : Nat) : Config Lock (LsmTree × Nat) Orders (Except (Stop LsmError) Unit) :=
  Config.start (calls.map (WriteCall.op p c env)) (s, time) ⟨[], [], []⟩

/-- A replicated batch goes into the memtable only while each version it leaves there is the
newest of its key in the log. -/
def ReplicatesNewest (calls : List WriteCall)
    (cfg : Config Lock (LsmTree × Nat) Orders (Except (Stop LsmError) Unit)) (i : Nat) : Bool :=
  match cfg.threads[i]?, calls[i]? with
  | some ⟨_, .act f _⟩, some (.applyReplicationBatch entries) =>
    let ticks := (cfg.state.1.symbolDict.resolveEntries entries).1
    (f cfg.state).1.totalRows = cfg.state.1.totalRows ||
      ticks.all fun x => !decide (LastIn ticks x) || decide (LastIn cfg.ghost.ticks x)
  | _, _ => true

/-- The log has got these ticks, and the memtable is what it was with the same ticks inserted
in the same order. -/
structure SameAsLog (c : Codec) (s₀ s : LsmTree) (ticks : List Tick) : Prop where
  wal : s.wal = s₀.wal.extend c (ticks.map .insert)
  memtable : s.memtable = s₀.memtable.insertAll ticks

/-- A restart finds the memtable as it is. -/
def RestartKeeps (c : Codec) (s : LsmTree) : Prop :=
  (Wal.open c s.wal.file).map (fun wal => LsmTree.recoverFromWal wal.replayed) = .ok s.memtable

instance (c : Codec) (s : LsmTree) : Decidable (RestartKeeps c s) :=
  inferInstanceAs (Decidable (_ = _))

section Runs
open LsmTree

variable {p : Platform} {c : Codec} {env : Env} {calls : List WriteCall} {s₀ : LsmTree}
  {time : Nat} {schedule : List Nat}

theorem SameAsLog.restart {s : LsmTree} {ticks : List Tick} (h : SameAsLog c s₀ s ticks)
    {first : Nat} {records : List WalRecord} (hcovers : LogCovers c s₀ first records)
    (hmemtable : s₀.memtable = recoverFromWal records) (hinverts : ∀ x ∈ ticks, c.Inverts (.insert x))
    (hsequence : s.wal.sequence < 2 ^ 64) :
    RestartKeeps c s := by
  have hcount : s.wal.sequence = first + (records ++ ticks.map WalRecord.insert).length := by
    rw [h.wal, List.length_append, ← Nat.add_assoc, ← hcovers.sequence]
    rfl
  have hrecovered : recoverFromWal (records ++ ticks.map .insert) = s.memtable := by
    rw [recoverFromWal_append, ← hmemtable, h.memtable]
  have hcovers' : LogCovers c s first (records ++ ticks.map .insert) := by
    refine ⟨?_, hcount, hcount ▸ hsequence, ?_, fun x hx => hrecovered ▸ hx⟩
    · rw [Wal.logBytes_append, ← hcovers.file, ← hcovers.sequence, h.wal]
      rfl
    · refine List.forall_mem_append.mpr ⟨hcovers.inverts, fun r hr => ?_⟩
      obtain ⟨x, hx, rfl⟩ := List.mem_map.mp hr
      exact hinverts x hx
  obtain ⟨wal, hwal, hreplayed⟩ := hcovers'.open_eq
  rw [RestartKeeps, hwal, ← hrecovered, ← hreplayed]
  rfl

theorem permits_of_newest
    {cfg : Config Lock (LsmTree × Nat) Orders (Except (Stop LsmError) Unit)} {i : Nat}
    (hbelow : (cfg.step (watchOrders c (calls.map .write)) i).state.1.memtable.len <
      (cfg.step (watchOrders c (calls.map .write)) i).state.1.flushThreshold)
    (hnewest : ReplicatesNewest calls cfg i = true) :
    cfg.Permits (keepsOrder c (calls.map .write) s₀) i := by
  intro held f rest hthread
  have hstep : (cfg.step (watchOrders c (calls.map .write)) i).state = f cfg.state := by
    unfold Config.step
    rw [hthread]
  rw [hstep] at hbelow
  refine ⟨hbelow, fun entries hjob hcount x hx => ?_⟩
  obtain ⟨call, hcall, heq⟩ := Option.map_eq_some_iff.mp (List.getElem?_map.symm.trans hjob)
  obtain rfl : call = .applyReplicationBatch entries := Job.write.inj heq
  have hrows : rowsOf (calls.map .write) i cfg.state.1.symbolDict =
      (cfg.state.1.symbolDict.resolveEntries entries).1 := by
    rw [rowsOf, hjob]
    rfl
  rw [hrows] at hx
  simp only [ReplicatesNewest, hthread, hcall, Bool.or_eq_true, decide_eq_true_eq,
    List.all_eq_true, Bool.not_eq_true', decide_eq_false_iff_not] at hnewest
  obtain ⟨hmem, -⟩ := firstAt_eq_some Tick.key hx
  rcases hnewest with h | h
  · exact absurd h hcount
  · exact (h x (List.mem_reverse.mp hmem)).resolve_left (not_not.mpr hx)

theorem guarded_permits
    {cfg : Config Lock (LsmTree × Nat) Orders (Except (Stop LsmError) Unit)}
    (hbelow : Always (Config.step (watchOrders c (calls.map .write)))
      (fun cfg => cfg.state.1.memtable.len < cfg.state.1.flushThreshold) cfg schedule)
    (hnewest : Guarded (Config.step (watchOrders c (calls.map .write)))
      (fun cfg i => ReplicatesNewest calls cfg i = true) cfg schedule) :
    Guarded (Config.step (watchOrders c (calls.map .write)))
      (Config.Permits (keepsOrder c (calls.map .write) s₀)) cfg schedule := by
  induction schedule generalizing cfg with
  | nil => trivial
  | cons i schedule ih =>
    obtain ⟨-, hrest⟩ := (always_cons_iff cfg i schedule).mp hbelow
    exact ⟨permits_of_newest (hrest [] List.nil_prefix) hnewest.1, ih hrest hnewest.2⟩

/-- Any write calls of any number of threads, below the threshold: when all have returned
normally, the memtable is what the log says. If it was so when the run started, a restart
finds the same memtable. -/
theorem memory_follows_log (p : Platform) (c : Codec) (env : Env) (calls : List WriteCall)
    (s₀ : LsmTree) (time : Nat) (schedule : List Nat)
    (hbelow : Always (Config.step (watchOrders c (calls.map .write)))
      (fun cfg => cfg.state.1.memtable.len < cfg.state.1.flushThreshold)
      (writing p c env calls s₀ time) schedule)
    (hnewest : Guarded (Config.step (watchOrders c (calls.map .write)))
      (fun cfg i => ReplicatesNewest calls cfg i = true) (writing p c env calls s₀ time) schedule)
    (hreturned : ∀ i < calls.length, (run (Config.step (watchOrders c (calls.map .write)))
      (writing p c env calls s₀ time) schedule).resultAt i = some (.ok ())) :
    ∃ ticks, SameAsLog c s₀ (run (Config.step (watchOrders c (calls.map .write)))
        (writing p c env calls s₀ time) schedule).state.1 ticks ∧
      ∀ first records, LogCovers c s₀ first records → s₀.memtable = recoverFromWal records →
        (∀ x ∈ ticks, c.Inverts (.insert x)) →
        (run (Config.step (watchOrders c (calls.map .write)))
          (writing p c env calls s₀ time) schedule).state.1.wal.sequence < 2 ^ 64 →
        RestartKeeps c (run (Config.step (watchOrders c (calls.map .write)))
          (writing p c env calls s₀ time) schedule).state.1 := by
  have hinv : SameOrder c (calls.map .write) s₀ ((s₀, time), ⟨[], [], []⟩) := by
    refine ⟨hbelow [] List.nil_prefix, rfl, rfl, List.forall_mem_nil _, List.forall_mem_nil _,
      fun _ => ⟨(Wal.extend_nil c _).symm, fun _ _ => rfl⟩⟩
  have hstart : (writing p c env calls s₀ time).Sane (keepsOrder c (calls.map .write) s₀) Done := by
    refine Config.sane_start hinv fun i op hop => ?_
    obtain ⟨call, hcall, rfl⟩ := Option.map_eq_some_iff.mp (List.getElem?_map.symm.trans hop)
    refine safe_op_orders hinv ?_ ⟨List.not_mem_nil, fun _ => List.not_mem_nil, fun _ => List.not_mem_nil⟩
    rw [List.getElem?_map, hcall]
    rfl
  have hsane := Config.always_sane hstart (guarded_permits hbelow hnewest) schedule List.prefix_rfl
  have hsettled {i : Nat} (hi : i < (calls.map Job.write).length) : Settled i (run (Config.step
      (watchOrders c (calls.map .write))) (writing p c env calls s₀ time) schedule).ghost := by
    rw [List.length_map] at hi
    exact hsane.post (hreturned i hi) () rfl
  have hagrees := hsane.inv.agrees (List.eq_nil_iff_forall_not_mem.mpr fun i hi =>
    (hsettled (hsane.inv.torn i hi)).torn hi)
  have hsame : SameAsLog c s₀ (run (Config.step (watchOrders c (calls.map .write)))
      (writing p c env calls s₀ time) schedule).state.1 (run (Config.step
        (watchOrders c (calls.map .write))) (writing p c env calls s₀ time) schedule).ghost.ticks :=
    ⟨hagrees.wal, hagrees.memtable_eq fun e he => ?_⟩
  · exact ⟨_, hsame, fun first records hcovers hmemtable hinverts hsequence =>
      hsame.restart hcovers hmemtable hinverts hsequence⟩
  rcases he with ⟨hlogged, hstored⟩ | ⟨hstored, hlogged⟩
  · have hlt := hsane.inv.threads e (List.mem_append_left _ hlogged)
    exact hstored (((hsettled hlt).iff e.2).mp hlogged)
  · have hlt := hsane.inv.threads e (List.mem_append_right _ hstored)
    exact hlogged (((hsettled hlt).iff e.2).mpr hstored)

/-- A tick of symbol A for the replica. -/
def replicated (sequence : Nat) (volume : UInt64) : WriteCall :=
  .applyReplicationBatch [⟨sequence, .insert (flatTick 0 5 volume), some "A"⟩]

set_option maxRecDepth 20000 in
/-- The second batch is logged when the first one is in the memtable. -/
theorem memory_follows_log_in_order :
    ∃ ticks, SameAsLog (Codec.forTicks [flatTick 0 5 1, flatTick 0 5 2]) (LsmTree.fresh 10 .replica)
      (run (Config.step (watchOrders (Codec.forTicks [flatTick 0 5 1, flatTick 0 5 2])
          ([replicated 0 1, replicated 1 2].map .write)))
        (writing .simple (Codec.forTicks [flatTick 0 5 1, flatTick 0 5 2]) .calm
          [replicated 0 1, replicated 1 2] (LsmTree.fresh 10 .replica) 0)
        (List.replicate 9 0 ++ [1, 1, 1] ++ List.replicate 6 0 ++ List.replicate 12 1)).state.1
      ticks := by
  obtain ⟨ticks, h, -⟩ := memory_follows_log .simple
    (Codec.forTicks [flatTick 0 5 1, flatTick 0 5 2]) .calm [replicated 0 1, replicated 1 2]
    (LsmTree.fresh 10 .replica) 0
    (List.replicate 9 0 ++ [1, 1, 1] ++ List.replicate 6 0 ++ List.replicate 12 1)
    (by decide +kernel) (by decide +kernel) (by decide +kernel)
  exact ⟨ticks, h⟩

/-- Two batches with the same key, logged in one order and stored in the other. -/
def crossed : Config Lock (LsmTree × Nat) Orders (Except (Stop LsmError) Unit) :=
  run (Config.step (watchOrders (Codec.forTicks [flatTick 0 5 1, flatTick 0 5 2])
      ([replicated 0 1, replicated 1 2].map .write)))
    (writing .simple (Codec.forTicks [flatTick 0 5 1, flatTick 0 5 2]) .calm
      [replicated 0 1, replicated 1 2] (LsmTree.fresh 10 .replica) 0)
    (List.replicate 7 0 ++ List.replicate 15 1 ++ List.replicate 8 0)

set_option maxRecDepth 20000 in
/-- The log ends with the second batch, the memtable has the tick of the first one. -/
theorem crossed_batches_disagree :
    (∀ i < 2, crossed.resultAt i = some (.ok ())) ∧
      crossed.state.1.memtable.len < crossed.state.1.flushThreshold ∧
      crossed.state.1.memtable.get ⟨0, 5⟩ = some (flatTick 0 5 1) ∧
      ¬ RestartKeeps (Codec.forTicks [flatTick 0 5 1, flatTick 0 5 2]) crossed.state.1 := by
  refine ⟨by decide +kernel, by decide +kernel, by decide +kernel, fun h => ?_⟩
  have hlog : SameAsLog (Codec.forTicks [flatTick 0 5 1, flatTick 0 5 2]) (LsmTree.fresh 10 .replica)
      { crossed.state.1 with
        memtable := SkipList.new.insertAll [flatTick 0 5 1, flatTick 0 5 2] }
      [flatTick 0 5 1, flatTick 0 5 2] := ⟨by decide +kernel, rfl⟩
  have hinverts : ∀ x ∈ [flatTick 0 5 1, flatTick 0 5 2],
      (Codec.forTicks [flatTick 0 5 1, flatTick 0 5 2]).Inverts (.insert x) := by
    refine List.forall_mem_cons.mpr ⟨⟨_, rfl, by decide +kernel, by decide +kernel⟩,
      List.forall_mem_singleton.mpr ⟨_, rfl, by decide +kernel, by decide +kernel⟩⟩
  have hrestart := hlog.restart (logCovers_fresh _ 10 .replica) rfl hinverts (by decide +kernel)
  have hmemtable : crossed.state.1.memtable ≠
      SkipList.new.insertAll [flatTick 0 5 1, flatTick 0 5 2] := by decide +kernel
  exact hmemtable (Except.ok.inj (h.symm.trans hrestart))

end Runs

end Graphite
