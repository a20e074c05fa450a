import Graphite.Interleaving
import Graphite.LsmFlush
import Graphite.LsmLocks
import Graphite.LsmReplicated
import Graphite.WalProgress
import Mathlib.Data.List.TakeWhile

/-! Write calls and flushes of several threads, and the history of their run: which ticks
have been written to the log, in which order, and who is in the middle of a flush. The rules
say what each kind of action does to the tree and to the history, and when it keeps every
tick that counts in the log or in a registered table. -/

namespace Graphite
open BigEndian KeyedRows LockProgram GuardedRuns

/-- What a thread does. -/
inductive Job where
  | write (call : WriteCall)
  | flush
  deriving DecidableEq, Repr

namespace Job
open LsmTree

def op (p : Platform) (c : Codec) (env : Env) : Job → LsmOp Unit
  | write call => call.op p c env
  | flush => flushMemtable p env

/-- The ticks that the job writes, under the ids of this dictionary. -/
def rows (dict : SymbolDictionary) : Job → List Tick
  | write (.insertion call) => call.rows dict
  | write (.applyReplicationBatch entries) => (dict.resolveEntries entries).1
  | flush => []

/-- These are the ticks of the job from now on. -/
def Fixed (job : Job) (ticks : List Tick) (dict : SymbolDictionary) : Prop :=
  ∀ e : SymbolDictionary, dict.idToSymbol <+: e.idToSymbol → job.rows e = ticks

theorem Fixed.mono {job : Job} {ticks : List Tick} {d e : SymbolDictionary} (h : job.Fixed ticks d)
    (hgrown : d.idToSymbol <+: e.idToSymbol) : job.Fixed ticks e :=
  fun f hf => h f (hgrown.trans hf)

end Job

theorem InsertCall.fixed_of_stored {call : InsertCall} {d dict : SymbolDictionary} {ticks : List Tick}
    (h : call.stored d = some (ticks, dict)) :
    (Job.write (.insertion call)).Fixed ticks dict := by
  intro e he
  cases call with
  | insert symbol tick =>
    cases h
    simp only [Job.rows, InsertCall.rows, InsertCall.stored, SymbolDictionary.getOrInsert_of_grown he]
    rfl
  | insertBatch symbol batch =>
    obtain ⟨_, hticks, heq⟩ := Option.map_eq_some_iff.mp h
    cases heq
    simp only [Job.rows, InsertCall.rows, InsertCall.stored, SymbolDictionary.getOrInsert_of_grown he, hticks]
    rfl
  | insertMulti symbolTicks =>
    obtain rfl : (d.intern symbolTicks).1 = ticks := congrArg Prod.fst (Option.some.inj h)
    obtain rfl : (d.intern symbolTicks).2 = dict := congrArg Prod.snd (Option.some.inj h)
    simp only [Job.rows, InsertCall.rows, InsertCall.stored, InsertCall.intern_of_grown he]
    rfl

/-- The history of a run: the ticks of the calls in the order in which their appends to the
log were complete, and the threads that have drained the memtable and not cut off the log. -/
structure Trace where
  written : List (Nat × List Tick)
  draining : List Nat

namespace Trace

/-- The tick that counts for its key. -/
def Newest (g : Trace) (x : Tick) : Prop :=
  firstAt Tick.key (g.written.flatMap Prod.snd).reverse x.key = some x

/-- A call behind the one of the thread has written the key. -/
def Replaced (g : Trace) (i : Nat) (key : Key) : Prop :=
  ∃ e ∈ (g.written.dropWhile fun e => e.1 ≠ i).tail, ∃ y ∈ e.2, y.key = key

instance (g : Trace) (i : Nat) (key : Key) : Decidable (g.Replaced i key) :=
  inferInstanceAs (Decidable (∃ e ∈ (g.written.dropWhile fun e => e.1 ≠ i).tail,
    ∃ y ∈ e.2, y.key = key))

theorem newest_append {g g' : Trace} {e : Nat × List Tick} {x : Tick}
    (hwritten : g'.written = g.written ++ [e]) (h : g'.Newest x) : x ∈ e.2 ∨ g.Newest x := by
  rw [Newest, hwritten, List.flatMap_append, List.reverse_append, firstAt_append] at h
  cases hfirst : firstAt Tick.key ([e].flatMap Prod.snd).reverse x.key with
  | some y =>
    rw [hfirst, Option.some_or, Option.some_inj] at h
    subst h
    exact Or.inl (by simpa using (firstAt_eq_some Tick.key hfirst).1)
  | none =>
    rw [hfirst, Option.none_or] at h
    exact Or.inr h

/-- The last version of a key in a call counts until a later call replaces it. -/
theorem newest_of_not_replaced {g : Trace} {i : Nat} {ticks : List Tick} {x : Tick}
    (hmem : (i, ticks) ∈ g.written) (hlast : firstAt Tick.key ticks.reverse x.key = some x)
    (hnot : ¬ g.Replaced i x.key) : g.Newest x := by
  have hsplit := List.takeWhile_append_dropWhile (p := fun e : Nat × List Tick => e.1 ≠ i)
    (l := g.written)
  obtain ⟨hx, -⟩ := firstAt_eq_some Tick.key hlast
  have hrest : (i, ticks) ∈ g.written.dropWhile fun e => e.1 ≠ i := by
    rw [← hsplit] at hmem
    refine (List.mem_append.mp hmem).resolve_left fun h => ?_
    simpa using List.mem_takeWhile_imp h
  cases hdrop : g.written.dropWhile fun e => e.1 ≠ i with
  | nil =>
    rw [hdrop] at hrest
    cases hrest
  | cons e back =>
    rw [hdrop] at hsplit hrest
    have hnone : ∀ e ∈ back, ∀ y ∈ e.2, y.key ≠ x.key := fun e he y hy hkey =>
      hnot ⟨e, by rw [hdrop]; exact he, y, hy, hkey⟩
    have he : (i, ticks) = e := (List.mem_cons.mp hrest).resolve_right fun h =>
      hnone _ h x (List.mem_reverse.mp hx) rfl
    have hback : firstAt Tick.key (back.flatMap Prod.snd).reverse x.key = none := by
      rw [firstAt_eq_none_iff]
      intro y hy
      obtain ⟨e, he, hye⟩ := List.mem_flatMap.mp (List.mem_reverse.mp hy)
      exact hnone e he y hye
    rw [Newest, ← hsplit, List.flatMap_append, List.flatMap_cons, List.reverse_append,
      List.reverse_append, firstAt_append, firstAt_append, hback, ← he, hlast]
    rfl

end Trace

section Rules

variable (c : Codec) (jobs : List Job)

/-- The ticks of a thread's job. -/
def rowsOf (i : Nat) (dict : SymbolDictionary) : List Tick :=
  ((jobs[i]?).map fun job => job.rows dict).getD []

/-- What an action of a thread adds to the history: a call is written when the log has
counted all its ticks. -/
def watch (i : Nat) (before after : LsmTree × Nat) (g : Trace) : Trace where
  written :=
    if rowsOf jobs i after.1.symbolDict ≠ [] ∧ after.1.wal.sequence =
        before.1.wal.sequence + (rowsOf jobs i after.1.symbolDict).length
      then g.written ++ [(i, rowsOf jobs i after.1.symbolDict)]
    else g.written
  draining :=
    if before.1.memtable.chain ≠ [] ∧ after.1.memtable.chain = [] then i :: g.draining
    else if before.1.wal.file ≠ [] ∧ after.1.wal.file = [] then g.draining.filter (· ≠ i)
    else g.draining

/-- The log or a registered table holds the tick. -/
def Durable (s : LsmTree) (x : Tick) : Prop :=
  Wal.Framed c s.wal.file (.insert x) ∨ InTable s x

/-- No log append is completed while a flush is between its drain and its cut of the log;
and the memtable is drained only when it holds every tick that counts and is in no table. -/
def allowed (running : Nat → Prop) (_ : Nat) (γ γ' : (LsmTree × Nat) × Trace) : Prop :=
  (γ'.2.written ≠ γ.2.written → ∀ k ∈ γ.2.draining, ¬ running k) ∧
    (γ.1.1.memtable.chain ≠ [] → γ'.1.1.memtable.chain = [] → ∀ x, γ.2.Newest x →
      x ∈ γ.1.1.memtable.chain ∨ InTable γ.1.1 x)

/-- Nothing is unlearnt: neither symbols nor what has been written. -/
def Grows (γ γ' : (LsmTree × Nat) × Trace) : Prop :=
  γ.1.1.symbolDict.idToSymbol <+: γ'.1.1.symbolDict.idToSymbol ∧ γ.2.written <+: γ'.2.written

theorem Grows.trans {γ₁ γ₂ γ₃ : (LsmTree × Nat) × Trace} (h : Grows γ₁ γ₂) (h' : Grows γ₂ γ₃) :
    Grows γ₁ γ₃ := ⟨h.1.trans h'.1, h.2.trans h'.2⟩

/-- What a thread relies on: tables stay, and while it is draining nothing is written. -/
structure Relies (i : Nat) (γ γ' : (LsmTree × Nat) × Trace) : Prop where
  grows : Grows γ γ'
  tables : ∀ t ∈ γ.1.1.storageOrder, t ∈ γ'.1.1.storageOrder
  draining : i ∈ γ.2.draining → i ∈ γ'.2.draining ∧ γ'.2.written = γ.2.written

theorem watch_self (i : Nat) (s : LsmTree × Nat) (g : Trace) : watch jobs i s s g = g := by
  have hcount : ¬ (rowsOf jobs i s.1.symbolDict ≠ [] ∧ s.1.wal.sequence =
      s.1.wal.sequence + (rowsOf jobs i s.1.symbolDict).length) := by
    rintro ⟨hne, hlen⟩
    exact hne (List.length_eq_zero_iff.mp (by omega))
  rw [watch, if_neg hcount, if_neg fun h => h.1 h.2, if_neg fun h => h.1 h.2]

/-- Every tick that counts is durable. -/
def keepsDurable : Discipline (LsmTree × Nat) Trace (watch jobs) allowed where
  inv γ := ∀ x, γ.2.Newest x → Durable c γ.1.1 x
  rely := Relies
  always := Grows
  watch_self := watch_self jobs
  rely_refl i γ := ⟨⟨List.prefix_rfl, List.prefix_rfl⟩, fun _ => id, fun h => ⟨h, rfl⟩⟩
  rely_trans := fun {i γ₁ γ₂ γ₃} h h' => by
    refine ⟨h.grows.trans h'.grows, fun t ht => h'.tables t (h.tables t ht), fun hi => ?_⟩
    obtain ⟨hi₂, h₂⟩ := h.draining hi
    obtain ⟨hi₃, h₃⟩ := h'.draining hi₂
    exact ⟨hi₃, h₃.trans h₂⟩
  always_of_rely := Relies.grows

variable {c jobs} {i : Nat} {γ : (LsmTree × Nat) × Trace} {s : LsmTree} {time : Nat}

/-- An action that leaves the log alone and drains nothing. -/
structure Quiet (s s' : LsmTree) : Prop where
  wal : s'.wal = s.wal
  dict : s.symbolDict.idToSymbol <+: s'.symbolDict.idToSymbol
  tables : ∀ t ∈ s.storageOrder, t ∈ s'.storageOrder
  memtable : s'.memtable.chain = [] → s.memtable.chain = []

theorem watch_of_quiet (h : Quiet γ.1.1 s) : watch jobs i γ.1 (s, time) γ.2 = γ.2 := by
  have hcount : ¬ (rowsOf jobs i s.symbolDict ≠ [] ∧ s.wal.sequence =
      γ.1.1.wal.sequence + (rowsOf jobs i s.symbolDict).length) := by
    rintro ⟨hne, hlen⟩
    rw [h.wal] at hlen
    exact hne (List.length_eq_zero_iff.mp (by omega))
  have hdrain : ¬ (γ.1.1.memtable.chain ≠ [] ∧ s.memtable.chain = []) :=
    fun hd => hd.1 (h.memtable hd.2)
  have hcut : ¬ (γ.1.1.wal.file ≠ [] ∧ s.wal.file = []) := by
    rw [h.wal]
    exact fun hc => hc.1 hc.2
  rw [watch, if_neg hcount, if_neg hdrain, if_neg hcut]

theorem moves_quiet (hinv : (keepsDurable c jobs).inv γ) (h : Quiet γ.1.1 s)
    {good : (LsmTree × Nat) × Trace → Prop} (hgood : good ((s, time), γ.2)) :
    (keepsDurable c jobs).Moves i γ (s, time) good := by
  intro running _
  rw [watch_of_quiet h]
  have hgrows : Grows γ ((s, time), γ.2) := ⟨h.dict, List.prefix_rfl⟩
  refine ⟨fun x hx => ?_, hgrows, fun k _ _ => ⟨hgrows, h.tables, fun hk => ⟨hk, rfl⟩⟩, hgood⟩
  rcases hinv x hx with hlog | htable
  · left
    change Wal.Framed c s.wal.file _
    rw [h.wal]
    exact hlog
  · exact Or.inr (htable.mono h.tables)

theorem Durable.withWal {x : Tick} (h : Durable c s x) {wal : Wal}
    (hfile : s.wal.file <+: wal.file) : Durable c (s.withWal wal) x :=
  h.imp (fun hlog => Wal.Framed.mono hlog hfile) id

variable {job : Job} {ticks : List Tick}

/-- The call's ticks are in the log, if it has any. -/
def Logged (jobs : List Job) (i : Nat) (γ : (LsmTree × Nat) × Trace) : Prop :=
  ∃ job ticks, jobs[i]? = some job ∧ job.Fixed ticks γ.1.1.symbolDict ∧
    (ticks = [] ∨ (i, ticks) ∈ γ.2.written)

theorem Logged.mono {γ' : (LsmTree × Nat) × Trace} (h : Logged jobs i γ) (hgrows : Grows γ γ') :
    Logged jobs i γ' := by
  obtain ⟨job, ticks, hjob, hfixed, hwritten⟩ := h
  exact ⟨job, ticks, hjob, hfixed.mono hgrows.1, hwritten.imp_right fun h => hgrows.2.subset h⟩

/-- An append to the log. -/
theorem moves_append (hinv : (keepsDurable c jobs).inv γ) (hjob : jobs[i]? = some job)
    (hfixed : job.Fixed ticks γ.1.1.symbolDict) {wal : Wal} {m : Nat}
    (hwal : Wal.Progress c γ.1.1.wal wal (ticks.map .insert) m) :
    (keepsDurable c jobs).Moves i γ (γ.1.1.withWal wal, time) fun γ' =>
      γ'.1.1.symbolDict = γ.1.1.symbolDict ∧ (m = ticks.length → Logged jobs i γ') := by
  have hrows : rowsOf jobs i (γ.1.1.withWal wal).symbolDict = ticks := by
    rw [rowsOf, hjob]
    exact hfixed _ List.prefix_rfl
  have hdraining : (watch jobs i γ.1 (γ.1.1.withWal wal, time) γ.2).draining = γ.2.draining := by
    have hdrain : ¬ (γ.1.1.memtable.chain ≠ [] ∧ (γ.1.1.withWal wal).memtable.chain = []) :=
      fun hd => hd.1 hd.2
    have hcut : ¬ (γ.1.1.wal.file ≠ [] ∧ (γ.1.1.withWal wal).wal.file = []) := by
      rintro ⟨hne, hnil⟩
      have hgrown : γ.1.1.wal.file <+: [] := by rw [← show wal.file = [] from hnil]; exact hwal.file
      exact hne (List.prefix_nil.mp hgrown)
    rw [watch]
    dsimp only
    rw [if_neg hdrain, if_neg hcut]
  have hsequence : (γ.1.1.withWal wal).wal.sequence = γ.1.1.wal.sequence + m := hwal.sequence
  by_cases hfull : ticks ≠ [] ∧ m = ticks.length
  · have hwritten : (watch jobs i γ.1 (γ.1.1.withWal wal, time) γ.2).written =
        γ.2.written ++ [(i, ticks)] := by
      rw [watch]
      dsimp only
      rw [hrows, if_pos ⟨hfull.1, by rw [hsequence, hfull.2]⟩]
    have hgrows : Grows γ ((γ.1.1.withWal wal, time),
        watch jobs i γ.1 (γ.1.1.withWal wal, time) γ.2) :=
      ⟨List.prefix_rfl, by rw [hwritten]; exact List.prefix_append _ _⟩
    intro running hallowed
    refine ⟨fun x hx => ?_, hgrows, fun k _ hk => ⟨hgrows, fun _ => id, fun hkd => ?_⟩, rfl,
      fun _ => ⟨job, ticks, hjob, hfixed, Or.inr ?_⟩⟩
    · rcases Trace.newest_append hwritten hx with hx | hx
      · refine Or.inl (hwal.framed ?_ _ (List.mem_map_of_mem hx))
        rw [hfull.2, List.length_map]
      · exact (hinv x hx).withWal hwal.file
    · refine absurd hk (hallowed.1 ?_ k hkd)
      rw [hwritten]
      simp
    · rw [hwritten]
      exact List.mem_append_right _ List.mem_cons_self
  · have hwritten : (watch jobs i γ.1 (γ.1.1.withWal wal, time) γ.2).written = γ.2.written := by
      rw [watch]
      dsimp only
      rw [hrows, if_neg]
      rintro ⟨hne, hlen⟩
      exact hfull ⟨hne, by omega⟩
    have hgrows : Grows γ ((γ.1.1.withWal wal, time),
        watch jobs i γ.1 (γ.1.1.withWal wal, time) γ.2) :=
      ⟨List.prefix_rfl, ⟨[], by rw [hwritten, List.append_nil]⟩⟩
    intro running _
    refine ⟨fun x hx => ?_, hgrows, fun k _ _ => ⟨hgrows, fun _ => id, fun hkd => ?_⟩, rfl,
      fun hm => ⟨job, ticks, hjob, hfixed, Or.inl ?_⟩⟩
    · rw [Trace.Newest, hwritten] at hx
      exact Durable.withWal (hinv x hx) hwal.file
    · exact ⟨by rw [hdraining]; exact hkd, hwritten⟩
    · by_contra hne
      exact hfull ⟨hne, hm⟩

/-- A thread that has drained the memtable of these rows; they, or some table, hold
every tick that counts. -/
def Drained (i : Nat) (rows : List Tick) (γ : (LsmTree × Nat) × Trace) : Prop :=
  i ∈ γ.2.draining ∧ ∀ x, γ.2.Newest x → x ∈ rows ∨ InTable γ.1.1 x

theorem Drained.stable {rows : List Tick} {γ' : (LsmTree × Nat) × Trace} (h : Drained i rows γ)
    (hrely : Relies i γ γ') : Drained i rows γ' := by
  obtain ⟨hi, hwritten⟩ := hrely.draining h.1
  refine ⟨hi, fun x hx => ?_⟩
  rw [Trace.Newest, hwritten] at hx
  exact (h.2 x hx).imp_right fun ht => ht.mono hrely.tables

theorem moves_drain (hinv : (keepsDurable c jobs).inv γ) :
    (keepsDurable c jobs).Moves i γ (γ.1.1.drained, time) fun γ' =>
      γ.1.1.memtable.chain = [] ∨ Drained i γ.1.1.memtable.chain γ' := by
  by_cases hchain : γ.1.1.memtable.chain = []
  · have hquiet : Quiet γ.1.1 γ.1.1.drained := ⟨rfl, List.prefix_rfl, fun _ => id, fun _ => hchain⟩
    exact moves_quiet hinv hquiet (Or.inl hchain)
  have hwatch : watch jobs i γ.1 (γ.1.1.drained, time) γ.2 =
      ⟨γ.2.written, i :: γ.2.draining⟩ := by
    have hcount : ¬ (rowsOf jobs i γ.1.1.drained.symbolDict ≠ [] ∧ γ.1.1.drained.wal.sequence =
        γ.1.1.wal.sequence + (rowsOf jobs i γ.1.1.drained.symbolDict).length) := by
      rintro ⟨hne, hlen⟩
      have hsame : γ.1.1.drained.wal.sequence = γ.1.1.wal.sequence := rfl
      exact hne (List.length_eq_zero_iff.mp (by omega))
    rw [watch, if_neg hcount, if_pos ⟨hchain, rfl⟩]
  intro running hallowed
  rw [hwatch] at hallowed ⊢
  have hgrows : Grows γ ((γ.1.1.drained, time), ⟨γ.2.written, i :: γ.2.draining⟩) :=
    ⟨List.prefix_rfl, List.prefix_rfl⟩
  refine ⟨hinv, hgrows, fun k _ _ => ⟨hgrows, fun _ => id, fun hk => ?_⟩, Or.inr ?_⟩
  · exact ⟨List.mem_cons_of_mem i hk, rfl⟩
  · exact ⟨List.mem_cons_self, fun x hx => hallowed.2 hchain rfl x hx⟩

/-- The log may be cut off once the tables hold every tick that counts. -/
theorem moves_truncate (hdrained : Drained i [] γ)
    {good : (LsmTree × Nat) × Trace → Prop} (hgood : ∀ γ', good γ') {wal : Wal}
    (hsequence : wal.sequence = γ.1.1.wal.sequence) :
    (keepsDurable c jobs).Moves i γ (γ.1.1.withWal wal, time) good := by
  have hwritten : (watch jobs i γ.1 (γ.1.1.withWal wal, time) γ.2).written = γ.2.written := by
    rw [watch]
    dsimp only
    rw [if_neg]
    rintro ⟨hne, hlen⟩
    have hsame : (γ.1.1.withWal wal).wal.sequence = γ.1.1.wal.sequence := hsequence
    exact hne (List.length_eq_zero_iff.mp (by omega))
  have hdraining : ∀ k, k ≠ i → k ∈ γ.2.draining →
      k ∈ (watch jobs i γ.1 (γ.1.1.withWal wal, time) γ.2).draining := by
    intro k hki hk
    have hdrain : ¬ (γ.1.1.memtable.chain ≠ [] ∧ (γ.1.1.withWal wal).memtable.chain = []) :=
      fun hd => hd.1 hd.2
    rw [watch]
    dsimp only
    rw [if_neg hdrain]
    split_ifs
    · exact List.mem_filter.mpr ⟨hk, by simpa using hki⟩
    · exact hk
  have hgrows : Grows γ ((γ.1.1.withWal wal, time),
      watch jobs i γ.1 (γ.1.1.withWal wal, time) γ.2) :=
    ⟨List.prefix_rfl, ⟨[], by rw [hwritten, List.append_nil]⟩⟩
  intro running _
  refine ⟨fun x hx => ?_, hgrows, fun k hki _ => ⟨hgrows, fun _ => id, fun hk => ?_⟩, hgood _⟩
  · rw [Trace.Newest, hwritten] at hx
    exact Or.inr ((hdrained.2 x hx).resolve_left List.not_mem_nil)
  · exact ⟨hdraining k hki hk, hwritten⟩

end Rules

end Graphite
