import Mathlib.Data.List.Flatten
import Graphite.CompactionEvents
import Graphite.TableFiles
import Graphite.TreeRuns

/-! The names of table files. A name holds the level and a clock reading, so a table is
written over another one exactly when the two are of one level and of one reading. -/

namespace Graphite
open KeyedRows LockProgram GuardedRuns

theorem eq_of_append_cons {α : Type} {sep : α} {as bs xs ys : List α} (ha : sep ∉ as)
    (hb : sep ∉ bs) (h : as ++ sep :: xs = bs ++ sep :: ys) : as = bs ∧ xs = ys := by
  induction as generalizing bs with
  | nil =>
    cases bs with
    | nil => exact ⟨rfl, (List.cons.inj h).2⟩
    | cons b bs =>
      obtain ⟨rfl, -⟩ := List.cons.inj h
      exact absurd List.mem_cons_self hb
  | cons a as ih =>
    cases bs with
    | nil =>
      obtain ⟨rfl, -⟩ := List.cons.inj h
      exact absurd List.mem_cons_self ha
    | cons b bs =>
      obtain ⟨rfl, htail⟩ := List.cons.inj h
      obtain ⟨rfl, hxs⟩ := ih (fun hmem => ha (List.mem_cons_of_mem _ hmem))
        (fun hmem => hb (List.mem_cons_of_mem _ hmem)) htail
      exact ⟨rfl, hxs⟩

/-- Leading zeros do not change what the digits stand for. -/
theorem ofDigitChars_padded (k n : Nat) :
    Nat.ofDigitChars 10 (List.replicate k '0' ++ Nat.toDigits 10 n) 0 = n := by
  rw [Nat.ofDigitChars_append, Nat.ofDigitChars_replicate_zero, Nat.mul_zero,
    Nat.ofDigitChars_ten_toDigits]

theorem toList_tableName (level nanos : Nat) : (tableName level nanos).toList =
    'L' :: (Nat.toDigits 10 level ++ '_' ::
      ((List.replicate (6 - (toString nanos).length) '0' ++ Nat.toDigits 10 nanos) ++
        ['.', 's', 's', 't'])) := by
  simp [tableName, String.toList_append]

/-- The name tells the level and the reading. -/
theorem tableName_inj {level level' nanos nanos' : Nat} :
    tableName level nanos = tableName level' nanos' ↔ level = level' ∧ nanos = nanos' := by
  constructor
  · intro h
    have hlist := congrArg String.toList h
    rw [toList_tableName, toList_tableName] at hlist
    have hbar : ∀ n, '_' ∉ Nat.toDigits 10 n := fun n hmem =>
      absurd (Nat.isDigit_of_mem_toDigits (by omega) (by omega) hmem) (by decide)
    obtain ⟨hlevel, hrest⟩ := eq_of_append_cons (hbar level) (hbar level') (List.cons.inj hlist).2
    have hpadded := List.append_cancel_right hrest
    constructor
    · rw [← Nat.ofDigitChars_ten_toDigits (n := level), hlevel, Nat.ofDigitChars_ten_toDigits]
    · rw [← ofDigitChars_padded (6 - (toString nanos).length) nanos, hpadded, ofDigitChars_padded]
  · rintro ⟨rfl, rfl⟩
    rfl

namespace CompactionManager

/-- Every table is named after its level and a reading. -/
def Named (m : CompactionManager) : Prop :=
  ∀ n, ∀ t ∈ m.tablesAt n, ∃ nanos, t.sst.path = tableName n nanos

/-- No two registered tables have one path. -/
def DistinctPaths (m : CompactionManager) : Prop := (m.registered.map fun t => t.sst.path).Nodup

theorem distinctPaths_iff {m : CompactionManager} (h : m.Named) :
    m.DistinctPaths ↔ ∀ n, ((m.tablesAt n).map fun t => t.sst.path).Nodup := by
  rw [DistinctPaths, registered, List.map_flatMap, List.nodup_flatMap]
  have hat : ∀ n (hn : n < m.levels.length), m.tablesAt n = m.levels[n].tables := by
    intro n hn
    rw [tablesAt, List.getElem?_eq_getElem hn]
    rfl
  constructor
  · rintro ⟨hnodup, -⟩ n
    by_cases hn : n < m.levels.length
    · rw [hat n hn]
      exact hnodup _ (List.getElem_mem hn)
    · rw [tablesAt, List.getElem?_eq_none (not_lt.mp hn)]
      exact List.nodup_nil
  · intro hnodup
    refine ⟨fun l hl => ?_, List.pairwise_iff_getElem.mpr fun i j hi hj hij => ?_⟩
    · obtain ⟨n, hn, rfl⟩ := List.mem_iff_getElem.mp hl
      rw [← hat n hn]
      exact hnodup n
    · intro path hmem hmem'
      obtain ⟨t, ht, rfl⟩ := List.mem_map.mp hmem
      obtain ⟨t', ht', hpath⟩ := List.mem_map.mp hmem'
      obtain ⟨nanos, hname⟩ := h i t (by rwa [hat i hi])
      obtain ⟨nanos', hname'⟩ := h j t' (by rwa [hat j hj])
      rw [hname, hname'] at hpath
      exact hij.ne (tableName_inj.mp hpath).1.symm

end CompactionManager

namespace FileEvent
open CompactionManager

/-- The path that is written belongs to no registered table. -/
def KeepsTables : FileEvent → Prop
  | read _ => True
  | write m level nanos => ∀ t ∈ m.registered, t.sst.path ≠ tableName level nanos

/-- The reading named no registered table of the level. -/
def Fresh : FileEvent → Prop
  | read _ => True
  | write m level nanos =>
    ∀ t ∈ m.tablesAt level, ∀ earlier, t.sst.path = tableName level earlier → earlier ≠ nanos

def Named : FileEvent → Prop
  | read _ => True
  | write m _ _ => m.Named

theorem keepsTables_iff_fresh {e : FileEvent} (h : e.Named) : e.KeepsTables ↔ e.Fresh := by
  cases e with
  | read t => exact Iff.rfl
  | write m level nanos =>
    constructor
    · rintro hkeeps t ht earlier hpath rfl
      exact hkeeps t ((m.mem_registered_iff t).mpr ⟨level, ht⟩) hpath
    · intro hfresh t ht hpath
      obtain ⟨n, ht⟩ := (m.mem_registered_iff t).mp ht
      obtain ⟨earlier, hname⟩ := h n t ht
      obtain ⟨rfl, rfl⟩ := tableName_inj.mp (hname.symm.trans hpath)
      exact hfresh t ht earlier hname rfl

end FileEvent

namespace CompactionManager

/-- A manager and the events so far: as long as no event hits a registered table the paths
are distinct. -/
structure KeptSoFar (st : CompactionManager × List FileEvent) : Prop where
  named : st.1.Named
  events : ∀ e ∈ st.2, e.Named
  distinct : (∀ e ∈ st.2, e.KeepsTables) → st.1.DistinctPaths

theorem Named.sublist {m m' : CompactionManager} (h : m.Named)
    (hsub : ∀ n, (m'.tablesAt n).Sublist (m.tablesAt n)) : m'.Named :=
  fun n t ht => h n t ((hsub n).subset ht)

theorem DistinctPaths.sublist {m m' : CompactionManager} (h : m.Named) (hdistinct : m.DistinctPaths)
    (hsub : ∀ n, (m'.tablesAt n).Sublist (m.tablesAt n)) : m'.DistinctPaths := by
  rw [distinctPaths_iff (h.sublist hsub)]
  intro n
  exact ((distinctPaths_iff h).mp hdistinct n).sublist ((hsub n).map _)

theorem KeptSoFar.sublist {m m' : CompactionManager} {log : List FileEvent}
    (h : KeptSoFar (m, log)) (hsub : ∀ n, (m'.tablesAt n).Sublist (m.tablesAt n)) :
    KeptSoFar (m', log) where
  named := h.named.sublist hsub
  events := h.events
  distinct hkeeps := (h.distinct hkeeps).sublist h.named hsub

theorem KeptSoFar.note {m : CompactionManager} {log : List FileEvent} (h : KeptSoFar (m, log))
    {e : FileEvent} (he : e.Named) : KeptSoFar (m, log ++ [e]) where
  named := h.named
  events e' he' := by
    rcases List.mem_append.mp he' with he' | he'
    · exact h.events e' he'
    · rwa [List.mem_singleton.mp he']
  distinct hkeeps := h.distinct fun e' he' => hkeeps e' (List.mem_append_left _ he')

theorem Named.addTable {m : CompactionManager} (h : m.Named) {level nanos : Nat} {t : Table}
    (hpath : t.sst.path = tableName level nanos) : (m.addTable level t).Named := by
  intro n u hu
  by_cases hlevel : level < m.levels.length
  · rw [tablesAt_addTable m hlevel] at hu
    split_ifs at hu with hn
    · rcases List.mem_append.mp hu with hu | hu
      · exact h n u hu
      · rw [List.mem_singleton.mp hu, hn]
        exact ⟨nanos, hpath⟩
    · exact h n u hu
  · rw [tablesAt_congr (List.modify_eq_self (not_lt.mp hlevel))] at hu
    exact h n u hu

/-- A table of a path that no registered table has keeps the paths distinct. -/
theorem DistinctPaths.addTable {m : CompactionManager} (h : m.Named)
    (hdistinct : m.DistinctPaths) {level nanos : Nat} {t : Table}
    (hpath : t.sst.path = tableName level nanos)
    (hnew : ∀ u ∈ m.registered, u.sst.path ≠ tableName level nanos) :
    (m.addTable level t).DistinctPaths := by
  rw [distinctPaths_iff (h.addTable hpath)]
  intro n
  have hn := (distinctPaths_iff h).mp hdistinct n
  by_cases hlevel : level < m.levels.length
  · rw [tablesAt_addTable m hlevel]
    split_ifs
    · rw [List.map_append, List.map_singleton, List.nodup_append]
      refine ⟨hn, by simp, fun path hmem path' hmem' => ?_⟩
      obtain ⟨u, hu, rfl⟩ := List.mem_map.mp hmem
      rw [List.mem_singleton.mp hmem', hpath]
      exact hnew u ((m.mem_registered_iff u).mpr ⟨n, hu⟩)
    · exact hn
  · rwa [tablesAt_congr (List.modify_eq_self (not_lt.mp hlevel))]

theorem keptSoFar_steps (p : Platform) : StepInvariant p KeptSoFar where
  read {m log t} h _ := (h.sublist fun _ => List.Sublist.refl _).note trivial
  clear i h := h.sublist fun n => by
    rw [tablesAt_clearLevel]
    split_ifs
    · exact List.nil_sublist _
    · exact List.Sublist.refl _
  ensure i h := h.sublist fun n => by rw [tablesAt_ensureLevel]
  unwritten level nanos h := h.note h.named
  written {m log level nanos t file} h hwrite := by
    have hpath := SsTable.path_of_write hwrite
    have hnoted := h.note (e := .write m level nanos) h.named
    refine ⟨hnoted.named.addTable hpath, hnoted.events, fun hkeeps => ?_⟩
    have hnew : (FileEvent.write m level nanos).KeepsTables := hkeeps _ (by simp)
    exact (hnoted.distinct hkeeps).addTable hnoted.named hpath hnew

/-- A compaction that keeps the registered tables leaves distinct paths. -/
theorem kept_compact (p : Platform) (env : Env) {m : CompactionManager} (hnamed : m.Named)
    (hdistinct : m.DistinctPaths) (time : Nat) :
    KeptSoFar ((compact p env (m, time)).2.1, events p env m time) :=
  compact_keeps env (keptSoFar_steps p) ⟨hnamed, by simp, fun _ => hdistinct⟩ time

end CompactionManager

namespace TreeCall
open LsmTree CompactionManager

variable (p : Platform) (c : Codec) (env : Env)

/-- The files that a call reads and writes; an insertion gets to no table. -/
def events (st : LsmTree × Nat) : TreeCall → List FileEvent
  | insertion _ => []
  | flushMemtable =>
    if st.1.memtable.chain = [] then [] else [.write st.1.compaction 0 (env.now st.2)]
  | compact => CompactionManager.events p env st.1.compaction st.2

/-- No table is written to the path of a registered one. -/
def NeverOverwrites (st : LsmTree × Nat) (call : TreeCall) : Prop :=
  ∀ e ∈ events p env st call, e.KeepsTables

/-- No reading that names a table has named a registered table of the same level. -/
def FreshReadings (st : LsmTree × Nat) (call : TreeCall) : Prop :=
  ∀ e ∈ events p env st call, e.Fresh

variable {p c env}

theorem step_compact (s : LsmTree) (time : Nat) : (step p c env (s, time) .compact).1 =
    { s with compaction := (CompactionManager.compact p env (s.compaction, time)).2.1 } := by
  rw [step, op, LsmTree.compact, exec_withGuard, if_neg (by decide), exec_attempt]
  rfl

/-- The manager behind a call and the call's events, the manager before it being kept. -/
theorem kept_step {s : LsmTree} (hlevels : s.compaction.levels ≠ []) (hnamed : s.compaction.Named)
    (hdistinct : s.compaction.DistinctPaths) (time : Nat) (call : TreeCall) :
    KeptSoFar ((step p c env (s, time) call).1.compaction, events p env (s, time) call) := by
  have hstart : KeptSoFar (s.compaction, []) := ⟨hnamed, by simp, fun _ => hdistinct⟩
  cases call with
  | insertion call =>
    have hmoves := moves p c env hlevels time (.insertion call)
    generalize (step p c env (s, time) (.insertion call)).1 = s' at hmoves
    cases hmoves with
    | stored => exact hstart
    | stuck => exact hstart
  | compact =>
    rw [step_compact]
    exact kept_compact p env hnamed hdistinct time
  | flushMemtable =>
    have hends := flush_ends p env hlevels time
    rw [step, op]
    generalize exec (LsmTree.flushMemtable p env) [] (s, time) = outcome at hends
    cases hends with
    | nothing hempty =>
      rw [events, if_pos hempty]
      exact hstart
    | unwritten hchain =>
      rw [events, if_neg hchain]
      exact hstart.note (e := .write s.compaction 0 (env.now time)) hnamed
    | @written t hchain ht =>
      obtain ⟨⟨file, sst⟩, hwrite, rfl⟩ : ∃ w, SsTable.write p (tableName 0 (env.now time))
          s.memtable.chain 0 s.symbolDict = some w ∧ t = ⟨w.2, s.memtable.chain⟩ := by
        rw [flushTable] at ht
        split_ifs at ht
        obtain ⟨w, hw, rfl⟩ := Option.map_eq_some_iff.mp ht
        exact ⟨w, hw, rfl⟩
      have hpath : sst.path = tableName 0 (env.now time) := SsTable.path_of_write hwrite
      have hnoted := hstart.note (e := .write s.compaction 0 (env.now time)) hnamed
      rw [events, if_neg hchain]
      refine KeptSoFar.sublist (m := s.compaction.addTable 0 ⟨sst, s.memtable.chain⟩)
        ⟨hnamed.addTable hpath, hnoted.events, fun hkeeps => ?_⟩ fun n => ?_
      · have hnew : (FileEvent.write s.compaction 0 (env.now time)).KeepsTables :=
          hkeeps _ (List.mem_singleton_self _)
        exact hdistinct.addTable hnamed hpath hnew
      · rw [tablesAt_congr rfl]
        exact List.Sublist.refl _

theorem levels_step {s : LsmTree} (hlevels : s.compaction.levels ≠ []) (time : Nat)
    (call : TreeCall) : (step p c env (s, time) call).1.compaction.levels ≠ [] :=
  levels_of_moves (moves p c env hlevels time call) hlevels

/-- Over the runs from a tree with distinct paths. -/
theorem never_overwritten_iff_of {st : LsmTree × Nat} (hlevels : st.1.compaction.levels ≠ [])
    (hnamed : st.1.compaction.Named) (hdistinct : st.1.compaction.DistinctPaths)
    (calls : List TreeCall) :
    Guarded (step p c env) (NeverOverwrites p env) st calls ∧
        Always (step p c env) (fun st => st.1.compaction.DistinctPaths) st calls ↔
      Guarded (step p c env) (FreshReadings p env) st calls := by
  induction calls generalizing st with
  | nil => exact iff_of_true ⟨trivial, (always_nil_iff st).mpr hdistinct⟩ trivial
  | cons call calls ih =>
    obtain ⟨hnamed', hevents, hkeeps⟩ := kept_step (c := c) hlevels hnamed hdistinct st.2 call
    have hiff : NeverOverwrites p env st call ↔ FreshReadings p env st call :=
      forall₂_congr fun e he => FileEvent.keepsTables_iff_fresh (hevents e he)
    rw [always_cons_iff, Guarded, Guarded]
    constructor
    · rintro ⟨⟨hnever, hrest⟩, -, halways⟩
      exact ⟨hiff.mp hnever, (ih (levels_step hlevels st.2 call) hnamed' (hkeeps hnever)).mp
        ⟨hrest, halways⟩⟩
    · rintro ⟨hfresh, hrest⟩
      have hnever := hiff.mpr hfresh
      obtain ⟨hguarded, halways⟩ :=
        (ih (levels_step hlevels st.2 call) hnamed' (hkeeps hnever)).mpr hrest
      exact ⟨⟨hnever, hguarded⟩, hdistinct, halways⟩

/-- In a run from an empty directory no table is written over a registered one, and the paths
of the registered tables are distinct, exactly when no clock reading names two registered
tables of one level. -/
theorem tables_never_overwritten_iff (p : Platform) (c : Codec) (env : Env) (flushThreshold : Nat)
    (role : NodeRole) (calls : List TreeCall) :
    Guarded (step p c env) (NeverOverwrites p env) (fresh flushThreshold role, 0) calls ∧
        Always (step p c env) (fun st => st.1.compaction.DistinctPaths)
          (fresh flushThreshold role, 0) calls ↔
      Guarded (step p c env) (FreshReadings p env) (fresh flushThreshold role, 0) calls := by
  have hdistinct : (CompactionManager.new SymbolDictionary.new).DistinctPaths := List.nodup_nil
  refine never_overwritten_iff_of (List.cons_ne_nil _ _) (fun n t ht => ?_) hdistinct calls
  cases n with
  | zero => cases ht
  | succ n => cases ht

/-- The clock gives the same reading to both flushes. -/
theorem same_reading_same_path :
    ¬ Always (step .simple (ticksCodec [1, 2]) { Env.calm with now := fun _ => 7 })
      (fun st => st.1.compaction.DistinctPaths) (fresh 10 .primary, 0) (flushes [1, 2]) := by
  intro h
  have hpaths : ¬ (run (step .simple (ticksCodec [1, 2]) { Env.calm with now := fun _ => 7 })
      (fresh 10 .primary, 0) (flushes [1, 2])).1.compaction.DistinctPaths := by
    unfold DistinctPaths
    decide +kernel
  exact hpaths (h _ (List.prefix_refl _))

end TreeCall

end Graphite
