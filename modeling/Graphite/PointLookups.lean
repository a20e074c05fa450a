import Graphite.CompactionEvents
import Graphite.NamedStore
import Graphite.TreeRuns

/-! Point lookups across compactions. A lookup keeps finding the newest row as long as the
newest version of every key survives the merges, and no table is written with a row outside
the ends of its list. Range scans are worse off: they read the oldest table first, and ask
the tables of a compaction for symbols that these do not announce. -/

namespace Graphite
open KeyedRows LeveledVersions LockProgram GuardedRuns

/-- Nothing keeps a lookup from the rows of the table. -/
structure Table.Reveals (t : Table) : Prop where
  askable : t.Askable
  probe : ∀ key, t.probe key = firstAt Tick.key t.rows key

/-- A table whose rows all lie within the ends of their list. -/
theorem Table.reveals_of_write {p : Platform} {path : String} {level : Nat}
    {dict : SymbolDictionary} {file : BigEndian.Bytes} {t : Table}
    (h : SsTable.write p path t.rows level dict = some (file, t.sst))
    (hends : ∀ x ∈ t.rows, SsTable.WithinEnds t.rows x.timestamp) : t.Reveals where
  askable := SsTable.numBits_of_write h
  probe key := by
    rw [Table.probe]
    split_ifs with hadmits
    · rfl
    · cases hfirst : firstAt Tick.key t.rows key with
      | none => rfl
      | some x =>
        obtain ⟨hx, rfl⟩ := firstAt_eq_some Tick.key hfirst
        have htime := (SsTable.overlapsTimeRange_of_write h (List.ne_nil_of_mem hx) _).mpr
          (hends x hx) x.timestamp x.timestamp Int64.le_rfl Int64.le_rfl
        refine absurd ?_ hadmits
        rw [Table.admitsKey, SsTable.mayContainKey_of_write h hx]
        simp [Tick.key, htime, SsTable.overlapsSymbol_of_write h hx]

namespace CompactionManager

variable {p : Platform} {m m₁ m₂ : CompactionManager}

def Reveals (m : CompactionManager) : Prop := ∀ t ∈ m.registered, t.Reveals

/-- The rows of every table that a compaction writes lie within the ends of its list. -/
def MergesWithinEnds (p : Platform) (m : CompactionManager) : Prop :=
  ∀ i ∈ m.due p,
    ∀ chunk ∈ chunks CHUNK_SIZE (mergeRows Tick.key ((m.gathered p i).flatMap Table.rows)),
      ∀ x ∈ chunk, SsTable.WithinEnds chunk x.timestamp

instance (p : Platform) (m : CompactionManager) : Decidable (MergesWithinEnds p m) :=
  inferInstanceAs (Decidable (∀ _ ∈ _, ∀ _ ∈ _, ∀ _ ∈ _, _))

theorem reveals_merge {i : Nat} (hends : MergesWithinEnds p m) (hdue : i ∈ m.due p)
    (hprogress : Progress p m i m₁) (hreveals : m₁.Reveals) (h : PartlyMerged p i m₁ m₂) :
    m₂.Reveals := by
  have hold {n : Nat} {t : Table} (ht : t ∈ m₁.tablesAt n) : t.Reveals :=
    hreveals t ((mem_registered_iff m₁ t).mpr ⟨n, ht⟩)
  intro t ht
  obtain ⟨n, hn⟩ := (mem_registered_iff m₂ t).mp ht
  by_cases hi : n = i
  · subst hi
    rcases h.here with hsame | hnil
    · rw [hsame] at hn
      exact hold hn
    · rw [hnil] at hn
      cases hn
  by_cases hnext : n = i + 1
  · subst hnext
    obtain ⟨tables, happ, hparts, hwritten⟩ := h.next
    rw [happ, List.mem_append] at hn
    rcases hn with hn | hn
    · exact hold hn
    · obtain ⟨path, file, hwrite⟩ := hwritten t hn
      rw [rows_congr hprogress.here] at hparts
      exact Table.reveals_of_write hwrite
        (hends i hdue t.rows (hparts.subset (List.mem_map_of_mem hn)))
  · rw [h.others n hi hnext] at hn
    exact hold hn

theorem reveals_compact (env : Env) (hends : MergesWithinEnds p m) (h : m.Reveals) (time : Nat) :
    (compact p env (m, time)).2.1.Reveals :=
  compact_induct (Q := Reveals) h (fun _ _ _ => reveals_merge hends) time

/-- A key that nobody finds has no version to survive. -/
theorem newestSurvives_of_not_found {key : Key} (h : m.find key = none) (is : List Nat) :
    NewestSurvives is (m.versions key) := by
  intro top _ _ habove htop
  obtain ⟨v, hv⟩ := Option.ne_none_iff_exists'.mp (List.getLast?_eq_none_iff.not.mpr htop)
  have hfound := (find_eq_some_iff m key v).mpr ⟨top, habove, hv⟩
  rw [h] at hfound
  cases hfound

theorem find_eq_findSome? (m : CompactionManager) (key : Key) :
    m.find key = (m.levels.flatMap fun l => l.tables.reverse).findSome?
      fun t => firstAt Tick.key t.rows key := by
  rw [find]
  induction m.levels with
  | nil => rfl
  | cons l levels ih =>
    rw [List.findSome?_cons, List.flatMap_cons, List.findSome?_append, ← ih]
    cases l.tables.reverse.findSome? fun t => firstAt Tick.key t.rows key <;> rfl

end CompactionManager

namespace LsmTree

variable {s : LsmTree}

theorem askable_of_reveals (h : s.compaction.Reveals) : s.Askable :=
  fun t ht => (h t ht).askable

/-- `get` finds the newest version when all tables reveal their rows. -/
theorem find_eq (h : s.compaction.Reveals) (key : Key) :
    s.find key = (s.memtable.get key).or (s.compaction.find key) := by
  have hprobe : ∀ tables : List Table, (∀ t ∈ tables, t.Reveals) →
      probeAll tables key = tables.findSome? fun t => firstAt Tick.key t.rows key := by
    intro tables htables
    induction tables with
    | nil => rfl
    | cons t tables ih =>
      obtain ⟨ht, htables⟩ := List.forall_mem_cons.mp htables
      rw [probeAll, List.findSome?_cons, List.findSome?_cons, ht.probe, ← probeAll, ih htables]
  rw [find, hprobe _ fun t ht => h t (mem_newestFirst.mp ht), CompactionManager.find_eq_findSome?]
  rfl

theorem find_register (hlevels : s.compaction.levels ≠ []) (t : Table) (key : Key) :
    (s.register t).compaction.find key =
      (firstAt Tick.key t.rows key).or (s.compaction.find key) := by
  have hnewest := newestFirst_register hlevels t
  rw [newestFirst, newestFirst] at hnewest
  rw [CompactionManager.find_eq_findSome?, CompactionManager.find_eq_findSome?, hnewest,
    List.findSome?_cons]
  cases firstAt Tick.key t.rows key <;> rfl

theorem reveals_register (hlevels : s.compaction.levels ≠ []) {t : Table} (ht : t.Reveals)
    (h : s.compaction.Reveals) : (s.register t).compaction.Reveals := by
  intro x hx
  rcases (mem_storageOrder_register hlevels).mp hx with hx | rfl
  · exact h x hx
  · exact ht

theorem exec_compact (p : Platform) (env : Env) (s : LsmTree) (time : Nat) :
    exec (LsmTree.compact p env) [] (s, time) = .finished
      ((CompactionManager.compact p env (s.compaction, time)).1.mapError (Stop.map .compaction)) []
      ({ s with compaction := (CompactionManager.compact p env (s.compaction, time)).2.1 },
        (CompactionManager.compact p env (s.compaction, time)).2.2) := by
  rw [LsmTree.compact, exec_withGuard, if_neg (by decide), exec_attempt]
  rfl

end LsmTree

namespace NamedHistory
open LsmTree CompactionManager

/-- A step of the tree, compactions included. -/
def treeStep (p : Platform) (c : Codec) (env : Env) (n : NamedHistory) : TreeCall → NamedHistory
  | .insertion call => step p c env n (.insertion call)
  | .flushMemtable => step p c env n .flushMemtable
  | .compact =>
    let outcome := exec (LsmTree.compact p env) [] (n.tree, n.time)
    ⟨⟨outcome.state.1, outcome.state.2, n.inserted⟩, n.rows⟩

/-- Insert calls are clean and find room for their symbols, a flush writes its table, and a
compaction returns normally. No table gets a row outside its ends, and the newest version of
every row survives. -/
def KeepsLookups (p : Platform) (c : Codec) (env : Env) (n : NamedHistory) : TreeCall → Prop
  | .insertion call => call.clean c env n.tree n.time = true ∧
      (treeStep p c env n (.insertion call)).tree.symbolDict.len ≤ 65536
  | .flushMemtable => n.tree.memtable.chain = [] ∨
      (n.tree.flushTable p env n.time).isSome = true ∧
        ∀ x ∈ n.tree.memtable.chain, SsTable.WithinEnds n.tree.memtable.chain x.timestamp
  | .compact => (exec (LsmTree.compact p env) [] (n.tree, n.time)).succeeded = true ∧
      MergesWithinEnds p n.tree.compaction ∧
      ∀ x ∈ n.inserted,
        NewestSurvives (n.tree.compaction.due p) (n.tree.compaction.versions x.key)

/-- A symbol without an id has no rows, and lookups of it are refused. Any other lookup gets
what the map of the rows has. -/
def LooksUpAsMap (n : NamedHistory) : Prop :=
  ∀ symbol, match n.tree.symbolDict.getId symbol with
  | none => (∀ r ∈ n.rows, r.1 ≠ symbol) ∧ ∀ t,
      exec (get .calm symbol t) [] (n.tree, n.time) =
        .finished (.error (.error (.symbolNotFound symbol))) [] (n.tree, n.time)
  | some id => ∀ t, ∃ time, exec (get .calm symbol t) [] (n.tree, n.time) = .finished
      (.ok ((rowAt n.rows symbol t).map fun tick => tick.withSymbol id)) [] (n.tree, time)

/-- What the memtable does not have, the tables have in its newest version. -/
structure LookupInv (n : NamedHistory) : Prop extends Named n where
  levels : n.tree.compaction.levels ≠ []
  reveals : n.tree.compaction.Reveals
  memtable : ∀ key x, n.tree.memtable.get key = some x → n.last key = some x
  tables : ∀ key, n.tree.memtable.get key = none → n.tree.compaction.find key = n.last key

theorem lookupInv_start (flushThreshold : Nat) (role : NodeRole) :
    LookupInv (start flushThreshold role) where
  toNamed := named_start flushThreshold role
  levels := List.cons_ne_nil _ _
  reveals := List.forall_mem_nil _
  memtable := fun key x h => by cases h
  tables := fun _ _ => rfl

variable {n : NamedHistory}

theorem LookupInv.find_eq_last (h : LookupInv n) (key : Key) : n.tree.find key = n.last key := by
  rw [find_eq h.reveals]
  cases hget : n.tree.memtable.get key with
  | some x => exact (h.memtable key x hget).symm
  | none => exact h.tables key hget

theorem looksUpAsMap_of_inv (h : LookupInv n) : LooksUpAsMap n := by
  intro symbol
  cases hid : n.tree.symbolDict.getId symbol with
  | none => exact ⟨h.no_rows hid, fun t => exec_get_unknown hid t n.time⟩
  | some id =>
    intro t
    have hio (n : Nat) : Env.calm.io n = true := rfl
    obtain ⟨time, hexec⟩ := exec_get hio (askable_of_reveals h.reveals) hid t n.time
    rw [h.find_eq_last, h.last_eq hid] at hexec
    exact ⟨time, hexec⟩

/-- More rows in the memtable. -/
theorem lookupInv_insertion (p : Platform) (c : Codec) (env : Env) {call : InsertCall}
    (h : LookupInv n) (hclean : call.clean c env n.tree n.time = true)
    (hnamed : Named (step p c env n (.insertion call))) :
    LookupInv (step p c env n (.insertion call)) := by
  obtain ⟨r, dict, rows, wal, time, hexec, -, -, hrows⟩ := InsertCall.settles p hclean
  have hinserted : (History.step p c env n.toHistory (.insertion call)).inserted =
      n.inserted ++ rows := by
    rw [History.step, hexec]
    rcases hrows with ⟨rfl, rfl⟩ | ⟨⟨e, rfl⟩, rfl⟩
    · rfl
    · exact (List.append_nil _).symm
  have htree : (History.step p c env n.toHistory (.insertion call)).tree =
      ((n.tree.withDict dict).take rows).withWal wal := by
    rw [History.step, hexec]
    rfl
  have hget (key : Key) : (step p c env n (.insertion call)).tree.memtable.get key =
      (firstAt Tick.key rows.reverse key).or (n.tree.memtable.get key) := by
    rw [step, htree]
    exact SkipList.get_insertAll n.tree.memtable rows key
  have hlast (key : Key) : (step p c env n (.insertion call)).last key =
      (firstAt Tick.key rows.reverse key).or (n.last key) := by
    rw [step, History.last, hinserted, List.reverse_append, firstAt_append]
    rfl
  have hcompaction : (step p c env n (.insertion call)).tree.compaction = n.tree.compaction := by
    rw [step, htree]
    rfl
  refine ⟨hnamed, ?_, ?_, fun key x hx => ?_, fun key hx => ?_⟩
  · rw [hcompaction]
    exact h.levels
  · rw [hcompaction]
    exact h.reveals
  · rw [hget] at hx
    rw [hlast]
    cases hfirst : firstAt Tick.key rows.reverse key with
    | some y =>
      rw [hfirst] at hx
      exact hx
    | none =>
      rw [hfirst] at hx
      exact h.memtable key x hx
  · rw [hget, Option.or_eq_none_iff] at hx
    rw [hlast, hx.1, hcompaction]
    exact h.tables key hx.2

/-- The rows of the memtable become the newest table. -/
theorem lookupInv_flush (p : Platform) (c : Codec) (env : Env) (h : LookupInv n)
    (hkeeps : KeepsLookups p c env n .flushMemtable)
    (hnamed : Named (step p c env n .flushMemtable)) :
    LookupInv (step p c env n .flushMemtable) := by
  have hends := flush_ends p env h.levels n.time
  rw [step, History.step] at hnamed ⊢
  generalize exec (LsmTree.flushMemtable p env) [] (n.tree, n.time) = outcome at hends hnamed
  cases hends with
  | nothing _ => exact ⟨hnamed, h.levels, h.reveals, h.memtable, h.tables⟩
  | unwritten hchain hnone e =>
    obtain ⟨hsome, -⟩ := hkeeps.resolve_left hchain
    rw [hnone] at hsome
    cases hsome
  | @written t hchain ht r =>
    obtain ⟨-, hwithin⟩ := hkeeps.resolve_left hchain
    have hrows := rows_flushTable ht
    obtain ⟨file, hwrite⟩ := write_of_flushTable ht
    have hreveals : t.Reveals := by
      rw [← hrows] at hwithin hwrite
      exact Table.reveals_of_write hwrite hwithin
    refine ⟨hnamed, ?_, ?_, fun key x hx => ?_, fun key _ => ?_⟩
    · exact levels_register_ne_nil (s := n.tree.drained) h.levels t
    · exact reveals_register (s := n.tree.drained) h.levels hreveals h.reveals
    · cases hx
    · have hfind := find_register (s := n.tree.drained) h.levels t key
      rw [hrows, ← SkipList.get_eq_firstAt] at hfind
      refine hfind.trans ?_
      cases hget : n.tree.memtable.get key with
      | some x => exact (h.memtable key x hget).symm
      | none => exact h.tables key hget

theorem lookupInv_compact (p : Platform) (c : Codec) (env : Env) (h : LookupInv n)
    (hkeeps : KeepsLookups p c env n .compact) : LookupInv (treeStep p c env n .compact) := by
  obtain ⟨hreturns, hends, hnewest⟩ := hkeeps
  rw [exec_compact] at hreturns
  rw [treeStep, exec_compact]
  have hok : (CompactionManager.compact p env (n.tree.compaction, n.time)).1 = .ok () := by
    cases hresult : (CompactionManager.compact p env (n.tree.compaction, n.time)).1 with
    | ok => rfl
    | error e =>
      rw [hresult] at hreturns
      cases hreturns
  refine ⟨⟨h.names, h.ids, h.plain, h.room⟩, levels_compact_ne_nil env h.levels n.time,
    reveals_compact env hends h.reveals n.time, h.memtable, fun key hx => ?_⟩
  refine ((compaction_keeps_newest_iff (DiskM.eq_ok hok) key).mpr ?_).trans (h.tables key hx)
  cases hlast : n.last key with
  | none => exact newestSurvives_of_not_found ((h.tables key hx).trans hlast) _
  | some x =>
    obtain ⟨hmem, rfl⟩ := firstAt_eq_some Tick.key hlast
    exact hnewest x (List.mem_reverse.mp hmem)

theorem lookupInv_step (p : Platform) (c : Codec) (env : Env) (n : NamedHistory) (call : TreeCall)
    (h : LookupInv n) (hkeeps : KeepsLookups p c env n call) :
    LookupInv (treeStep p c env n call) := by
  cases call with
  | insertion call =>
    exact lookupInv_insertion p c env h hkeeps.1
      (named_step p c env h.levels (.insertion call) h.toNamed hkeeps.2)
  | flushMemtable =>
    have hroom : (History.step p c env n.toHistory .flushMemtable).tree.symbolDict.len ≤ 65536 := by
      rw [symbolDict_flush p c env h.levels]
      exact h.room
    exact lookupInv_flush p c env h hkeeps
      (named_step p c env h.levels .flushMemtable h.toNamed hroom)
  | compact => exact lookupInv_compact p c env h hkeeps

/-- Whether the newest versions survive a compaction can be seen from what it does. -/
instance (p : Platform) (c : Codec) (env : Env) (n : NamedHistory) (call : TreeCall) :
    Decidable (KeepsLookups p c env n call) :=
  match call with
  | .insertion _ => inferInstanceAs (Decidable (_ = _ ∧ _))
  | .flushMemtable => inferInstanceAs (Decidable (_ ∨ _))
  | .compact => decidable_of_iff
      ((CompactionManager.compact p env (n.tree.compaction, n.time)).1 = .ok () ∧
        MergesWithinEnds p n.tree.compaction ∧ ∀ x ∈ n.inserted,
          (CompactionManager.compact p env (n.tree.compaction, n.time)).2.1.find x.key =
            n.tree.compaction.find x.key) (by
    rw [KeepsLookups, exec_compact]
    cases hresult : (CompactionManager.compact p env (n.tree.compaction, n.time)).1 with
    | error e => exact iff_of_false (fun h => nomatch h.1) fun h => nomatch h.1
    | ok =>
      have hkept := compaction_keeps_newest_iff (DiskM.eq_ok hresult)
      exact and_congr (iff_of_true rfl rfl) (and_congr_right fun _ => forall₂_congr fun x _ =>
        hkept x.key))

end NamedHistory

end Graphite
