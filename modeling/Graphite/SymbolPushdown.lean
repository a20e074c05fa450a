import Graphite.CompactionEvents
import Graphite.TreeRuns
import Graphite.SsTablePruning

/-! The filters that a scan for a symbol asks, over runs of inserts, flushes and
compactions. A flush names the symbols after the dictionary of the tree, a compaction after
the copy that its manager got when the tree was opened. -/

namespace Graphite
open KeyedRows LockProgram GuardedRuns CompactionManager

/-- The filter of the table answers true for the symbols of its rows. -/
def Table.Announces (t : Table) (dict : SymbolDictionary) : Prop :=
  ∀ x ∈ t.rows, ∃ name, dict.getSymbol x.symbolId = some name ∧
    t.sst.mayContainSymbol name = some true

theorem Table.Announces.mono {t : Table} {d e : SymbolDictionary} (h : t.Announces d)
    (hgrown : d.idToSymbol <+: e.idToSymbol) : t.Announces e := by
  intro x hx
  obtain ⟨name, hname, hasked⟩ := h x hx
  exact ⟨name, SymbolDictionary.getSymbol_of_grown hgrown hname, hasked⟩

/-- A table written under a dictionary that has the tree's names for its rows. -/
theorem Table.announces_of_write {p : Platform} {path : String} {level : Nat}
    {d dict : SymbolDictionary} {file : BigEndian.Bytes} {t : Table}
    (h : SsTable.write p path t.rows level d = some (file, t.sst))
    (hknown : InsertCall.Known dict t.rows)
    (hnames : ∀ x ∈ t.rows, SsTable.symbolName d x.symbolId = SsTable.symbolName dict x.symbolId) :
    t.Announces dict := by
  intro x hx
  obtain ⟨name, hname⟩ := hknown x hx
  refine ⟨name, hname, ?_⟩
  have hasked := SsTable.mayContainSymbol_of_write h hx
  rwa [hnames x hx, SsTable.symbolName, hname] at hasked

namespace CompactionManager

variable {p : Platform} {m m₁ m₂ : CompactionManager} {dict : SymbolDictionary}

def Announces (m : CompactionManager) (dict : SymbolDictionary) : Prop :=
  ∀ n, ∀ t ∈ m.tablesAt n, t.Announces dict

/-- The manager has the tree's names for the rows of every level that it merges. -/
def NamesMerged (p : Platform) (m : CompactionManager) (dict : SymbolDictionary) : Prop :=
  ∀ i ∈ m.due p, ∀ t ∈ m.gathered p i, ∀ x ∈ t.rows,
    SsTable.symbolName m.symbolDict x.symbolId = SsTable.symbolName dict x.symbolId

instance (p : Platform) (m : CompactionManager) (dict : SymbolDictionary) :
    Decidable (NamesMerged p m dict) :=
  inferInstanceAs (Decidable (∀ _ ∈ _, ∀ _ ∈ _, ∀ _ ∈ _, _))

theorem announces_merge {i : Nat} (hnames : NamesMerged p m dict) (hdue : i ∈ m.due p)
    (hprogress : Progress p m i m₁) (hann : m₁.Announces dict) (h : PartlyMerged p i m₁ m₂) :
    m₂.Announces dict := by
  intro n
  by_cases hi : n = i
  · subst hi
    rcases h.here with hsame | hnil
    · rw [hsame]
      exact hann n
    · rw [hnil]
      exact List.forall_mem_nil _
  by_cases hnext : n = i + 1
  · subst hnext
    obtain ⟨tables, happ, hparts, hwritten⟩ := h.next
    rw [happ, List.forall_mem_append]
    refine ⟨hann (i + 1), fun t ht => ?_⟩
    obtain ⟨path, file, hwrite⟩ := hwritten t ht
    have hrows : ∀ x ∈ t.rows, x ∈ (m₁.tablesAt i).flatMap Table.rows := by
      intro x hx
      have hchunk := hparts.subset (List.mem_map_of_mem (f := Table.rows) ht)
      have hflat := List.mem_flatten_of_mem hchunk hx
      rw [flatten_chunks (by decide)] at hflat
      exact mem_mergeRows Tick.key hflat
    rw [hprogress.symbolDict] at hwrite
    refine Table.announces_of_write hwrite (fun x hx => ?_) fun x hx => ?_
    · obtain ⟨source, hsource, hmem⟩ := List.mem_flatMap.mp (hrows x hx)
      obtain ⟨name, hname, -⟩ := hann i source hsource x hmem
      exact ⟨name, hname⟩
    · have hmem := hrows x hx
      rw [rows_congr hprogress.here] at hmem
      obtain ⟨source, hsource, hmem⟩ := List.mem_flatMap.mp hmem
      exact hnames i hdue source hsource x hmem
  · rw [h.others n hi hnext]
    exact hann n

theorem announces_compact (env : Env) (hnames : NamesMerged p m dict) (h : m.Announces dict)
    (time : Nat) : (compact p env (m, time)).2.1.Announces dict :=
  compact_induct (Q := fun m => m.Announces dict) h (fun _ _ _ => announces_merge hnames) time

end CompactionManager

namespace LsmTree

/-- Every registered table answers for the symbols of its rows. -/
def PushdownSound (s : LsmTree) : Prop := ∀ t ∈ s.storageOrder, t.Announces s.symbolDict

theorem pushdownSound_iff (s : LsmTree) :
    s.PushdownSound ↔ s.compaction.Announces s.symbolDict := by
  constructor
  · exact fun h n t ht => h t ((mem_registered_iff _ t).mpr ⟨n, ht⟩)
  · intro h t ht
    obtain ⟨n, hn⟩ := (mem_registered_iff _ t).mp ht
    exact h n t hn

end LsmTree

namespace TreeCall
open LsmTree

variable {p : Platform} {c : Codec} {env : Env}

/-- A compaction merges rows of no symbol that the manager has another name for. -/
def KeepsNames (p : Platform) (st : LsmTree × Nat) : TreeCall → Prop
  | .insertion _ => True
  | .flushMemtable => True
  | .compact => NamesMerged p st.1.compaction st.1.symbolDict

instance (p : Platform) (st : LsmTree × Nat) (call : TreeCall) :
    Decidable (KeepsNames p st call) :=
  match call with
  | .insertion _ => isTrue trivial
  | .flushMemtable => isTrue trivial
  | .compact => inferInstanceAs (Decidable (NamesMerged p _ _))

/-- The rows in memory have names, those in the tables are answered for. -/
structure Announced (s : LsmTree) : Prop where
  levels : s.compaction.levels ≠ []
  known : InsertCall.Known s.symbolDict s.memtable.chain
  tables : s.compaction.Announces s.symbolDict

theorem announced_of_moves {s s' : LsmTree} {call : TreeCall} {time : Nat}
    (h : Moves p env s call s') (hinv : Announced s) (hnames : KeepsNames p (s, time) call) :
    Announced s' := by
  refine ⟨levels_of_moves h hinv.levels, ?_, ?_⟩
  · cases h with
    | stored _ _ hgrown hknown =>
      intro x hx
      rcases SkipList.mem_insertAll hx with hx | hx
      · exact hknown x hx
      · exact InsertCall.known_mono hgrown hinv.known x hx
    | stuck => exact List.forall_mem_nil _
    | idle => exact hinv.known
    | unwritten => exact List.forall_mem_nil _
    | flushed => exact List.forall_mem_nil _
    | compacted => exact hinv.known
  · cases h with
    | stored _ _ hgrown => exact fun n t ht => (hinv.tables n t ht).mono hgrown
    | stuck _ _ hgrown => exact fun n t ht => (hinv.tables n t ht).mono hgrown
    | idle => exact hinv.tables
    | unwritten => exact hinv.tables
    | @flushed _ t ht wal =>
      intro n x hx
      have htables := tablesAt_register (s := s.drained) hinv.levels t n
      rw [show x ∈ ((s.drained.register t).withWal wal).compaction.tablesAt n ↔ _ from
        Eq.to_iff (congrArg (x ∈ ·) htables)] at hx
      split_ifs at hx
      · rcases List.mem_append.mp hx with hx | hx
        · exact hinv.tables n x hx
        · obtain rfl := List.mem_singleton.mp hx
          obtain ⟨file, hwrite⟩ := write_of_flushTable ht
          have hrows := rows_flushTable ht
          rw [← hrows] at hwrite
          exact Table.announces_of_write hwrite (hrows ▸ hinv.known) fun _ _ => rfl
      · exact hinv.tables n x hx
    | compacted time => exact announces_compact env hnames hinv.tables time

/-- Inserts under a symbol at these timestamps, each flushed. -/
def symbolFlushes (symbol : String) (timestamps : List Int64) : List TreeCall :=
  timestamps.flatMap fun t => [.insertion (.insert symbol (flatTick 0 t 1)), .flushMemtable]

theorem pushdown_sound (p : Platform) (c : Codec) (env : Env) (flushThreshold : Nat)
    (role : NodeRole) (calls : List TreeCall)
    (h : Guarded (step p c env) (KeepsNames p) (fresh flushThreshold role, 0) calls) :
    Always (step p c env) (fun st => st.1.PushdownSound) (fresh flushThreshold role, 0) calls := by
  have hstart : Announced (fresh flushThreshold role) := by
    refine ⟨List.cons_ne_nil _ _, List.forall_mem_nil _, fun n => ?_⟩
    rcases n with _ | n <;> exact List.forall_mem_nil _
  refine always_of_guarded (fun st => Announced st.1)
    (fun st hinv => (pushdownSound_iff st.1).mpr hinv.tables) ?_ hstart h
  rintro ⟨s, time⟩ call hinv hnames
  exact announced_of_moves (moves p c env hinv.levels time call) hinv hnames

/-- The one symbol whose rows keep their filter. -/
theorem pushdown_sound_unknown :
    Always (step .simple (ticksCodec [1, 2, 3, 4]) .calm) (fun st => st.1.PushdownSound)
      (fresh 10 .primary, 0) (symbolFlushes "UNKNOWN" [1, 2, 3, 4] ++ [.compact]) :=
  pushdown_sound .simple (ticksCodec [1, 2, 3, 4]) .calm 10 .primary _ (by decide +kernel)

/-- Four versions of a row become one table, which answers no for the symbol of the row. -/
theorem compaction_forgets_symbol :
    ¬ Always (step .simple (ticksCodec [5, 5, 5, 5]) .calm) (fun st => st.1.PushdownSound)
      (fresh 10 .primary, 0) (symbolFlushes "A" [5, 5, 5, 5] ++ [.compact]) := by
  intro h
  have hlast := h _ (List.prefix_refl _)
  generalize hrun : run (step .simple (ticksCodec [5, 5, 5, 5]) .calm) (fresh 10 .primary, 0)
    (symbolFlushes "A" [5, 5, 5, 5] ++ [.compact]) = final at hlast
  have hname : final.1.symbolDict.getSymbol 0 = some "A" := by
    rw [← hrun]
    decide +kernel
  have hfails : ∃ t ∈ final.1.storageOrder, ∃ x ∈ t.rows, x.symbolId = 0 ∧
      t.sst.mayContainSymbol "A" = some false := by
    rw [← hrun]
    decide +kernel
  obtain ⟨t, ht, x, hx, hid, hfalse⟩ := hfails
  obtain ⟨name, hsome, htrue⟩ := hlast t ht x hx
  rw [hid, hname] at hsome
  cases hsome
  rw [hfalse] at htrue
  cases htrue

end TreeCall

end Graphite
