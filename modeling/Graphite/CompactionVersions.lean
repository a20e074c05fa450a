import Graphite.Compaction
import Graphite.LeveledVersions

/-! What a compaction does to the versions of a key. Merging a level concatenates its
tables from the oldest to the newest, and of equal keys the first one stays: the level
sinks, in the sense of `LeveledVersions`. -/

namespace Graphite
open KeyedRows LeveledVersions

theorem selects_all (tick : Tick) :
    SsTable.selects none Int64.minValue Int64.maxValue tick = true := by
  simp [SsTable.selects, Int64.minValue_le, Int64.le_maxValue]

theorem Table.scan_all (t : Table) : t.scan none Int64.minValue Int64.maxValue = t.rows := by
  have hoverlaps : t.sst.overlapsTimeRange Int64.minValue Int64.maxValue = true := by
    simp [SsTable.overlapsTimeRange, Int64.minValue_le, Int64.le_maxValue]
  simp [Table.scan, hoverlaps, selects_all]

theorem flatten_chunks {α : Type} {size : Nat} (hsize : 0 < size) (xs : List α) :
    (chunks size xs).flatten = xs := by
  have hgrown (n : Nat) : ((List.range n).map fun i => (xs.drop (i * size)).take size).flatten =
      xs.take (n * size) := by
    induction n with
    | zero => simp
    | succ n ih =>
      rw [List.range_succ, List.map_append, List.flatten_append, ih, Nat.succ_mul, List.take_add]
      simp
  rw [chunks, hgrown]
  refine List.take_of_length_le ?_
  have := Nat.div_add_mod (xs.length + size - 1) size
  have hmod := Nat.mod_lt (xs.length + size - 1) hsize
  rw [Nat.mul_comm]
  omega

/-- A table, whatever its file is called. -/
def Table.unnamed (t : Table) : Table := { t with sst := { t.sst with path := "" } }

/-- The name of the file is not part of the file. -/
theorem SsTable.write_path (p : Platform) (path : String) (ticks : List Tick) (level : Nat)
    (dict : SymbolDictionary) :
    write p path ticks level dict =
      (write p "" ticks level dict).map fun r => (r.1, { r.2 with path }) := by
  unfold write
  cases buildBloom p ticks dict with
  | none => rfl
  | some bloom => cases buildData p ticks level <;> rfl

/-- The table that is written under another name. -/
theorem Table.unnamed_of_write {p : Platform} {path : String} {ticks : List Tick} {level : Nat}
    {dict : SymbolDictionary} {file : BigEndian.Bytes} {sst : SsTable}
    (h : SsTable.write p path ticks level dict = some (file, sst)) :
    ((SsTable.write p "" ticks level dict).map fun r => (⟨r.2, ticks⟩ : Table)) =
      some (Table.unnamed ⟨sst, ticks⟩) := by
  rw [SsTable.write_path] at h
  obtain ⟨r, hr, heq⟩ := Option.map_eq_some_iff.mp h
  have hsame := hr.symm.trans (SsTable.write_path p "" ticks level dict)
  rw [hr, Option.map_some, Option.some_inj] at hsame
  have hsst : r.2 = { r.2 with path := "" } := congrArg Prod.snd hsame
  cases heq
  rw [hr, Option.map_some, hsst]
  rfl

theorem filterMap_firstAt {parts : List (List Tick)} (h : Increasing Tick.key parts.flatten)
    (key : Key) : (parts.filterMap fun rows => firstAt Tick.key rows key) =
      (firstAt Tick.key parts.flatten key).toList := by
  induction parts with
  | nil => rfl
  | cons rows parts ih =>
    rw [List.flatten_cons] at h
    obtain ⟨-, hparts, hlt⟩ := List.pairwise_append.mp h
    rw [List.flatten_cons, firstAt_append]
    cases hfirst : firstAt Tick.key rows key with
    | none =>
      simp only [List.filterMap_cons, hfirst, ih hparts, Option.none_or]
    | some x =>
      obtain ⟨hx, hkey⟩ := firstAt_eq_some Tick.key hfirst
      have hnone : firstAt Tick.key parts.flatten key = none := by
        rw [firstAt_eq_none_iff]
        intro y hy hyk
        exact (hlt x hx y hy).ne (hkey.trans hyk.symm)
      simp only [List.filterMap_cons, hfirst, ih hparts, hnone]
      rfl

theorem writeTable_eq_ok {σ ε : Type} {p : Platform} {env : Env} {wrap : SsTableError → ε}
    {path : String} {ticks : List Tick} {level : Nat} {dict : SymbolDictionary} {s : σ}
    {time : Nat} {st' : σ × Nat} {t : Table}
    (h : writeTable p env wrap path ticks level dict (s, time) = (.ok t, st')) :
    st'.1 = s ∧ ∃ file sst, SsTable.write p path ticks level dict = some (file, sst) ∧
      t = ⟨sst, ticks⟩ := by
  unfold writeTable at h
  obtain ⟨_, st₁, hop, h⟩ := DiskM.bind_eq_ok h
  have hst : st₁.1 = s := by
    cases (Prod.mk.inj hop).2
    rfl
  cases hwrite : SsTable.write p path ticks level dict with
  | none =>
    rw [hwrite] at h
    cases h
  | some r =>
    rw [hwrite] at h
    cases h
    exact ⟨hst, r.1, r.2, rfl, rfl⟩

namespace CompactionManager

def tablesAt (m : CompactionManager) (n : Nat) : List Table :=
  ((m.levels[n]?).map Level.tables).getD []

/-- The versions of a key in these tables, the oldest table first. -/
def tableVersions (key : Key) (tables : List Table) : List Tick :=
  tables.filterMap fun t => firstAt Tick.key t.rows key

def versions (m : CompactionManager) (key : Key) : Versions Tick :=
  fun n => tableVersions key (m.tablesAt n)

/-- The levels from 0 downwards, the tables of each from last to first. -/
def find (m : CompactionManager) (key : Key) : Option Tick :=
  m.levels.findSome? fun l => l.tables.reverse.findSome? fun t => firstAt Tick.key t.rows key

theorem find_eq_some_iff (m : CompactionManager) (key : Key) (v : Tick) :
    m.find key = some v ↔ IsNewest (m.versions key) v := by
  have htables (l : Level) : (l.tables.reverse.findSome? fun t => firstAt Tick.key t.rows key) =
      (tableVersions key l.tables).getLast? := by
    rw [← List.head?_filterMap, List.filterMap_reverse, List.head?_reverse]
    rfl
  have hversions : m.versions key = ofList (m.levels.map fun l => tableVersions key l.tables) := by
    funext n
    rw [ofList, List.getD_eq_getElem?_getD, List.getElem?_map, versions, tablesAt]
    cases m.levels[n]? <;> rfl
  rw [hversions, ← findSome?_eq_some_iff, List.findSome?_map, find]
  simp only [htables, Function.comp_def]

/-- The version that comes first when the tables are put one behind the other. -/
theorem firstAt_flatMap_rows (key : Key) (tables : List Table) :
    firstAt Tick.key (tables.flatMap Table.rows) key = (tableVersions key tables).head? := by
  induction tables with
  | nil => rfl
  | cons t tables ih =>
    rw [List.flatMap_cons, firstAt_append, ih, tableVersions, tableVersions, List.filterMap_cons]
    cases firstAt Tick.key t.rows key <;> rfl

def fileSizes (tables : List Table) : Nat := (tables.map fun t => t.sst.tableMeta.fileSize).sum

/-- The tables that merging `tables` puts on a level. -/
def written (p : Platform) (dict : SymbolDictionary) (level : Nat) (tables : List Table) :
    List Table :=
  (chunks CHUNK_SIZE (mergeRows Tick.key (tables.flatMap Table.rows))).filterMap fun chunk =>
    (SsTable.write p "" chunk level dict).map fun r => ⟨r.2, chunk⟩

/-- The number of levels there are after level 0 has been looked at. -/
def checkedLevels (m : CompactionManager) : Nat :=
  if L0_MAX_TABLES ≤ (m.tablesAt 0).length then max m.levels.length 2 else m.levels.length

/-- Whether a level with these tables is over its limit. -/
def overLimit (m : CompactionManager) : (n : Nat) → List Table → Bool
  | 0, tables => L0_MAX_TABLES ≤ tables.length
  | n + 1, tables => n + 1 < m.checkedLevels &&
      LEVEL_SIZE_RATIO ^ (n + 1) * blockSizeTarget < fileSizes tables

/-- The tables of a level together with those that the level above it sends down. -/
def gathered (p : Platform) (m : CompactionManager) : Nat → List Table
  | 0 => m.tablesAt 0
  | n + 1 => m.tablesAt (n + 1) ++
      if m.overLimit n (gathered p m n) then written p m.symbolDict (n + 1) (gathered p m n) else []

/-- Those of the first `n` levels that a compaction merges into the next one. -/
def dueBelow (p : Platform) (m : CompactionManager) (n : Nat) : List Nat :=
  (List.range n).filter fun i => m.overLimit i (m.gathered p i)

/-- The levels that a compaction merges into the next one. -/
def due (p : Platform) (m : CompactionManager) : List Nat := m.dueBelow p m.checkedLevels

theorem pairwise_due (m : CompactionManager) (p : Platform) : (m.due p).Pairwise (· < ·) :=
  List.Pairwise.filter _ List.pairwise_lt_range

theorem dueBelow_succ (p : Platform) (m : CompactionManager) (n : Nat) :
    m.dueBelow p (n + 1) =
      m.dueBelow p n ++ if m.overLimit n (m.gathered p n) then [n] else [] := by
  rw [dueBelow, dueBelow, List.range_succ, List.filter_append, List.filter_singleton,
    cond_eq_ite]

theorem tablesAt_clearLevel (m : CompactionManager) (i n : Nat) :
    (m.clearLevel i).tablesAt n = if n = i then [] else m.tablesAt n := by
  rw [tablesAt, clearLevel, List.getElem?_modify, tablesAt]
  rcases eq_or_ne i n with rfl | h
  · cases m.levels[i]? <;> simp
  · cases m.levels[n]? <;> simp [h, h.symm]

theorem tablesAt_ensureLevel (m : CompactionManager) (i n : Nat) :
    (m.ensureLevel i).tablesAt n = m.tablesAt n := by
  unfold ensureLevel
  split_ifs
  · rw [tablesAt, tablesAt, List.getElem?_append]
    split_ifs with h
    · rfl
    · rw [List.getElem?_eq_none (by omega : m.levels.length ≤ n)]
      cases hn : n - m.levels.length <;> simp [Level.new]
  · rfl

theorem tablesAt_addTable (m : CompactionManager) {i : Nat} (hi : i < m.levels.length)
    (t : Table) (n : Nat) :
    (m.addTable i t).tablesAt n = if n = i then m.tablesAt n ++ [t] else m.tablesAt n := by
  rw [tablesAt, addTable, List.getElem?_modify, tablesAt]
  rcases eq_or_ne i n with rfl | h
  · simp [List.getElem?_eq_getElem hi, Level.addTable]
  · cases m.levels[n]? <;> simp [h, h.symm]

/-- The rows of all tables of a level, one table behind the other. -/
theorem readTables_eq_ok {env : Env} {tables : List Table} {ticks : List Tick}
    {m m' : CompactionManager} {time time' : Nat}
    (h : readTables env tables (m, time) = (.ok ticks, (m', time'))) :
    ticks = tables.flatMap Table.rows ∧ m'.levels = m.levels ∧ m'.symbolDict = m.symbolDict := by
  induction tables generalizing ticks m time with
  | nil =>
    cases h
    exact ⟨rfl, rfl, rfl⟩
  | cons t tables ih =>
    unfold readTables at h
    obtain ⟨_, st₁, hopen, h⟩ := DiskM.bind_eq_ok h
    obtain ⟨_, st₂, hread, h⟩ := DiskM.bind_eq_ok h
    obtain ⟨_, st₃, hagain, h⟩ := DiskM.bind_eq_ok h
    obtain ⟨rest, st₄, hrest, h⟩ := DiskM.bind_eq_ok h
    cases h
    cases hread
    cases (Prod.mk.inj hopen).2
    cases (Prod.mk.inj hagain).2
    obtain ⟨rfl, hlevels, hdict⟩ := ih hrest
    refine ⟨?_, hlevels, hdict⟩
    rw [Table.scan_all, List.flatMap_cons]
    rfl

/-- The chunks that are written become tables behind those of the level. -/
theorem writeChunks_eq_ok {p : Platform} {env : Env} {level : Nat} {parts : List (List Tick)}
    {m m' : CompactionManager} {time time' : Nat} (hlevel : level < m.levels.length)
    (h : writeChunks p env level parts (m, time) = (.ok (), (m', time'))) :
    ∃ tables, m'.tablesAt level = m.tablesAt level ++ tables ∧ tables.map Table.rows = parts ∧
      tables.map Table.unnamed = (parts.filterMap fun chunk =>
        (SsTable.write p "" chunk level m.symbolDict).map fun r => ⟨r.2, chunk⟩) ∧
      (∀ n, n ≠ level → m'.tablesAt n = m.tablesAt n) ∧ m'.symbolDict = m.symbolDict ∧
      m'.levels.length = m.levels.length := by
  induction parts generalizing m time with
  | nil =>
    cases h
    exact ⟨[], by simp, rfl, rfl, fun _ _ => rfl, rfl, rfl⟩
  | cons chunk parts ih =>
    unfold writeChunks at h
    obtain ⟨nanos, st₁, hnow, h⟩ := DiskM.bind_eq_ok h
    cases hnow
    rw [DiskM.current_bind] at h
    obtain ⟨t, st₃, hwrite, h⟩ := DiskM.bind_eq_ok h
    obtain ⟨hst, file, sst, hsst, rfl⟩ := writeTable_eq_ok hwrite
    obtain ⟨_, st₄, hadd, h⟩ := DiskM.bind_eq_ok h
    obtain ⟨m₃, time₃⟩ := st₃
    obtain rfl : m₃ = m := hst
    cases hadd
    have hlength : (m₃.addTable level ⟨sst, chunk⟩).levels.length = m₃.levels.length :=
      List.length_modify _ _ _
    obtain ⟨tables, hnext, hrows, hwritten, hother, hdict, hlen⟩ :=
      ih (by rwa [hlength]) h
    refine ⟨⟨sst, chunk⟩ :: tables, ?_, ?_, ?_, ?_, hdict, hlen.trans hlength⟩
    · rw [hnext, tablesAt_addTable m₃ hlevel, if_pos rfl, List.append_assoc]
      rfl
    · rw [List.map_cons, hrows]
    · simp only [List.map_cons, hwritten, List.filterMap_cons, Table.unnamed_of_write hsst]
      rfl
    · intro n hn
      rw [hother n hn, tablesAt_addTable m₃ hlevel, if_neg hn]

/-- What merging a level that has tables into the next one does. -/
structure Merged (p : Platform) (i : Nat) (m m' : CompactionManager) : Prop where
  emptied : m'.tablesAt i = []
  next : ∃ tables, m'.tablesAt (i + 1) = m.tablesAt (i + 1) ++ tables ∧
    tables.map Table.rows =
      chunks CHUNK_SIZE (mergeRows Tick.key ((m.tablesAt i).flatMap Table.rows)) ∧
    tables.map Table.unnamed = written p m.symbolDict (i + 1) (m.tablesAt i)
  others : ∀ n, n ≠ i → n ≠ i + 1 → m'.tablesAt n = m.tablesAt n
  symbolDict : m'.symbolDict = m.symbolDict
  length : m'.levels.length = max m.levels.length (i + 2)

theorem tablesAt_congr {m m' : CompactionManager} (h : m'.levels = m.levels) (n : Nat) :
    m'.tablesAt n = m.tablesAt n := by
  rw [tablesAt, tablesAt, h]

theorem lt_length_of_tablesAt {m : CompactionManager} {n : Nat} (h : m.tablesAt n ≠ []) :
    n < m.levels.length := by
  by_contra hge
  exact h (by rw [tablesAt, List.getElem?_eq_none (by omega)]; rfl)

theorem compactLevel_eq_ok {p : Platform} {env : Env} {i : Nat} {m m' : CompactionManager}
    {time time' : Nat} (hne : m.tablesAt i ≠ [])
    (h : compactLevel p env i (m, time) = (.ok (), (m', time'))) : Merged p i m m' := by
  have hi := lt_length_of_tablesAt hne
  unfold compactLevel at h
  rw [DiskM.current_bind] at h
  cases hlevel : m.levels[i]? with
  | none => simp [tablesAt, hlevel] at hne
  | some level =>
    have htables : m.tablesAt i = level.tables := by rw [tablesAt, hlevel]; rfl
    simp only [hlevel, if_neg (htables ▸ hne)] at h
    obtain ⟨ticks, ⟨m₁, time₁⟩, hread, h⟩ := DiskM.bind_eq_ok h
    obtain ⟨rfl, hlevels, hdict⟩ := readTables_eq_ok hread
    obtain ⟨_, st₂, hclear, h⟩ := DiskM.bind_eq_ok h
    cases hclear
    obtain ⟨_, st₃, hensure, h⟩ := DiskM.bind_eq_ok h
    cases hensure
    have hlen : ((m₁.clearLevel i).ensureLevel (i + 1)).levels.length =
        max m.levels.length (i + 2) := by
      have hclear : (m₁.clearLevel i).levels.length = m.levels.length := by
        rw [clearLevel, List.length_modify, hlevels]
      unfold ensureLevel
      split_ifs with hle
      · rw [List.length_append, hclear, List.length_singleton]
        omega
      · omega
    have hbefore (n : Nat) : ((m₁.clearLevel i).ensureLevel (i + 1)).tablesAt n =
        if n = i then [] else m.tablesAt n := by
      rw [tablesAt_ensureLevel, tablesAt_clearLevel, tablesAt_congr hlevels]
    have hdict' : ((m₁.clearLevel i).ensureLevel (i + 1)).symbolDict = m.symbolDict := by
      unfold ensureLevel
      split_ifs <;> exact hdict
    obtain ⟨tables, hnext, hrows, hwritten, hother, hdict'', hlen'⟩ :=
      writeChunks_eq_ok (by rw [hlen]; omega) h
    rw [← htables] at hrows hwritten
    constructor
    · rw [hother i (by omega), hbefore, if_pos rfl]
    · refine ⟨tables, ?_, hrows, ?_⟩
      · rw [hnext, hbefore, if_neg (by omega)]
      · rw [hwritten, hdict']
        rfl
    · intro n hn hn'
      rw [hother n hn', hbefore, if_neg hn]
    · rw [hdict'', hdict']
    · rw [hlen', hlen]

/-- Merging a level lets the versions of every key sink. -/
theorem Merged.versions {p : Platform} {i : Nat} {m m' : CompactionManager}
    (h : Merged p i m m') (key : Key) : m'.versions key = sink i (m.versions key) := by
  obtain ⟨tables, hnext, hrows, -⟩ := h.next
  have hinc := increasing_mergeRows Tick.key ((m.tablesAt i).flatMap Table.rows)
  have hflat := flatten_chunks (by decide : 0 < CHUNK_SIZE)
    (mergeRows Tick.key ((m.tablesAt i).flatMap Table.rows))
  have hmerged : tableVersions key tables = (m.versions key i).head?.toList := by
    calc tableVersions key tables
        = (tables.map Table.rows).filterMap fun rows => firstAt Tick.key rows key := by
          rw [List.filterMap_map]
          rfl
      _ = (firstAt Tick.key (mergeRows Tick.key ((m.tablesAt i).flatMap Table.rows)) key).toList := by
          rw [hrows, filterMap_firstAt (by rwa [hflat]), hflat]
      _ = (m.versions key i).head?.toList := by
          rw [firstAt_mergeRows, firstAt_flatMap_rows]
          rfl
  funext n
  rw [sink, CompactionManager.versions]
  by_cases hi : n = i
  · rw [if_pos hi, hi, h.emptied]
    rfl
  · rw [if_neg hi]
    by_cases hi' : n = i + 1
    · rw [if_pos hi', hi', hnext, tableVersions, List.filterMap_append, ← tableVersions,
        ← tableVersions, hmerged]
      rfl
    · rw [if_neg hi', h.others n hi hi']
      rfl

theorem rows_congr {tables tables' : List Table}
    (h : tables.map Table.unnamed = tables'.map Table.unnamed) :
    tables.flatMap Table.rows = tables'.flatMap Table.rows := by
  have hrows := congrArg (fun ts : List Table => ts.flatMap Table.rows) h
  rw [List.flatMap_map, List.flatMap_map] at hrows
  exact hrows

theorem fileSizes_congr {tables tables' : List Table}
    (h : tables.map Table.unnamed = tables'.map Table.unnamed) :
    fileSizes tables = fileSizes tables' := by
  have hsizes := congrArg fileSizes h
  rw [fileSizes, fileSizes, List.map_map, List.map_map] at hsizes
  exact hsizes

theorem overLimit_congr {m : CompactionManager} {n : Nat} {tables tables' : List Table}
    (h : tables.map Table.unnamed = tables'.map Table.unnamed) :
    m.overLimit n tables = m.overLimit n tables' := by
  cases n with
  | zero =>
    have hlen : tables.length = tables'.length := by simpa using congrArg List.length h
    rw [overLimit, overLimit, hlen]
  | succ n => rw [overLimit, overLimit, fileSizes_congr h]

/-- Where a compaction stands when it comes to level `i`. -/
structure Progress (p : Platform) (m₀ : CompactionManager) (i : Nat) (m : CompactionManager) :
    Prop where
  versions : ∀ key, m.versions key = sinkAll (m₀.versions key) (m₀.dueBelow p i)
  here : (m.tablesAt i).map Table.unnamed = (m₀.gathered p i).map Table.unnamed
  below : ∀ n, i < n → m.tablesAt n = m₀.tablesAt n
  symbolDict : m.symbolDict = m₀.symbolDict

theorem progress_zero (p : Platform) (m : CompactionManager) : Progress p m 0 m :=
  ⟨fun _ => rfl, rfl, fun _ _ => rfl, rfl⟩

theorem Progress.merged {p : Platform} {m₀ m m' : CompactionManager} {i : Nat}
    (h : Progress p m₀ i m) (hover : m₀.overLimit i (m.tablesAt i) = true)
    (hmerged : Merged p i m m') :
    Progress p m₀ (i + 1) m' := by
  rw [overLimit_congr h.here] at hover
  obtain ⟨tables, hnext, -, hwritten⟩ := hmerged.next
  constructor
  · intro key
    rw [hmerged.versions, h.versions, dueBelow_succ, if_pos hover, sinkAll_append]
  · rw [hnext, gathered, if_pos hover, List.map_append, List.map_append, hwritten,
      h.below (i + 1) (by omega), written, written, rows_congr h.here, h.symbolDict]
    congr 1
    rw [List.map_filterMap]
    refine List.filterMap_congr fun chunk _ => ?_
    cases hwrite : SsTable.write p "" chunk (i + 1) m₀.symbolDict with
    | none => rfl
    | some r =>
      have hunnamed := Table.unnamed_of_write hwrite
      rw [hwrite] at hunnamed
      exact hunnamed
  · intro n hn
    rw [hmerged.others n (by omega) (by omega), h.below n (by omega)]
  · rw [hmerged.symbolDict, h.symbolDict]

theorem Progress.skipped {p : Platform} {m₀ m : CompactionManager} {i : Nat}
    (h : Progress p m₀ i m) (hover : m₀.overLimit i (m.tablesAt i) = false) :
    Progress p m₀ (i + 1) m := by
  rw [overLimit_congr h.here] at hover
  constructor
  · intro key
    rw [dueBelow_succ, hover, h.versions]
    simp
  · rw [gathered, hover, h.below (i + 1) (by omega)]
    simp
  · exact fun n hn => h.below n (by omega)
  · exact h.symbolDict

theorem targetSize_eq_some {i target : Nat} (h : targetSize i = some target) :
    target = LEVEL_SIZE_RATIO ^ i * blockSizeTarget := by
  unfold targetSize at h
  split_ifs at h
  exact (Option.some.inj h).symm

theorem totalSize_eq {m : CompactionManager} {i : Nat} {level : Level}
    (h : m.levels[i]? = some level) : level.totalSize = fileSizes (m.tablesAt i) := by
  rw [tablesAt, h]
  rfl

theorem overLimit_succ_iff {m : CompactionManager} {i : Nat} (hi : i + 1 < m.checkedLevels)
    (tables : List Table) : m.overLimit (i + 1) tables = true ↔
      LEVEL_SIZE_RATIO ^ (i + 1) * blockSizeTarget < fileSizes tables := by
  simp [overLimit, hi]

theorem compactDeeper_eq_ok {p : Platform} {env : Env} {i : Nat} {m₀ m m' : CompactionManager}
    {time time' : Nat} (hprogress : Progress p m₀ (i + 1) m) (hi : i + 1 < m₀.checkedLevels)
    (h : compactDeeper p env (i + 1) (m, time) = (.ok (), (m', time'))) :
    Progress p m₀ (i + 1 + 1) m' := by
  unfold compactDeeper at h
  rw [DiskM.current_bind] at h
  cases htarget : targetSize (i + 1) with
  | none =>
    simp only [htarget] at h
    cases h
  | some target =>
    cases hlevel : m.levels[i + 1]? with
    | none =>
      simp only [htarget, hlevel] at h
      cases h
    | some level =>
      simp only [htarget, hlevel] at h
      have hover := overLimit_succ_iff hi (m.tablesAt (i + 1))
      rw [← targetSize_eq_some htarget, ← totalSize_eq hlevel] at hover
      split_ifs at h with hsize
      · have hne : m.tablesAt (i + 1) ≠ [] := by
          intro hnil
          rw [totalSize_eq hlevel, hnil] at hsize
          exact absurd hsize (Nat.not_lt_zero _)
        exact hprogress.merged (hover.mpr hsize) (compactLevel_eq_ok hne h)
      · have hskip : m₀.overLimit (i + 1) (m.tablesAt (i + 1)) = false := by
          rw [← Bool.not_eq_true, hover]
          exact hsize
        cases h
        exact hprogress.skipped hskip

/-- The loop over the deeper levels. -/
theorem forM_compactDeeper_eq_ok {p : Platform} {env : Env} {count i : Nat}
    {m₀ m m' : CompactionManager} {time time' : Nat} (hprogress : Progress p m₀ (i + 1) m)
    (hcount : i + 1 + count ≤ m₀.checkedLevels)
    (h : forM (List.range' (i + 1) count) (compactDeeper p env) (m, time) =
      (.ok (), (m', time'))) : Progress p m₀ (i + 1 + count) m' := by
  induction count generalizing i m time with
  | zero =>
    cases h
    exact hprogress
  | succ count ih =>
    rw [List.range'_succ, List.forM_cons] at h
    obtain ⟨_, ⟨m₁, time₁⟩, hfirst, h⟩ := DiskM.bind_eq_ok h
    rw [show i + 1 + (count + 1) = i + 1 + 1 + count by omega]
    exact ih (compactDeeper_eq_ok hprogress (by omega) hfirst) (by omega) h

theorem compactFirst_eq_ok {p : Platform} {env : Env} {m m' : CompactionManager}
    {time time' : Nat} (h : compactFirst p env (m, time) = (.ok (), (m', time'))) :
    Progress p m 1 m' ∧ m'.levels.length = m.checkedLevels ∧ 0 < m.levels.length := by
  unfold compactFirst at h
  rw [DiskM.current_bind] at h
  cases hlevels : m.levels with
  | nil =>
    simp only [hlevels] at h
    cases h
  | cons l0 deeper =>
    have hzero : m.tablesAt 0 = l0.tables := by
      rw [tablesAt, hlevels]
      rfl
    have hlen : m.levels.length = deeper.length + 1 := by
      rw [hlevels]
      rfl
    simp only [hlevels] at h
    refine ⟨?_, ?_, Nat.succ_pos _⟩
    all_goals
      split_ifs at h with hfull
      all_goals rw [← hzero] at hfull
    · have hne : m.tablesAt 0 ≠ [] := by
        intro hnil
        rw [hnil] at hfull
        exact absurd hfull (by decide)
      exact (progress_zero p m).merged (by simpa [overLimit] using hfull) (compactLevel_eq_ok hne h)
    · cases h
      exact (progress_zero p m).skipped (by simpa [overLimit] using hfull)
    · have hne : m.tablesAt 0 ≠ [] := by
        intro hnil
        rw [hnil] at hfull
        exact absurd hfull (by decide)
      rw [(compactLevel_eq_ok hne h).length, checkedLevels, if_pos hfull]
    · cases h
      rw [checkedLevels, if_neg hfull]

/-- No level is over its limit when no compaction is needed. -/
theorem deeperNeeds_eq_false {i : Nat} {levels : List Level}
    (h : deeperNeeds i levels = some false) {k : Nat} {level : Level}
    (hk : levels[k]? = some level) :
    level.totalSize ≤ LEVEL_SIZE_RATIO ^ (i + k) * blockSizeTarget := by
  induction levels generalizing i k with
  | nil => cases hk
  | cons l levels ih =>
    unfold deeperNeeds at h
    cases htarget : targetSize i with
    | none => simp [htarget] at h
    | some target =>
      simp only [htarget, Option.bind_eq_bind, Option.bind_some] at h
      split_ifs at h with hsize
      · cases h
      cases k with
      | zero =>
        obtain rfl : l = level := Option.some.inj hk
        rw [Nat.add_zero, ← targetSize_eq_some htarget]
        exact Nat.le_of_not_lt hsize
      | succ k =>
        rw [← Nat.succ_add_eq_add_succ]
        exact ih h hk

theorem due_eq_nil {m : CompactionManager} (p : Platform) (h : m.needsCompaction = some false) :
    m.due p = [] := by
  have hover : ∀ n, n < m.checkedLevels → m.overLimit n (m.tablesAt n) = false := by
    intro n hn
    unfold needsCompaction at h
    cases hlevels : m.levels with
    | nil => simp [checkedLevels, tablesAt, hlevels, L0_MAX_TABLES] at hn
    | cons l0 deeper =>
      simp only [hlevels] at h
      have hzero : m.tablesAt 0 = l0.tables := by
        rw [tablesAt, hlevels]
        rfl
      split_ifs at h with hfull
      · cases h
      rw [← hzero] at hfull
      cases n with
      | zero => simpa [overLimit] using hfull
      | succ n =>
        have hlen : n < deeper.length := by
          rw [checkedLevels, if_neg hfull, hlevels, List.length_cons] at hn
          omega
        have hlevel : m.levels[n + 1]? = some (deeper[n]) := by
          rw [hlevels, List.getElem?_cons_succ, List.getElem?_eq_getElem hlen]
        have hsize := deeperNeeds_eq_false h (List.getElem?_eq_getElem hlen)
        rw [totalSize_eq hlevel, Nat.add_comm 1 n] at hsize
        rw [← Bool.not_eq_true, overLimit_succ_iff hn]
        exact Nat.not_lt.mpr hsize
  have hgathered : ∀ n, n < m.checkedLevels → m.gathered p n = m.tablesAt n := by
    intro n hn
    induction n with
    | zero => rfl
    | succ n ih =>
      rw [gathered, ih (by omega), hover n (by omega)]
      simp
  rw [due, dueBelow, List.filter_eq_nil_iff]
  intro n hn
  have hlt := List.mem_range.mp hn
  rw [hgathered n hlt, hover n hlt]
  exact Bool.false_ne_true

/-- A compaction lets the versions of every key sink on the levels that are due. -/
theorem versions_compact {p : Platform} {env : Env} {m m' : CompactionManager} {time time' : Nat}
    (h : compact p env (m, time) = (.ok (), (m', time'))) (key : Key) :
    m'.versions key = sinkAll (m.versions key) (m.due p) := by
  unfold compact at h
  rw [DiskM.current_bind] at h
  cases hneeds : m.needsCompaction with
  | none =>
    simp only [hneeds] at h
    cases h
  | some needed =>
    cases needed with
    | false =>
      simp only [hneeds] at h
      cases h
      rw [due_eq_nil p hneeds]
      rfl
    | true =>
      simp only [hneeds] at h
      obtain ⟨_, ⟨m₁, time₁⟩, hfirst, h⟩ := DiskM.bind_eq_ok h
      rw [DiskM.current_bind] at h
      obtain ⟨hprogress, hlen, hpos⟩ := compactFirst_eq_ok hfirst
      have hchecked : 0 < m.checkedLevels := by
        unfold checkedLevels
        split_ifs <;> omega
      have hcount : 0 + 1 + (m₁.levels.length - 1) = m.checkedLevels := by omega
      have hend := forM_compactDeeper_eq_ok hprogress hcount.le h
      rw [hend.versions, due, hcount]

/-- Compaction keeps what a lookup finds exactly when the newest version of the key
survives on the levels that are due. -/
theorem compaction_keeps_newest_iff {p : Platform} {env : Env} {m m' : CompactionManager}
    {time time' : Nat} (h : compact p env (m, time) = (.ok (), (m', time'))) (key : Key) :
    m'.find key = m.find key ↔ NewestSurvives (m.due p) (m.versions key) := by
  rw [← newest_sinkAll_iff (m.versions key) (m.pairwise_due p), ← versions_compact h, Option.ext_iff]
  simp only [find_eq_some_iff]

/-- Level 0 after four flushes, each with one tick of the same key. -/
def fourVersions : CompactionManager :=
  let dict := (SymbolDictionary.new.getOrInsert "AAPL").2
  let flushed := fun (volume : UInt64) =>
    let ticks : List Tick := [⟨0, 5, ⟨0⟩, ⟨0⟩, ⟨0⟩, ⟨0⟩, volume⟩]
    let path := tableName 0 volume.toNat
    (SsTable.write .simple path ticks 0 dict).map fun r => (⟨r.2, ticks⟩ : Table)
  { CompactionManager.new dict with levels := [⟨0, [1, 2, 3, 4].filterMap flushed⟩] }

theorem compaction_keeps_newest_fourVersions :
    (compact .simple .calm (fourVersions, 0)).2.1.find ⟨0, 5⟩ = fourVersions.find ⟨0, 5⟩ ↔
      NewestSurvives (fourVersions.due .simple) (fourVersions.versions ⟨0, 5⟩) :=
  compaction_keeps_newest_iff (DiskM.eq_ok (by decide +kernel)) ⟨0, 5⟩

/-- The merge of level 0 brings the oldest version back. -/
theorem compaction_revives_oldest :
    fourVersions.levels.map (fun l => l.tables.length) = [4] ∧
      (compact .simple .calm (fourVersions, 0)).1 = .ok () ∧
      (fourVersions.find ⟨0, 5⟩).map Tick.volume = some 4 ∧
      ((compact .simple .calm (fourVersions, 0)).2.1.find ⟨0, 5⟩).map Tick.volume = some 1 := by
  decide +kernel

end CompactionManager

end Graphite
