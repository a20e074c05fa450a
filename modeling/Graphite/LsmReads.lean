import Graphite.Interleaving
import Graphite.Lsm
import Graphite.SsTablePruning

/-! What `get` and `scan` return, as functions of the memtable and the tables. Both leave
the tree alone. A table is searched when its bloom filter and its bounds let the query
through; `get` stops at the first table with the key, from the newest to the oldest, and
`scan` merges all tables, of which the oldest one of a level comes first. -/

namespace Graphite
open KeyedRows LockProgram

namespace Table

/-- The bloom filter has bits, as every filter that `write` builds. -/
def Askable (t : Table) : Prop := 0 < t.sst.bloom.numBits

/-- The table is opened in a lookup of the key. -/
def admitsKey (t : Table) (key : Key) : Bool :=
  t.sst.mayContainKey key == some true &&
    (t.sst.overlapsTimeRange key.timestamp key.timestamp && t.sst.overlapsSymbol key.symbolId)

/-- What a lookup of the key finds in the table. -/
def probe (t : Table) (key : Key) : Option Tick :=
  if t.admitsKey key then firstAt Tick.key t.rows key else none

/-- The table is opened in a scan for this symbol, or for all, and time range. -/
def admitsRange (t : Table) (dict : SymbolDictionary) (symbolId : Option SymbolId)
    (t1 t2 : TimestampNs) : Bool :=
  t.sst.overlapsTimeRange t1 t2 && symbolId.all fun id =>
    t.sst.mayContainSymbol (SsTable.symbolName dict id) == some true && t.sst.overlapsSymbol id

/-- The rows that a scan takes from the table. -/
def range (t : Table) (dict : SymbolDictionary) (symbolId : Option SymbolId)
    (t1 t2 : TimestampNs) : List Tick :=
  if t.admitsRange dict symbolId t1 t2 then t.rows.filter (SsTable.selects symbolId t1 t2) else []

/-- What a scan sees of a key in its range. -/
def seen (t : Table) (dict : SymbolDictionary) (symbolId : Option SymbolId)
    (t1 t2 : TimestampNs) (key : Key) : Option Tick :=
  if t.admitsRange dict symbolId t1 t2 then firstAt Tick.key t.rows key else none

theorem mayContainKey_ne_none {t : Table} (h : t.Askable) (key : Key) :
    t.sst.mayContainKey key ≠ none :=
  BloomFilter.contains_ne_none h _

theorem mayContainSymbol_ne_none {t : Table} (h : t.Askable) (name : String) :
    t.sst.mayContainSymbol name ≠ none :=
  BloomFilter.contains_ne_none h _

/-- A scan that asks the table's filter gets an answer. -/
def Answers (t : Table) (dict : SymbolDictionary) (symbolId : Option SymbolId)
    (t1 t2 : TimestampNs) : Prop :=
  t.sst.overlapsTimeRange t1 t2 = true →
    ∀ id ∈ symbolId, t.sst.mayContainSymbol (SsTable.symbolName dict id) ≠ none

theorem Askable.answers {t : Table} (h : t.Askable) (dict : SymbolDictionary)
    (symbolId : Option SymbolId) (t1 t2 : TimestampNs) : t.Answers dict symbolId t1 t2 :=
  fun _ _ _ => mayContainSymbol_ne_none h _

theorem selects_of_key {id : SymbolId} {t1 t2 : TimestampNs} {x : Tick} {ts : TimestampNs}
    (h1 : t1 ≤ ts) (h2 : ts ≤ t2) (hx : x.key = ⟨id, ts⟩) :
    SsTable.selects (some id) t1 t2 x = true := by
  obtain ⟨rfl, rfl⟩ := Key.mk.inj hx
  simp [SsTable.selects, h1, h2]

theorem firstAt_range {t : Table} {dict : SymbolDictionary} {id : SymbolId}
    {t1 t2 ts : TimestampNs} (h1 : t1 ≤ ts) (h2 : ts ≤ t2) :
    firstAt Tick.key (t.range dict (some id) t1 t2) ⟨id, ts⟩ =
      t.seen dict (some id) t1 t2 ⟨id, ts⟩ := by
  rw [range, seen]
  split_ifs
  · exact firstAt_filter Tick.key fun x _ hx => selects_of_key h1 h2 hx
  · rfl

theorem head?_scan_key {t : Table} {key : Key}
    (htime : t.sst.overlapsTimeRange key.timestamp key.timestamp = true)
    (hsymbol : t.sst.overlapsSymbol key.symbolId = true) :
    (t.reopen.scan (some key.symbolId) key.timestamp key.timestamp).head? =
      firstAt Tick.key t.rows key := by
  have hselects (x : Tick) : SsTable.selects (some key.symbolId) key.timestamp key.timestamp x =
      decide (x.key = key) := by
    obtain ⟨symbolId, timestamp⟩ := key
    simp only [SsTable.selects, Tick.key, Option.all_some, Key.mk.injEq]
    rw [Bool.eq_iff_iff]
    simp only [Bool.and_eq_true, decide_eq_true_eq, beq_iff_eq]
    constructor
    · rintro ⟨⟨h1, h2⟩, h3⟩
      exact ⟨h3.symm, Int64.le_antisymm h2 h1⟩
    · rintro ⟨rfl, rfl⟩
      exact ⟨⟨Int64.le_rfl, Int64.le_rfl⟩, rfl⟩
  have hscan : t.reopen.scan (some key.symbolId) key.timestamp key.timestamp =
      t.rows.filter fun x => decide (x.key = key) := by
    have htime' : t.reopen.sst.overlapsTimeRange key.timestamp key.timestamp = true := htime
    have hsymbol' : t.reopen.sst.overlapsSymbol key.symbolId = true := hsymbol
    simp only [scan, htime', Bool.not_true, Bool.false_eq_true, if_false, Option.all_some, hsymbol',
      funext hselects]
    rfl
  rw [hscan, List.head?_filter]
  rfl

end Table

namespace LsmTree

variable {env : Env} {held : Held Lock} {s : LsmTree} {time : Nat}

/-- The tables in the order of `get`. -/
def newestFirst (s : LsmTree) : List Table := s.compaction.levels.flatMap fun l => l.tables.reverse

/-- The tables in the order of `scan`. -/
def storageOrder (s : LsmTree) : List Table := s.compaction.levels.flatMap Level.tables

/-- Every table can be asked. -/
def Askable (s : LsmTree) : Prop := ∀ t ∈ s.storageOrder, t.Askable

theorem mem_newestFirst {s : LsmTree} {t : Table} : t ∈ s.newestFirst ↔ t ∈ s.storageOrder := by
  simp [newestFirst, storageOrder]

def probeAll (tables : List Table) (key : Key) : Option Tick := tables.findSome? fun t => t.probe key

/-- What `get` finds. -/
def find (s : LsmTree) (key : Key) : Option Tick :=
  (s.memtable.get key).or (probeAll s.newestFirst key)

/-- What `scan` collects before it sorts. -/
def collected (s : LsmTree) (symbolId : Option SymbolId) (t1 t2 : TimestampNs) : List Tick :=
  s.memtable.chain.filter (SsTable.selects symbolId t1 t2) ++
    s.storageOrder.flatMap fun t => t.range s.symbolDict symbolId t1 t2

/-- What `scan` returns. -/
def range (s : LsmTree) (symbolId : Option SymbolId) (t1 t2 : TimestampNs) : List Tick :=
  mergeRows Tick.key (s.collected symbolId t1 t2)

/-- The id that a query is for; `none` for an unknown symbol. -/
def idOf (s : LsmTree) : Option String → Option (Option SymbolId)
  | none => some none
  | some symbol => (s.symbolDict.getId symbol).map some

section Sound

variable {good : LsmTree × Nat → Prop}

/-- The pushdown of a scan for a symbol, as a function of the dictionary. -/
theorem sound_mayHold {dict : SymbolDictionary} (hdict : ∀ st, good st → st.1.symbolDict = dict)
    {t : Table} {symbolId : Option SymbolId}
    (ht : ∀ id ∈ symbolId, t.sst.mayContainSymbol (SsTable.symbolName dict id) ≠ none) :
    Sound good (fun r => r = .ok (symbolId.all fun id =>
      t.sst.mayContainSymbol (SsTable.symbolName dict id) == some true &&
        t.sst.overlapsSymbol id)) (mayHold t symbolId) := by
  cases symbolId with
  | none => exact sound_pure rfl
  | some id =>
    refine sound_bind (sound_withGuard (sound_gets fun st hst => ?_))
    dsimp only [Option.all_some]
    rw [hdict st hst]
    cases hbloom : t.sst.mayContainSymbol (SsTable.symbolName dict id) with
    | none => exact absurd hbloom (ht id rfl)
    | some bloom =>
      cases bloom with
      | false => exact sound_pure rfl
      | true => exact sound_pure rfl

theorem sound_lookUp {symbol : Option String} {symbolId : Option SymbolId} (hsome : ∃ st, good st)
    (hid : ∀ st, good st → st.1.idOf symbol = some symbolId) :
    Sound good (fun r => r = .ok symbolId) (lookUp symbol) := by
  cases symbol with
  | none =>
    obtain ⟨st, hst⟩ := hsome
    exact sound_pure (congrArg Except.ok (Option.some.inj (hid st hst)))
  | some symbol =>
    refine sound_withGuard (sound_bind (sound_gets fun st hst => ?_))
    obtain ⟨id, hget, rfl⟩ := Option.map_eq_some_iff.mp (hid st hst)
    rw [hget]
    exact sound_pure rfl

variable (hio : ∀ n, env.io n = true) (htime : ∀ s time, good (s, time) → good (s, time + 1))

include hio htime

theorem sound_fileOp (e : LsmError) :
    Sound good (fun r => r = .ok ()) (attempt (fileOp env e) : LsmOp Unit) :=
  sound_attempt fun st hst => ⟨htime st.1 st.2 hst, by rw [fileOp, hio]; rfl⟩

theorem sound_probeTables (key : Key) {tables : List Table} (htables : ∀ t ∈ tables, t.Askable) :
    Sound good (fun r => r = .ok (probeAll tables key)) (probeTables env key tables) := by
  induction tables with
  | nil => exact sound_pure rfl
  | cons t tables ih =>
    have ih' := ih fun x hx => htables x (List.mem_cons_of_mem t hx)
    have hask := t.mayContainKey_ne_none (htables t List.mem_cons_self) key
    rw [probeTables, probeAll, List.findSome?_cons]
    cases hbloom : t.sst.mayContainKey key with
    | none => exact absurd hbloom hask
    | some bloom =>
      cases bloom with
      | false =>
        have hprobe : t.probe key = none := by simp [Table.probe, Table.admitsKey, hbloom]
        rw [hprobe]
        exact ih'
      | true =>
        dsimp only
        by_cases hbounds : (t.sst.overlapsTimeRange key.timestamp key.timestamp &&
            t.sst.overlapsSymbol key.symbolId) = true
        · have hprobe : t.probe key = firstAt Tick.key t.rows key := by
            simp [Table.probe, Table.admitsKey, hbloom, hbounds]
          obtain ⟨hbound, hsymbol⟩ := Bool.and_eq_true_iff.mp hbounds
          rw [if_pos hbounds, Table.head?_scan_key hbound hsymbol, hprobe]
          refine sound_bind ((sound_fileOp hio htime _).mono ?_)
          rintro r rfl
          cases firstAt Tick.key t.rows key with
          | some tick => exact sound_pure rfl
          | none => exact ih'
        · have hprobe : t.probe key = none := by
            simp only [Table.probe, Table.admitsKey, hbounds, Bool.and_false, Bool.false_eq_true,
              if_false]
          rw [if_neg hbounds, hprobe]
          exact ih'

/-- A lookup sees the memtable of one state and the tables of another. -/
theorem sound_get {symbol : String} {id : SymbolId} (ts : TimestampNs)
    (hid : ∀ st, good st → st.1.symbolDict.getId symbol = some id)
    (hask : ∀ st, good st → st.1.Askable) :
    Sound good (fun r => ∃ a b, good a ∧ good b ∧ r = .ok
      ((a.1.memtable.get ⟨id, ts⟩).or (probeAll b.1.newestFirst ⟨id, ts⟩))) (get env symbol ts) := by
  refine sound_withGuard (sound_bind (sound_gets fun st hst => ?_))
  rw [hid st hst]
  refine sound_bind (sound_withGuard (sound_gets fun a ha => ?_))
  dsimp only
  cases hmem : a.1.memtable.get ⟨id, ts⟩ with
  | some tick => exact sound_pure ⟨a, a, ha, ha, by rw [hmem]; rfl⟩
  | none =>
    refine sound_withGuard (sound_bind (sound_gets fun b hb => ?_))
    refine (sound_probeTables hio htime _ fun t ht =>
      hask b hb t (mem_newestFirst.mp ht)).mono ?_
    rintro r rfl
    exact ⟨a, b, ha, hb, by rw [hmem]; rfl⟩

theorem sound_scanTables {dict : SymbolDictionary}
    (hdict : ∀ st, good st → st.1.symbolDict = dict) (symbolId : Option SymbolId)
    (t1 t2 : TimestampNs) {tables : List Table}
    (htables : ∀ t ∈ tables, t.Answers dict symbolId t1 t2) :
    Sound good (fun r => r = .ok (tables.flatMap fun t => t.range dict symbolId t1 t2))
      (scanTables env symbolId t1 t2 tables) := by
  induction tables with
  | nil => exact sound_pure rfl
  | cons t tables ih =>
    have ih' := ih fun x hx => htables x (List.mem_cons_of_mem t hx)
    rw [scanTables, List.flatMap_cons]
    by_cases hbound : t.sst.overlapsTimeRange t1 t2 = true
    · rw [hbound, Bool.not_true, if_neg Bool.false_ne_true]
      refine sound_bind ((sound_mayHold hdict (htables t List.mem_cons_self hbound)).mono ?_)
      rintro r rfl
      dsimp only
      split_ifs with hholds
      · have hscan : t.reopen.scan symbolId t1 t2 = t.range dict symbolId t1 t2 := by
          have hbound' : t.reopen.sst.overlapsTimeRange t1 t2 = true := hbound
          have hsymbol : symbolId.all t.reopen.sst.overlapsSymbol = true := by
            cases symbolId with
            | none => rfl
            | some id => exact (Bool.and_eq_true_iff.mp hholds).2
          rw [Table.scan, hbound', hsymbol, Table.range, Table.admitsRange, hbound, hholds]
          rfl
        refine sound_bind ((sound_fileOp hio htime _).mono ?_)
        rintro r rfl
        refine sound_bind (ih'.mono ?_)
        rintro r rfl
        exact sound_pure (by rw [hscan])
      · have hnone : t.range dict symbolId t1 t2 = [] := by
          rw [Table.range, Table.admitsRange, if_neg (by rw [hbound, Bool.true_and]; exact hholds)]
        rw [hnone]
        exact ih'
    · have hnone : t.range dict symbolId t1 t2 = [] := by
        rw [Table.range, Table.admitsRange, if_neg (by simp [hbound])]
      rw [if_pos (by simpa using hbound), hnone]
      exact ih'

/-- So does a scan. -/
theorem sound_scan {dict : SymbolDictionary} (hdict : ∀ st, good st → st.1.symbolDict = dict)
    {symbol : Option String} {symbolId : Option SymbolId} (hsome : ∃ st, good st)
    (hid : ∀ st, good st → st.1.idOf symbol = some symbolId)
    (t1 t2 : TimestampNs)
    (hask : ∀ st, good st → ∀ t ∈ st.1.storageOrder, t.Answers dict symbolId t1 t2) :
    Sound good (fun r => ∃ a b, good a ∧ good b ∧ r = .ok (mergeRows Tick.key
      (a.1.memtable.chain.filter (SsTable.selects symbolId t1 t2) ++
        b.1.storageOrder.flatMap fun t => t.range dict symbolId t1 t2)))
      (scan env symbol t1 t2) := by
  refine sound_bind ((sound_lookUp hsome hid).mono ?_)
  rintro r rfl
  refine sound_bind (sound_withGuard (sound_gets fun a ha => ?_))
  refine sound_withGuard (sound_bind (sound_gets fun b hb => ?_))
  refine sound_bind ((sound_scanTables hio htime hdict symbolId t1 t2 (hask b hb)).mono ?_)
  rintro r rfl
  exact sound_pure ⟨a, b, ha, hb, rfl⟩

end Sound

/-- The version of a key that a scan returns: the memtable's, else that of the first table
which the scan opens and which has one. -/
theorem firstAt_range {id : SymbolId} {t1 t2 ts : TimestampNs} (h1 : t1 ≤ ts) (h2 : ts ≤ t2) :
    firstAt Tick.key (s.range (some id) t1 t2) ⟨id, ts⟩ = (s.memtable.get ⟨id, ts⟩).or
      (s.storageOrder.findSome? fun t => t.seen s.symbolDict (some id) t1 t2 ⟨id, ts⟩) := by
  have hmemtable : firstAt Tick.key
      (s.memtable.chain.filter (SsTable.selects (some id) t1 t2)) ⟨id, ts⟩ =
        s.memtable.get ⟨id, ts⟩ := by
    rw [SkipList.get_eq_firstAt]
    exact firstAt_filter Tick.key fun x _ hx => Table.selects_of_key h1 h2 hx
  rw [range, firstAt_mergeRows, collected, firstAt_append, hmemtable, firstAt_flatMap]
  simp only [Table.firstAt_range h1 h2]

/-- A scan for a symbol holds at most one row with a timestamp. -/
theorem filter_range {id : SymbolId} (t1 t2 ts : TimestampNs) :
    (s.range (some id) t1 t2).filter (fun x => x.timestamp = ts) =
      (firstAt Tick.key (s.range (some id) t1 t2) ⟨id, ts⟩).toList := by
  have hselected {x : Tick} (hx : x ∈ s.range (some id) t1 t2) : x.symbolId = id := by
    have hselects : SsTable.selects (some id) t1 t2 x = true := by
      rcases List.mem_append.mp (mem_mergeRows Tick.key hx) with hx | hx
      · exact (List.mem_filter.mp hx).2
      · obtain ⟨t, -, hx⟩ := List.mem_flatMap.mp hx
        rw [Table.range] at hx
        split_ifs at hx
        · exact (List.mem_filter.mp hx).2
        · cases hx
    simp only [SsTable.selects, Option.all_some, Bool.and_eq_true, beq_iff_eq] at hselects
    exact hselects.2.symm
  rw [range, ← filter_eq_toList Tick.key (increasing_mergeRows Tick.key _) ⟨id, ts⟩]
  refine List.filter_congr fun x hx => ?_
  simp [Tick.key, hselected hx]

theorem runsUnder_probeTables (env : Env) (held : Held Lock) (key : Key) (tables : List Table) :
    RunsUnder held (probeTables env key tables) := by
  induction tables with
  | nil => exact runsUnder_pure _ _
  | cons t tables ih =>
    unfold probeTables
    split
    · exact runsUnder_throw _ _
    · exact ih
    · split_ifs
      · refine (runsUnder_attempt _ _).bind fun _ => ?_
        split
        · exact runsUnder_pure _ _
        · exact ih
      · exact ih

theorem runsUnder_scanTables (env : Env) (hfree : ¬ Conflicts held .symbolDict .read)
    (symbolId : Option SymbolId) (t1 t2 : TimestampNs) (tables : List Table) :
    RunsUnder held (scanTables env symbolId t1 t2 tables) := by
  induction tables with
  | nil => exact runsUnder_pure _ _
  | cons t tables ih =>
    unfold scanTables
    split_ifs
    · exact ih
    · refine RunsUnder.bind ?_ fun holds => ?_
      · cases symbolId with
        | none => exact runsUnder_pure _ _
        | some id =>
          refine (RunsUnder.withGuard hfree (runsUnder_gets _ _)).bind fun name => ?_
          split
          · exact runsUnder_throw _ _
          · exact runsUnder_pure _ _
          · exact runsUnder_pure _ _
      · split_ifs
        · exact (runsUnder_attempt _ _).bind fun _ => ih.bind fun _ => runsUnder_pure _ _
        · exact ih

theorem runsUnder_get (env : Env) (symbol : String) (ts : TimestampNs) :
    RunsUnder [] (get env symbol ts) := by
  refine RunsUnder.withGuard (by decide) ((runsUnder_gets _ _).bind fun id => ?_)
  cases id with
  | none => exact runsUnder_throw _ _
  | some id =>
    refine (RunsUnder.withGuard (by decide) (runsUnder_gets _ _)).bind fun found => ?_
    cases found with
    | some tick => exact runsUnder_pure _ _
    | none =>
      exact RunsUnder.withGuard (by decide)
        ((runsUnder_gets _ _).bind fun levels => runsUnder_probeTables _ _ _ _)

theorem runsUnder_scan (env : Env) (symbol : Option String) (t1 t2 : TimestampNs) :
    RunsUnder [] (scan env symbol t1 t2) := by
  refine RunsUnder.bind ?_ fun symbolId => ?_
  · cases symbol with
    | none => exact runsUnder_pure _ _
    | some symbol =>
      refine RunsUnder.withGuard (by decide) ((runsUnder_gets _ _).bind fun id => ?_)
      cases id with
      | none => exact runsUnder_throw _ _
      | some id => exact runsUnder_pure _ _
  · refine (RunsUnder.withGuard (by decide) (runsUnder_gets _ _)).bind fun inMemory => ?_
    exact RunsUnder.withGuard (by decide) ((runsUnder_gets _ _).bind fun levels =>
      (runsUnder_scanTables env (by decide) _ _ _ _).bind fun _ => runsUnder_pure _ _)

/-- `get` on a tree that nobody else uses, for a symbol of its dictionary. -/
theorem exec_get (hio : ∀ n, env.io n = true) (hs : s.Askable) {symbol : String} {id : SymbolId}
    (hid : s.symbolDict.getId symbol = some id) (ts : TimestampNs) (time : Nat) :
    ∃ time', exec (get env symbol ts) [] (s, time) =
      .finished (.ok (s.find ⟨id, ts⟩)) [] (s, time') := by
  have hsound : Sound (fun st : LsmTree × Nat => st.1 = s) _ (get env symbol ts) :=
    sound_get hio (fun _ _ h => h) ts (fun st h => h ▸ hid) (fun st h => h ▸ hs)
  have hstart : (s, time).1 = s := rfl
  obtain ⟨r, ⟨_, time'⟩, hexec, ⟨a, b, ha, hb, rfl⟩, hend⟩ :=
    hsound.exec (runsUnder_get env symbol ts) hstart
  cases hend
  rw [ha, hb] at hexec
  exact ⟨time', hexec⟩

/-- `scan` on a tree that nobody else uses, for a symbol of its dictionary or for all. -/
theorem exec_scan_of_answers (hio : ∀ n, env.io n = true) {symbol : Option String}
    {symbolId : Option SymbolId} (hid : s.idOf symbol = some symbolId) {t1 t2 : TimestampNs}
    (hs : ∀ t ∈ s.storageOrder, t.Answers s.symbolDict symbolId t1 t2) (time : Nat) : ∃ time', exec (scan env symbol t1 t2) [] (s, time) =
      .finished (.ok (s.range symbolId t1 t2)) [] (s, time') := by
  have hsome : ∃ st : LsmTree × Nat, st.1 = s := ⟨(s, time), rfl⟩
  have hdict (st : LsmTree × Nat) (h : st.1 = s) : st.1.symbolDict = s.symbolDict := by rw [h]
  have hsound : Sound (fun st : LsmTree × Nat => st.1 = s) _ (scan env symbol t1 t2) :=
    sound_scan hio (fun _ _ h => h) hdict hsome (fun st h => h ▸ hid) t1 t2 (fun st h => h ▸ hs)
  have hstart : (s, time).1 = s := rfl
  obtain ⟨r, ⟨_, time'⟩, hexec, ⟨a, b, ha, hb, rfl⟩, hend⟩ :=
    hsound.exec (runsUnder_scan env symbol t1 t2) hstart
  cases hend
  rw [ha, hb] at hexec
  exact ⟨time', hexec⟩

theorem exec_scan (hio : ∀ n, env.io n = true) (hs : s.Askable) {symbol : Option String}
    {symbolId : Option SymbolId} (hid : s.idOf symbol = some symbolId) (t1 t2 : TimestampNs)
    (time : Nat) : ∃ time', exec (scan env symbol t1 t2) [] (s, time) =
      .finished (.ok (s.range symbolId t1 t2)) [] (s, time') :=
  exec_scan_of_answers hio hid (fun t ht => (hs t ht).answers _ _ _ _) time

theorem idOf_some {s : LsmTree} {symbol : String} {id : SymbolId}
    (h : s.symbolDict.getId symbol = some id) : s.idOf (some symbol) = some (some id) := by
  rw [idOf, h]
  rfl

end LsmTree

/-- A registered table holds the tick. -/
def InTable (s : LsmTree) (x : Tick) : Prop := ∃ t ∈ s.storageOrder, x ∈ t.rows

theorem InTable.mono {s s' : LsmTree} (htables : ∀ t ∈ s.storageOrder, t ∈ s'.storageOrder)
    {x : Tick} (h : InTable s x) : InTable s' x := by
  obtain ⟨t, ht, hx⟩ := h
  exact ⟨t, htables t ht, hx⟩

end Graphite
