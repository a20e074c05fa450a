import Graphite.SsTable

/-! Pruning: which tests the table of a sorted tick list passes for the ticks in it.
The bloom filter and the symbol bounds never hide a row; the time bounds are those of
the first and the last tick, which are not the extreme ones once symbols change. -/

namespace Graphite.SsTable
open BigEndian

instance : Std.LawfulOrderMax SymbolId :=
  .of_max_le_iff
    (fun a b c => by
      change (if a ≤ b then b else a) ≤ c ↔ a ≤ c ∧ b ≤ c
      grind)
    (fun a b => by
      change (if a ≤ b then b else a) = a ∨ (if a ≤ b then b else a) = b
      grind)

/-- What `write` puts into the table it returns. -/
theorem write_eq_some {p : Platform} {path : String} {ticks : List Tick} {level : Nat}
    {dict : SymbolDictionary} {file : Bytes} {t : SsTable}
    (h : write p path ticks level dict = some (file, t)) :
    ∃ bloom data, buildBloom p ticks dict = some bloom ∧ buildData p ticks level = some data ∧
      t = ⟨path, { buildMeta ticks level with fileSize := file.length }, data.index, bloom, dict,
        layout data.dataBuf.length (indexBytes data.index).length bloom.toBytes.length
          (metaBytes (buildMeta ticks level) data.colOffset dict).length⟩ ∧
      file = encode 4 MAGIC ++ encode 2 VERSION ++ data.dataBuf ++
        indexBytes data.index ++ bloom.toBytes ++
        metaBytes (buildMeta ticks level) data.colOffset dict ++ footerBytes t.footer := by
  unfold write at h
  cases hbloom : buildBloom p ticks dict with
  | none => simp [hbloom] at h
  | some bloom =>
    cases hdata : buildData p ticks level with
    | none => simp [hbloom, hdata] at h
    | some data =>
      simp only [hbloom, hdata, Option.bind_eq_bind, Option.bind_some, Option.pure_def,
        Option.some.injEq, Prod.mk.injEq] at h
      obtain ⟨rfl, rfl⟩ := h
      exact ⟨bloom, data, rfl, rfl, rfl, rfl⟩

/-- Every tick's key and symbol name are found again, along with what was there before. -/
theorem insertTicks_spec {dict : SymbolDictionary} {ticks : List Tick} {f g : BloomFilter}
    (h : insertTicks dict ticks f = some g) :
    (∀ key, f.contains key = some true → g.contains key = some true) ∧
      ∀ x ∈ ticks, g.contains x.key.encode = some true ∧
        g.contains (asBytes (symbolName dict x.symbolId)) = some true := by
  induction ticks generalizing f with
  | nil =>
    obtain rfl : f = g := Option.some.inj h
    simp
  | cons tick ticks ih =>
    unfold insertTicks at h
    cases hkey : f.insert tick.key.encode with
    | none => simp [hkey] at h
    | some f₁ =>
      cases hname : f₁.insert (asBytes (symbolName dict tick.symbolId)) with
      | none => simp [hkey, hname] at h
      | some f₂ =>
        simp only [hkey, hname, Option.bind_eq_bind, Option.bind_some] at h
        obtain ⟨hkeep, hticks⟩ := ih h
        refine ⟨fun key hf => ?_, fun x hx => ?_⟩
        · exact hkeep key (BloomFilter.contains_mono hname (BloomFilter.contains_mono hkey hf))
        · rcases List.mem_cons.mp hx with rfl | hx
          · have hfound := BloomFilter.contains_mono hname (BloomFilter.contains_insert hkey)
            exact ⟨hkeep _ hfound, hkeep _ (BloomFilter.contains_insert hname)⟩
          · exact hticks x hx

theorem numBits_insertTicks {dict : SymbolDictionary} {ticks : List Tick} {f g : BloomFilter}
    (h : insertTicks dict ticks f = some g) : g.numBits = f.numBits := by
  induction ticks generalizing f with
  | nil =>
    obtain rfl : f = g := Option.some.inj h
    rfl
  | cons tick ticks ih =>
    obtain ⟨f₁, hkey, h⟩ := Option.bind_eq_some_iff.mp h
    obtain ⟨f₂, hname, h⟩ := Option.bind_eq_some_iff.mp h
    rw [ih h, BloomFilter.numBits_insert hname, BloomFilter.numBits_insert hkey]

theorem buildBloom_isSome (p : Platform) (ticks : List Tick) (dict : SymbolDictionary) :
    ∃ bloom, buildBloom p ticks dict = some bloom := by
  have hpos := BloomFilter.numBits_new_pos p (max ticks.length 1)
  unfold buildBloom
  generalize BloomFilter.new p (max ticks.length 1) = f at hpos
  clear p
  induction ticks generalizing f with
  | nil => exact ⟨f, rfl⟩
  | cons tick ticks ih =>
    obtain ⟨f₁, hkey⟩ := BloomFilter.insert_isSome hpos tick.key.encode
    have hpos₁ : 0 < f₁.numBits := by rwa [BloomFilter.numBits_insert hkey]
    obtain ⟨f₂, hname⟩ :=
      BloomFilter.insert_isSome hpos₁ (asBytes (symbolName dict tick.symbolId))
    obtain ⟨g, hg⟩ := ih f₂ (by rwa [BloomFilter.numBits_insert hname])
    refine ⟨g, ?_⟩
    simp only [insertTicks, hkey, hname, Option.bind_eq_bind, Option.bind_some]
    exact hg

theorem overlapsTimeRange_iff (t : SsTable) (t1 t2 : TimestampNs) :
    t.overlapsTimeRange t1 t2 = true ↔
      t1 ≤ t.tableMeta.maxTimestamp ∧ t.tableMeta.minTimestamp ≤ t2 := by
  simp [overlapsTimeRange]

theorem overlapsSymbol_iff (t : SsTable) (symbolId : SymbolId) :
    t.overlapsSymbol symbolId = true ↔
      t.tableMeta.minSymbolId ≤ symbolId ∧ symbolId ≤ t.tableMeta.maxSymbolId := by
  simp [overlapsSymbol]

section Written

variable {p : Platform} {path : String} {ticks : List Tick} {level : Nat}
  {dict : SymbolDictionary} {file : Bytes} {t : SsTable} {x : Tick}

theorem numBits_of_write (h : write p path ticks level dict = some (file, t)) :
    0 < t.bloom.numBits := by
  obtain ⟨bloom, data, hbloom, -, rfl, -⟩ := write_eq_some h
  exact (numBits_insertTicks hbloom).symm ▸ BloomFilter.numBits_new_pos p _

theorem mayContainKey_of_write (h : write p path ticks level dict = some (file, t))
    (hx : x ∈ ticks) : t.mayContainKey x.key = some true := by
  obtain ⟨bloom, data, hbloom, -, rfl, -⟩ := write_eq_some h
  exact ((insertTicks_spec hbloom).2 x hx).1

theorem mayContainSymbol_of_write (h : write p path ticks level dict = some (file, t))
    (hx : x ∈ ticks) : t.mayContainSymbol (symbolName dict x.symbolId) = some true := by
  obtain ⟨bloom, data, hbloom, -, rfl, -⟩ := write_eq_some h
  exact ((insertTicks_spec hbloom).2 x hx).2

theorem overlapsSymbol_of_write (h : write p path ticks level dict = some (file, t))
    (hx : x ∈ ticks) : t.overlapsSymbol x.symbolId = true := by
  obtain ⟨bloom, data, -, -, rfl, -⟩ := write_eq_some h
  have hmem : x.symbolId ∈ ticks.map Tick.symbolId := List.mem_map_of_mem hx
  have hmin : (((ticks.map Tick.symbolId).min?).getD 0) ≤ x.symbolId := by
    cases hlow : (ticks.map Tick.symbolId).min? with
    | none => simp [List.min?_eq_none_iff.mp hlow] at hmem
    | some low => exact (List.min?_eq_some_iff.mp hlow).2 _ hmem
  have hmax : x.symbolId ≤ (((ticks.map Tick.symbolId).max?).getD 0) := by
    cases hhigh : (ticks.map Tick.symbolId).max? with
    | none => simp [List.max?_eq_none_iff.mp hhigh] at hmem
    | some high => exact (List.max?_eq_some_iff.mp hhigh).2 _ hmem
  exact (overlapsSymbol_iff _ _).mpr ⟨hmin, hmax⟩

/-- A timestamp between those of the first and the last tick of the list. -/
def WithinEnds (ticks : List Tick) (ts : TimestampNs) : Prop :=
  (∀ first ∈ ticks.head?, first.timestamp ≤ ts) ∧ ∀ last ∈ ticks.getLast?, ts ≤ last.timestamp

instance (ticks : List Tick) (ts : TimestampNs) : Decidable (WithinEnds ticks ts) :=
  inferInstanceAs (Decidable (_ ∧ _))

/-- A query for the exact timestamp gets past the time bounds only within the ends, and
then every query around it does. -/
theorem overlapsTimeRange_of_write (h : write p path ticks level dict = some (file, t))
    (hticks : ticks ≠ []) (ts : TimestampNs) :
    (∀ t1 t2, t1 ≤ ts → ts ≤ t2 → t.overlapsTimeRange t1 t2 = true) ↔ WithinEnds ticks ts := by
  obtain ⟨bloom, data, -, -, rfl, -⟩ := write_eq_some h
  obtain ⟨first, hfirst⟩ : ∃ first, ticks.head? = some first :=
    Option.ne_none_iff_exists'.mp (by simpa using hticks)
  obtain ⟨last, hlast⟩ : ∃ last, ticks.getLast? = some last :=
    Option.ne_none_iff_exists'.mp (by simpa using hticks)
  simp only [overlapsTimeRange_iff, buildMeta, WithinEnds, hfirst, hlast, Option.map_some,
    Option.getD_some, Option.mem_def, Option.some.injEq, forall_eq']
  constructor
  · intro hall
    exact (hall ts ts Int64.le_rfl Int64.le_rfl).symm
  · rintro ⟨hmin, hmax⟩ t1 t2 h1 h2
    exact ⟨Int64.le_trans h1 hmax, Int64.le_trans hmin h2⟩

end Written

/-- The table passes every pruning test that a query for the tick uses. -/
def PassesPruning (t : SsTable) (dict : SymbolDictionary) (x : Tick) : Prop :=
  (∀ t1 t2, t1 ≤ x.timestamp → x.timestamp ≤ t2 → t.overlapsTimeRange t1 t2 = true) ∧
    t.overlapsSymbol x.symbolId = true ∧ t.mayContainKey x.key = some true ∧
    ∃ name, dict.getSymbol x.symbolId = some name ∧ t.mayContainSymbol name = some true

/-- A row of a written table is never pruned away exactly when its timestamp lies
between those of the first and the last row. -/
theorem pruning_sound_iff (p : Platform) (path : String) (ticks : List Tick) (level : Nat)
    (dict : SymbolDictionary) (hdict : ∀ x ∈ ticks, (dict.getSymbol x.symbolId).isSome = true)
    (file : Bytes) (t : SsTable) (hwrite : write p path ticks level dict = some (file, t)) (x : Tick)
    (hx : x ∈ ticks) : PassesPruning t dict x ↔ WithinEnds ticks x.timestamp := by
  obtain ⟨name, hname⟩ := Option.isSome_iff_exists.mp (hdict x hx)
  have hsymbol := mayContainSymbol_of_write hwrite hx
  rw [symbolName, hname, Option.getD_some] at hsymbol
  rw [← overlapsTimeRange_of_write hwrite (List.ne_nil_of_mem hx)]
  exact ⟨fun h => h.1, fun h =>
    ⟨h, overlapsSymbol_of_write hwrite hx, mayContainKey_of_write hwrite hx, name, hname, hsymbol⟩⟩

/-- Rows of two symbols, the second one starting at time `ts`. -/
def twoSymbolTicks (ts : TimestampNs) : List Tick :=
  [⟨0, 100, ⟨0⟩, ⟨0⟩, ⟨0⟩, ⟨0⟩, 0x1122334455667788⟩, ⟨1, ts, ⟨0⟩, ⟨0⟩, ⟨0⟩, ⟨0⟩, 5⟩,
    ⟨1, ts + 1, ⟨0⟩, ⟨0⟩, ⟨0⟩, ⟨0⟩, 5⟩]

def twoSymbols : SymbolDictionary := ((SymbolDictionary.new.getOrInsert "A").2.getOrInsert "B").2

/-- The second symbol continues where the first one stops. -/
theorem pruning_sound_consecutive_symbols : ∃ file t,
    write .simple "L0_1.sst" (twoSymbolTicks 101) 0 twoSymbols = some (file, t) ∧
      ∀ x ∈ twoSymbolTicks 101, PassesPruning t twoSymbols x ↔
        WithinEnds (twoSymbolTicks 101) x.timestamp := by
  obtain ⟨⟨file, t⟩, hwrite⟩ := Option.isSome_iff_exists.mp (by decide +kernel :
    (write .simple "L0_1.sst" (twoSymbolTicks 101) 0 twoSymbols).isSome = true)
  exact ⟨file, t, hwrite, fun x hx =>
    pruning_sound_iff .simple "L0_1.sst" _ 0 twoSymbols (by decide) file t hwrite x hx⟩

/-- The second symbol starts before the first one: the first row is pruned away. -/
theorem pruning_hides_first_row : ∃ file t x,
    write .simple "L0_1.sst" (twoSymbolTicks 5) 0 twoSymbols = some (file, t) ∧
      (twoSymbolTicks 5).Pairwise (fun a b => a.key ≤ b.key) ∧ x ∈ twoSymbolTicks 5 ∧
      (twoSymbols.getSymbol x.symbolId).isSome = true ∧ ¬ PassesPruning t twoSymbols x := by
  obtain ⟨⟨file, t⟩, hwrite⟩ := Option.isSome_iff_exists.mp (by decide +kernel :
    (write .simple "L0_1.sst" (twoSymbolTicks 5) 0 twoSymbols).isSome = true)
  refine ⟨file, t, ⟨0, 100, ⟨0⟩, ⟨0⟩, ⟨0⟩, ⟨0⟩, 0x1122334455667788⟩, hwrite, by decide, by decide,
    by decide, ?_⟩
  rintro ⟨htime, -⟩
  rw [overlapsTimeRange_of_write hwrite (by decide)] at htime
  revert htime
  decide

end Graphite.SsTable
