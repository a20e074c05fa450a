import Mathlib.Data.FinEnum
import Graphite.SsTableFormat

/-! The data block as the decoder sees it. The seven sizes are taken from the last 28
bytes, and columns of these sizes are sliced off behind the end of the data: unless all
seven are zero the decoder panics, and if they are it finds no rows. -/

namespace Graphite.SsTable
open BigEndian

/-- The last 28 bytes, where the column sizes are looked for. -/
def sizeBytes (data : Bytes) : Bytes := data.drop (data.length - 28)

theorem columnSizes_eq_zero_iff {data : Bytes} (h : 28 ≤ data.length) :
    (∀ s ∈ columnSizes data, s = 0) ↔ ∀ b ∈ sizeBytes data, b = 0 := by
  have hlength : (sizeBytes data).length = 28 := by
    rw [sizeBytes, List.length_drop]
    omega
  have hsize (i : Nat) : (data.drop (data.length - 28 + i * 4)).take 4 =
      ((sizeBytes data).drop (i * 4)).take 4 := by
    rw [sizeBytes, List.drop_drop]
  simp only [columnSizes, List.forall_mem_map, List.mem_range, decode_eq_zero_iff, hsize]
  constructor
  · intro hall b hb
    obtain ⟨j, hj, rfl⟩ := List.mem_iff_getElem.mp hb
    refine hall (j / 4) (by omega) _ (List.mem_iff_getElem.mpr ⟨j % 4, ?_, ?_⟩)
    · rw [List.length_take, List.length_drop]
      omega
    · rw [List.getElem_take, List.getElem_drop]
      congr 1
      omega
  · intro hall i _ b hb
    exact hall b (List.mem_of_mem_drop (List.mem_of_mem_take hb))

/-- Behind the end of the data only empty columns can be sliced off. -/
theorem sliceColumns_end (data : Bytes) (sizes : List Nat) :
    sliceColumns data data.length sizes =
      if ∀ s ∈ sizes, s = 0 then some (sizes.map fun _ => []) else none := by
  induction sizes with
  | nil => simp [sliceColumns]
  | cons size sizes ih =>
    by_cases hzero : size = 0
    · subst hzero
      have hslice : slice data data.length data.length = some [] := by simp [slice]
      rw [sliceColumns, Nat.add_zero, hslice, Option.bind_eq_bind, Option.bind_some, ih]
      simp only [List.forall_mem_cons, true_and]
      split_ifs <;> rfl
    · have hslice : slice data data.length (data.length + size) = none := by
        rw [slice, if_neg (by omega)]
      rw [sliceColumns, hslice, if_neg fun hall => hzero (hall size (by simp))]
      rfl

/-- The decoder finds no rows, or panics. -/
theorem decodeTicks_eq (p : Platform) {data : Bytes} (h : 28 ≤ data.length)
    (symbolId : Option SymbolId) (t1 t2 : TimestampNs) :
    decodeTicks p data symbolId t1 t2 =
      if ∀ b ∈ sizeBytes data, b = 0 then some [] else none := by
  rw [decodeTicks, if_neg (by omega), Nat.sub_add_cancel h, sliceColumns_end]
  simp only [columnSizes_eq_zero_iff h]
  split_ifs
  · simp [columnSizes, List.range_succ, Delta.decode, Gorilla.decodeDoubleDelta, Gorilla.decode,
      Gorilla.reconstructFromDoubleDeltas]
  · rfl

theorem encodeColumns_eq_some {p : Platform} {ticks : List Tick} {level : Nat}
    {columns : List Bytes} (h : encodeColumns p ticks level = some columns) :
    ∃ front, columns = front ++ [SymbolDictionary.encodeIds (ticks.map Tick.symbolId)] ∧
      front.length = 6 := by
  simp only [encodeColumns, Option.bind_eq_bind, Option.bind_eq_some_iff, Option.pure_def,
    Option.some.injEq] at h
  obtain ⟨tsCol, -, rfl⟩ := h
  exact ⟨[_, _, _, _, _, _], rfl, rfl⟩

/-- The block ends with the symbol column, of a count and two bytes for each row. -/
theorem dataBuf_suffix {p : Platform} {ticks : List Tick} {level : Nat} {data : DataBlock}
    (h : buildData p ticks level = some data) :
    ∃ front, data.dataBuf =
      front ++ SymbolDictionary.encodeIds (ticks.map Tick.symbolId) ∧ 28 ≤ front.length := by
  obtain ⟨columns, keyBuf, index, hcolumns, -, hdata⟩ := buildData_eq_some h
  obtain ⟨front, rfl, hfront⟩ := encodeColumns_eq_some hcolumns
  set sizes := (front ++ [SymbolDictionary.encodeIds (ticks.map Tick.symbolId)]).flatMap
    fun col => encode 4 col.length with hsizes
  have hlen : sizes.length = 28 := by
    rw [hsizes, List.length_flatMap]
    simp [hfront]
  refine ⟨keyBuf ++ sizes ++ front.flatten, ?_, ?_⟩
  · rw [hdata, List.flatten_append, List.flatten_singleton, ← List.append_assoc]
  · simp only [List.length_append, hlen]
    omega

/-- A block of no rows: every column is four zero bytes. -/
theorem sizeBytes_nil {p : Platform} {level : Nat} {data : DataBlock}
    (h : buildData p [] level = some data) : ∀ b ∈ sizeBytes data.dataBuf, b = 0 := by
  have hdata : data.dataBuf = (List.replicate 7 (encode 4 4)).flatten ++ List.replicate 28 0 := by
    obtain ⟨columns, keyBuf, index, hcolumns, hkeys, hdata⟩ := buildData_eq_some h
    obtain rfl : keyBuf = [] := (Prod.mk.inj (Option.some.inj hkeys)).1.symm
    obtain rfl := Option.some.inj hcolumns
    rw [hdata]
    rfl
  have hlen : data.dataBuf.length - 28 = (List.replicate 7 (encode 4 4)).flatten.length := by
    rw [hdata, List.length_append, List.length_replicate, Nat.add_sub_cancel]
  intro b hb
  rw [sizeBytes, hlen, hdata, List.drop_left] at hb
  exact List.eq_of_mem_replicate hb

theorem mem_sizeBytes_of_suffix {as bs : Bytes} (h : bs.length ≤ 28) {b : UInt8} (hb : b ∈ bs) :
    b ∈ sizeBytes (as ++ bs) := by
  rw [sizeBytes, List.drop_append_of_le_length (by rw [List.length_append]; omega)]
  exact List.mem_append_right _ hb

theorem mem_of_mem_sizeBytes {as bs : Bytes} (h : 28 ≤ bs.length) {b : UInt8}
    (hb : b ∈ sizeBytes (as ++ bs)) : b ∈ bs := by
  have hlen : (as ++ bs).length - 28 = as.length + (bs.length - 28) := by
    rw [List.length_append]
    omega
  rw [sizeBytes, hlen, ← List.drop_drop, List.drop_left] at hb
  exact List.mem_of_mem_drop hb

theorem encode_id_eq_zero (id : SymbolId) (h : ∀ b ∈ encode 2 id.toNat, b = 0) : id = 0 := by
  have hnat : id.toNat = 0 := by
    rw [← decode_encode_of_lt (w := 2) id.toNat_lt]
    exact (decode_eq_zero_iff _).mpr h
  exact UInt16.toNat_inj.mp hnat

/-- The last 28 bytes are zero for a block of no rows, and for one of at least fourteen
rows that all have the symbol id zero. -/
theorem sizeBytes_eq_zero_iff {p : Platform} {ticks : List Tick} {level : Nat} {data : DataBlock}
    (h : buildData p ticks level = some data)
    (hsorted : ticks.Pairwise fun a b => a.key ≤ b.key) :
    (∀ b ∈ sizeBytes data.dataBuf, b = 0) ↔
      ticks = [] ∨ 14 ≤ ticks.length ∧ ∀ x ∈ ticks, x.symbolId = 0 := by
  obtain ⟨front, hdata, -⟩ := dataBuf_suffix h
  rw [SymbolDictionary.encodeIds, List.length_map, ← List.append_assoc] at hdata
  set idBytes := (ticks.map Tick.symbolId).flatMap fun id => encode 2 id.toNat with hids
  have hlen : idBytes.length = 2 * ticks.length := by
    simp [hids, List.length_flatMap, Function.comp_def, Nat.mul_comm]
  cases ticks using List.reverseRecOn with
  | nil => simpa using sizeBytes_nil h
  | append_singleton init last =>
    have hne : init ++ [last] ≠ [] := by simp
    by_cases h14 : 14 ≤ (init ++ [last]).length
    · simp only [hne, false_or, h14, true_and]
      constructor
      · intro hzero
        have hlast : last.symbolId = 0 := by
          refine encode_id_eq_zero _ fun b hb => hzero b ?_
          have hend : data.dataBuf = (front ++ encode 4 (init ++ [last]).length ++
              (init.map Tick.symbolId).flatMap fun id => encode 2 id.toNat) ++
              encode 2 last.symbolId.toNat := by
            rw [hdata, hids]
            simp
          rw [hend]
          exact mem_sizeBytes_of_suffix (by simp) hb
        intro x hx
        rcases List.mem_append.mp hx with hx | hx
        · have hle := (List.pairwise_append.mp hsorted).2.2 x hx last (by simp)
          rw [Key.le_def] at hle
          simp only [Tick.key, hlast] at hle
          grind
        · rw [List.mem_singleton.mp hx]
          exact hlast
      · intro hall b hb
        rw [hdata] at hb
        have hmem := mem_of_mem_sizeBytes (by omega) hb
        rw [hids, List.mem_flatMap] at hmem
        obtain ⟨id, hid, hb⟩ := hmem
        obtain ⟨x, hx, rfl⟩ := List.mem_map.mp hid
        rw [hall x hx, UInt16.toNat_zero, encode_zero] at hb
        exact List.eq_of_mem_replicate hb
    · simp only [hne, h14, false_or, false_and, iff_false]
      intro hzero
      -- the low byte of the count is within the last 28 bytes
      have hcount : data.dataBuf = (front ++ encode 3 ((init ++ [last]).length / 256)) ++
          (UInt8.ofNat (init ++ [last]).length :: idBytes) := by
        rw [hdata]
        simp [encode]
      have hbyte := hzero (UInt8.ofNat (init ++ [last]).length) (by
        rw [hcount]
        exact mem_sizeBytes_of_suffix (by rw [List.length_cons]; omega) (by simp))
      have hnat : (UInt8.ofNat (init ++ [last]).length).toNat = (init ++ [last]).length :=
        UInt8.toNat_ofNat_of_lt' (by rw [UInt8.size]; omega)
      rw [hbyte, UInt8.toNat_zero, List.length_append, List.length_singleton] at hnat
      omega

/-- The rows that a scan with these bounds should find. -/
def expected (ticks : List Tick) (symbolId : Option SymbolId) (t1 t2 : TimestampNs) : List Tick :=
  ticks.filter (selects symbolId t1 t2)

/-- Decoding the data block gives the selected rows back exactly when there are none to
give back: no rows at all, or at least fourteen, all of symbol id zero and all filtered. -/
theorem data_block_roundtrip_iff (p : Platform) (ticks : List Tick) (level : Nat)
    (hsorted : ticks.Pairwise fun a b => a.key ≤ b.key) (data : DataBlock)
    (hdata : buildData p ticks level = some data) (symbolId : Option SymbolId)
    (t1 t2 : TimestampNs) :
    decodeTicks p data.dataBuf symbolId t1 t2 = some (expected ticks symbolId t1 t2) ↔
      ticks = [] ∨ 14 ≤ ticks.length ∧ (∀ x ∈ ticks, x.symbolId = 0) ∧
        ∀ x ∈ ticks, selects symbolId t1 t2 x = false := by
  obtain ⟨front, hfront, hlen⟩ := dataBuf_suffix hdata
  have h28 : 28 ≤ data.dataBuf.length := by
    rw [hfront, List.length_append]
    omega
  have hexpected : expected ticks symbolId t1 t2 = [] ↔
      ∀ x ∈ ticks, selects symbolId t1 t2 x = false := by
    simp [expected, List.filter_eq_nil_iff]
  rw [decodeTicks_eq p h28, ← hexpected]
  simp only [sizeBytes_eq_zero_iff hdata hsorted]
  split_ifs with hzero
  · rw [Option.some.injEq, eq_comm]
    rcases hzero with rfl | ⟨hcount, hids⟩
    · simp [expected]
    · constructor
      · exact fun hnone => Or.inr ⟨hcount, hids, hnone⟩
      · rintro (rfl | ⟨-, -, hnone⟩)
        · rfl
        · exact hnone
  · constructor
    · intro hnone
      cases hnone
    · rintro (rfl | ⟨hcount, hids, -⟩)
      · exact absurd (Or.inl rfl) hzero
      · exact absurd (Or.inr ⟨hcount, hids⟩) hzero

theorem data_block_roundtrip_three_rows : ∃ data,
    buildData .simple (twoSymbolTicks 101) 0 = some data ∧
      (decodeTicks .simple data.dataBuf (some 1) 0 200 =
          some (expected (twoSymbolTicks 101) (some 1) 0 200) ↔
        twoSymbolTicks 101 = [] ∨ 14 ≤ (twoSymbolTicks 101).length ∧
          (∀ x ∈ twoSymbolTicks 101, x.symbolId = 0) ∧
          ∀ x ∈ twoSymbolTicks 101, selects (some 1) 0 200 x = false) := by
  obtain ⟨data, hdata⟩ := Option.isSome_iff_exists.mp (by decide +kernel :
    (buildData .simple (twoSymbolTicks 101) 0).isSome = true)
  exact ⟨data, hdata,
    data_block_roundtrip_iff .simple (twoSymbolTicks 101) 0 (by decide) data hdata (some 1) 0 200⟩

/-- Each column codec decodes what it encoded. -/
def CodecsInvert (p : Platform) (ticks : List Tick) (level : Nat) : Prop :=
  Delta.RoundTrips (ticks.map Tick.timestamp) ∧
    (∀ price ∈ [Tick.open_, Tick.high, Tick.low, Tick.close],
      Gorilla.decodeDoubleDelta p (Gorilla.encodeDoubleDelta p (ticks.map price)) =
        some (ticks.map price)) ∧
    RleLz4.decode p (RleLz4.encodeForLevel p (ticks.map Tick.volume) level) =
      ticks.map Tick.volume ∧
    SymbolDictionary.decodeIds (SymbolDictionary.encodeIds (ticks.map Tick.symbolId)) =
      ticks.map Tick.symbolId

/-- Three rows whose columns all come back one by one: decoding their block panics. -/
theorem data_block_decode_panics : ∃ data,
    buildData .simple (twoSymbolTicks 101) 0 = some data ∧
      (twoSymbolTicks 101).Pairwise (fun a b => a.key ≤ b.key) ∧
      CodecsInvert .simple (twoSymbolTicks 101) 0 ∧
      decodeTicks .simple data.dataBuf none 0 200 = none := by
  obtain ⟨data, hdata⟩ := Option.isSome_iff_exists.mp (by decide +kernel :
    (buildData .simple (twoSymbolTicks 101) 0).isSome = true)
  have hpanic : ((buildData .simple (twoSymbolTicks 101) 0).all fun data =>
      decide (decodeTicks .simple data.dataBuf none 0 200 = none)) = true := by decide +kernel
  rw [hdata] at hpanic
  have hprice : ∀ price ∈ [Tick.open_, Tick.high, Tick.low, Tick.close],
      Gorilla.decodeDoubleDelta .simple
          (Gorilla.encodeDoubleDelta .simple ((twoSymbolTicks 101).map price)) =
        some ((twoSymbolTicks 101).map price) := by
    simp only [List.forall_mem_cons]
    decide +kernel
  exact ⟨data, hdata, by decide, ⟨⟨_, rfl, by decide +kernel⟩, hprice, by decide +kernel,
    by decide +kernel⟩, by simpa using hpanic⟩

end Graphite.SsTable
