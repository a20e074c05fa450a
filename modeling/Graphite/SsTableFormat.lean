import Graphite.SsTablePruning

/-! Reading back what `write` has put into a file. The header is six bytes long while the
footer counts it as eight, so every section is read two bytes late; and the column sizes
stand in front of the columns while the reader looks for them behind. -/

namespace Graphite.SsTable
open BigEndian

@[simp] theorem length_footerBytes (f : Footer) : (footerBytes f).length = 64 := by
  simp [footerBytes]

/-- The fields of a footer fit their eight bytes. -/
def Footer.Fits (f : Footer) : Prop :=
  f.dataOffset < 2 ^ 64 ∧ f.dataSize < 2 ^ 64 ∧ f.indexOffset < 2 ^ 64 ∧ f.indexSize < 2 ^ 64 ∧
    f.bloomOffset < 2 ^ 64 ∧ f.bloomSize < 2 ^ 64 ∧ f.metaOffset < 2 ^ 64 ∧ f.metaSize < 2 ^ 64

theorem readSection_eq_ok {file bs : Bytes} {offset size : Nat} (hsize : size ≠ 0)
    (h : readSection file offset size = .ok bs) : slice file offset (offset + size) = some bs := by
  unfold readSection at h
  split_ifs at h
  cases hs : slice file offset (offset + size) with
  | none => simp [hs] at h
  | some bytes =>
    rw [hs] at h
    rw [Except.ok.inj h]

theorem readSection_of_slice {file bs : Bytes} {offset size : Nat} (hoffset : offset < 2 ^ 63)
    (hsize : size < 2 ^ 63) (h : slice file offset (offset + size) = some bs) :
    readSection file offset size = .ok bs := by
  unfold readSection
  rw [if_neg (by omega), if_neg (by omega), h]
  split_ifs with h0
  · obtain ⟨-, rfl⟩ := (slice_eq_some_iff _ _ _ _).mp h
    simp [h0]
  · rfl

/-- The footer comes back from the last 64 bytes. -/
theorem readFooter_append {body : Bytes} {f : Footer} (hf : Footer.Fits f)
    (hbody : body.length < 2 ^ 63) : readFooter (body ++ footerBytes f) = .ok f := by
  have hlength : (body ++ footerBytes f).length = body.length + 64 := by simp
  have hslice : slice (body ++ footerBytes f) body.length (body.length + 64) =
      some (footerBytes f) := by
    simpa using slice_append body (footerBytes f) [] body.length (body.length + 64) rfl (by simp)
  have hread := readSection_of_slice hbody (by omega) hslice
  have hbytes : footerBytes f = [f.dataOffset, f.dataSize, f.indexOffset, f.indexSize,
      f.bloomOffset, f.bloomSize, f.metaOffset, f.metaSize].flatMap (encode 8) := by
    simp [footerBytes]
  have hfield (i : Nat) (h : i < 8) := take_drop_flatMap_encode 8 [f.dataOffset, f.dataSize,
    f.indexOffset, f.indexSize, f.bloomOffset, f.bloomSize, f.metaOffset, f.metaSize] i h
  have hdecode {n : Nat} (h : n < 2 ^ 64) : decode (encode 8 n) = n := decode_encode_of_lt h
  obtain ⟨h0, h1, h2, h3, h4, h5, h6, h7⟩ := hf
  rw [readFooter, hlength, if_neg (by omega), Nat.add_sub_cancel, hread]
  simp only [bind, Except.bind, pure, Except.pure, hbytes, hfield, Nat.reduceLT,
    List.getElem_cons_zero, List.getElem_cons_succ, hdecode h0, hdecode h1, hdecode h2, hdecode h3,
    hdecode h4, hdecode h5, hdecode h6, hdecode h7]

/-- The row count that `readMetadata` returns stands at bytes 20 to 28 of the section. -/
theorem readMetadata_rowCount {file : Bytes} {footer : Footer} {m : SsTableMeta}
    (hsize : 28 ≤ footer.metaSize) (h : readMetadata file footer = .ok m) :
    ∃ bs, slice file (footer.metaOffset + 20) (footer.metaOffset + 28) = some bs ∧
      m.rowCount = decode bs := by
  simp only [readMetadata, bind_eq_ok] at h
  obtain ⟨buf, hbuf, _, -, _, -, _, -, _, -, rowCount, hrow, _, -, hm⟩ := h
  have hslice := readSection_eq_ok (by omega) hbuf
  refine ⟨rowCount, ?_, ?_⟩
  · rw [← slice_slice hslice (by omega)]
    unfold field at hrow
    cases hs : slice buf 20 28 with
    | none => simp [hs] at hrow
    | some bs =>
      rw [hs] at hrow
      rw [Except.ok.inj hrow]
  · rw [← Except.ok.inj hm]

/-- What an opened table got out of the footer and the metadata section. -/
theorem openBytes_eq_ok {path : String} {file : Bytes} {t : SsTable}
    (h : openBytes path file = .ok t) :
    ∃ footer, readFooter file = .ok footer ∧ readMetadata file footer = .ok t.tableMeta := by
  unfold openBytes at h
  obtain ⟨magicBuf, -, h⟩ := bind_eq_ok.mp h
  split_ifs at h
  · cases h
  simp only [bind_eq_ok] at h
  obtain ⟨_, -, footer, hfooter, tableMeta, hmeta, _, -, _, -, _, -, ht⟩ := h
  exact ⟨footer, hfooter, by rw [← Except.ok.inj ht]; exact hmeta⟩

/-- The metadata section up to two bytes behind the row count. -/
theorem metaBytes_eq (m : SsTableMeta) (colOffset : Nat) (dict : SymbolDictionary) :
    ∃ before after, metaBytes m colOffset dict =
        before ++ (encode 6 m.rowCount ++ encode 2 (m.level / 256 ^ 2)) ++ after ∧
      before.length = 22 := by
  refine ⟨encodeI64 m.minTimestamp ++ encodeI64 m.maxTimestamp ++ encode 2 m.minSymbolId.toNat ++
    encode 2 m.maxSymbolId.toNat ++ encode 2 (m.rowCount / 256 ^ 6),
    encode 2 m.level ++ encode 8 colOffset ++ encode 4 dict.toMetadata.length ++ dict.toMetadata,
    ?_, by simp⟩
  simp only [metaBytes, encode_add 2 6 m.rowCount, encode_add 2 2 m.level, List.append_assoc]

/-- Every entry of the key section takes at least five bytes. -/
theorem length_keyLoop {count i : Nat} {prevKey : Option Key} {buf buf' : Bytes}
    {index index' : List IndexEntry} {ticks : List Tick}
    (h : keyLoop count i prevKey buf index ticks = some (buf', index')) :
    buf.length + 5 * ticks.length ≤ buf'.length := by
  induction ticks generalizing i prevKey buf index with
  | nil =>
    obtain ⟨rfl, -⟩ := Prod.mk.inj (Option.some.inj h)
    simp
  | cons tick ticks ih =>
    simp only [keyLoop, Option.bind_eq_bind, Option.bind_eq_some_iff] at h
    obtain ⟨_, -, h⟩ := h
    have hrest := ih h
    have hentry : 5 ≤ (keyEntry prevKey i tick.key).length := by
      simp [keyEntry]
    rw [List.length_append] at hrest
    rw [List.length_cons]
    omega

/-- The data buffer: key entries, seven sizes, seven columns. -/
theorem buildData_eq_some {p : Platform} {ticks : List Tick} {level : Nat} {data : DataBlock}
    (h : buildData p ticks level = some data) :
    ∃ columns keyBuf index, encodeColumns p ticks level = some columns ∧
      keyLoop ticks.length 0 none [] [] ticks = some (keyBuf, index) ∧
      data.dataBuf =
        keyBuf ++ (columns.flatMap fun col => encode 4 col.length) ++ columns.flatten := by
  simp only [buildData, Option.bind_eq_bind, Option.bind_eq_some_iff, Option.pure_def] at h
  obtain ⟨columns, hcolumns, ⟨keyBuf, index⟩, hkeys, _, -, hdata⟩ := h
  refine ⟨columns, keyBuf, index, hcolumns, hkeys, ?_⟩
  rw [← Option.some.inj hdata]

theorem length_ticks_le {p : Platform} {ticks : List Tick} {level : Nat} {data : DataBlock}
    (h : buildData p ticks level = some data) : 5 * ticks.length ≤ data.dataBuf.length := by
  obtain ⟨columns, keyBuf, index, -, hkeys, hdata⟩ := buildData_eq_some h
  have hlen := length_keyLoop hkeys
  rw [hdata]
  simp only [List.length_append, List.length_nil] at hlen ⊢
  omega

/-- Every section of the table is below four gigabytes. -/
def SectionsFit (t : SsTable) : Prop :=
  t.footer.dataSize < 2 ^ 32 ∧ t.footer.indexSize < 2 ^ 32 ∧ t.footer.bloomSize < 2 ^ 32 ∧
    t.footer.metaSize < 2 ^ 32

instance (t : SsTable) : Decidable (SectionsFit t) := inferInstanceAs (Decidable (_ ∧ _))

/-- The row count of the reopened table: the count moved up by two bytes, with the high
half of the level in its place. -/
theorem rowCount_of_openBytes {p : Platform} {path : String} {ticks : List Tick} {level : Nat}
    {dict : SymbolDictionary} {file : Bytes} {t t' : SsTable}
    (hwrite : write p path ticks level dict = some (file, t)) (hfit : SectionsFit t)
    (hopen : openBytes path file = .ok t') :
    t'.tableMeta.rowCount = ticks.length % 256 ^ 6 * 256 ^ 2 + level / 256 ^ 2 % 256 ^ 2 := by
  obtain ⟨bloom, data, -, -, ht, hfile⟩ := write_eq_some hwrite
  obtain ⟨footer, hfooter, hmeta⟩ := openBytes_eq_ok hopen
  obtain ⟨before, after, hbytes, hbefore⟩ :=
    metaBytes_eq (buildMeta ticks level) data.colOffset dict
  have hfoot : t.footer = layout data.dataBuf.length (indexBytes data.index).length
      bloom.toBytes.length (metaBytes (buildMeta ticks level) data.colOffset dict).length := by
    rw [ht]
  obtain ⟨h1, h2, h3, h4⟩ := hfit
  rw [hfoot] at h1 h2 h3 h4
  simp only [layout] at h1 h2 h3 h4
  have hfits : Footer.Fits t.footer := by
    rw [hfoot]
    refine ⟨?_, ?_, ?_, ?_, ?_, ?_, ?_, ?_⟩ <;> simp only [layout] <;> omega
  have hbody : footer = t.footer := by
    rw [hfile, readFooter_append hfits ?_] at hfooter
    · exact (Except.ok.inj hfooter).symm
    · simp only [List.length_append, length_encode]
      omega
  have hsize : 28 ≤ footer.metaSize := by
    rw [hbody, hfoot, layout, hbytes]
    simp only [List.length_append, hbefore, length_encode]
    omega
  obtain ⟨bs, hslice, hrow⟩ := readMetadata_rowCount hsize hmeta
  have hplace : slice file (footer.metaOffset + 20) (footer.metaOffset + 28) =
      some (encode 6 ticks.length ++ encode 2 (level / 256 ^ 2)) := by
    have hsplit : file = (encode 4 MAGIC ++ encode 2 VERSION ++ data.dataBuf ++
        indexBytes data.index ++ bloom.toBytes ++ before) ++
        (encode 6 ticks.length ++ encode 2 (level / 256 ^ 2)) ++
        (after ++ footerBytes t.footer) := by
      rw [hfile, hbytes]
      simp [buildMeta]
    rw [hsplit]
    refine slice_append _ _ _ _ _ ?_ ?_
    · rw [hbody, hfoot, layout]
      simp only [List.length_append, length_encode, hbefore]
      omega
    · simp only [List.length_append, length_encode]
  rw [hplace] at hslice
  rw [hrow, ← Option.some.inj hslice, decode_append, length_encode, decode_encode, decode_encode]

/-- The opened table equals the written one up to the file size, and gives its data back. -/
def ContainerRoundTrips (p : Platform) (path : String) (ticks : List Tick) (level : Nat)
    (dict : SymbolDictionary) : Prop :=
  ∃ file t data t', write p path ticks level dict = some (file, t) ∧
    buildData p ticks level = some data ∧ openBytes path file = .ok t' ∧
    { t'.tableMeta with fileSize := 0 } = { t.tableMeta with fileSize := 0 } ∧
    t'.index = t.index ∧ t'.bloom = t.bloom ∧ t'.symbolDict = t.symbolDict ∧
    t'.readDataBlock file = some data.dataBuf

theorem not_containerRoundTrips {p : Platform} {path : String} {ticks : List Tick} {level : Nat}
    {dict : SymbolDictionary} (hticks : ticks ≠ [])
    (hfit : ∀ file t, write p path ticks level dict = some (file, t) → SectionsFit t) :
    ¬ ContainerRoundTrips p path ticks level dict := by
  rintro ⟨file, t, data, t', hwrite, hdata, hopen, hmeta, -⟩
  have hsections := hfit file t hwrite
  have hrow := rowCount_of_openBytes hwrite hsections hopen
  obtain ⟨bloom, data', -, hdata', rfl, -⟩ := write_eq_some hwrite
  obtain rfl : data = data' := Option.some.inj (hdata.symm.trans hdata')
  have hcount : t'.tableMeta.rowCount = ticks.length := congrArg SsTableMeta.rowCount hmeta
  have hlen := length_ticks_le hdata
  have hpos : 0 < ticks.length := List.length_pos_iff.mpr hticks
  have hsize : data.dataBuf.length < 2 ^ 32 := hsections.1
  rw [hcount, Nat.mod_eq_of_lt (by omega : ticks.length < 256 ^ 6)] at hrow
  omega

/-- No table with a row comes back from its file: the row count never does. -/
theorem container_never_round_trips (p : Platform) (path : String) (ticks : List Tick)
    (level : Nat) (dict : SymbolDictionary) (hticks : ticks ≠ [])
    (hfit : ∀ file t, write p path ticks level dict = some (file, t) → SectionsFit t) :
    ¬ ContainerRoundTrips p path ticks level dict :=
  not_containerRoundTrips hticks hfit

theorem sectionsFit_twoSymbolTicks : ∀ file t,
    write .simple "L0_1.sst" (twoSymbolTicks 101) 0 twoSymbols = some (file, t) →
      SectionsFit t := by
  have h : ((write .simple "L0_1.sst" (twoSymbolTicks 101) 0 twoSymbols).all fun e =>
      decide (SectionsFit e.2)) = true := by decide +kernel
  intro file t hwrite
  rw [hwrite] at h
  simpa using h

theorem container_three_rows :
    ¬ ContainerRoundTrips .simple "L0_1.sst" (twoSymbolTicks 101) 0 twoSymbols :=
  container_never_round_trips .simple "L0_1.sst" (twoSymbolTicks 101) 0 twoSymbols (by decide)
    sectionsFit_twoSymbolTicks

/-- Three sorted rows of two symbols: opening the file that was written panics. -/
theorem container_open_panics : ∃ file t,
    write .simple "L0_1.sst" (twoSymbolTicks 101) 0 twoSymbols = some (file, t) ∧
      (twoSymbolTicks 101).Pairwise (fun a b => a.key ≤ b.key) ∧ SectionsFit t ∧
      openBytes "L0_1.sst" file = .error .panic ∧
      ¬ ContainerRoundTrips .simple "L0_1.sst" (twoSymbolTicks 101) 0 twoSymbols := by
  obtain ⟨⟨file, t⟩, hwrite⟩ := Option.isSome_iff_exists.mp (by decide +kernel :
    (write .simple "L0_1.sst" (twoSymbolTicks 101) 0 twoSymbols).isSome = true)
  have hopen : ((write .simple "L0_1.sst" (twoSymbolTicks 101) 0 twoSymbols).all fun e =>
      decide (openBytes "L0_1.sst" e.1 = .error .panic)) = true := by decide +kernel
  rw [hwrite] at hopen
  exact ⟨file, t, hwrite, by decide, sectionsFit_twoSymbolTicks file t hwrite,
    by simpa using hopen, not_containerRoundTrips (by decide) sectionsFit_twoSymbolTicks⟩

end Graphite.SsTable
