import Graphite.SymbolIds

/-! The dictionary written as metadata and read again. A name has its length in front of it,
cut to 16 bits: one that is too long is read back without its end, and its bytes from there
on are taken for the next names. -/

namespace Graphite
open BigEndian

theorem asBytes_injective {s t : String} (h : asBytes s = asBytes t) : s = t := by
  have hdata : s.toUTF8.data = t.toUTF8.data := Array.toList_inj.mp h
  exact String.toByteArray_inj.mp (ByteArray.ext hdata)

theorem asBytes_of_fromUTF8? {bs : Bytes} {s : String} (h : String.fromUTF8? ⟨bs.toArray⟩ = some s) :
    asBytes s = bs := by
  unfold String.fromUTF8? at h
  split at h
  · obtain rfl := Option.some.inj h
    rfl
  · cases h

namespace SymbolDictionary

theorem fromUtf8Lossy_asBytes (s : String) : fromUtf8Lossy (asBytes s) = s := by
  have hbytes : (⟨(asBytes s).toArray⟩ : ByteArray) = s.toByteArray := rfl
  have hvalid : String.fromUTF8? ⟨(asBytes s).toArray⟩ = some s := by
    unfold String.fromUTF8?
    rw [hbytes, dif_pos s.isValidUTF8]
    rfl
  rw [fromUtf8Lossy, hvalid]

theorem utf8Followers_EF : utf8Followers 0xEF = some [(0x80, 0xBF), (0x80, 0xBF)] := rfl

@[simp] theorem replaceInvalid_nil (fuel : Nat) : replaceInvalid fuel [] = [] := by cases fuel <;> rfl

/-- Replacing sequences changes the bytes before the last one, or makes them two longer. -/
theorem length_replaceInvalid_le {fuel : Nat} {bs : Bytes} (hfuel : bs.length ≤ fuel)
    (h : bs <+: replaceInvalid fuel bs) : (replaceInvalid fuel bs).length ≤ bs.length + 2 := by
  induction fuel generalizing bs with
  | zero =>
    have hnil : bs = [] := List.length_eq_zero_iff.mp (Nat.le_zero.mp hfuel)
    subst hnil
    simp [replaceInvalid]
  | succ fuel ih =>
    cases bs with
    | nil => simp [replaceInvalid]
    | cons b bs =>
      rw [replaceInvalid] at h ⊢
      cases hfollowers : utf8Followers b with
      | none =>
        rw [hfollowers] at h
        obtain rfl : b = 0xEF := (List.cons_prefix_cons.mp h).1
        rw [utf8Followers_EF] at hfollowers
        cases hfollowers
      | some ranges =>
        rw [hfollowers] at h
        dsimp only at h ⊢
        generalize hgood : ((ranges.zip bs).takeWhile
          fun e => e.1.1 ≤ e.2 && e.2 ≤ e.1.2).length = good at h ⊢
        have hsplit := congrArg List.length (List.take_append_drop good bs)
        rw [List.length_append] at hsplit
        rw [List.length_cons] at hfuel ⊢
        split_ifs at h ⊢ with hwhole
        · have htail : bs.drop good <+: replaceInvalid fuel (bs.drop good) := by
            have hrest := (List.cons_prefix_cons.mp h).2
            nth_rewrite 1 [← List.take_append_drop good bs] at hrest
            exact (List.prefix_append_right_inj _).mp hrest
          have hle := ih (by omega) htail
          rw [List.length_append, List.length_cons]
          omega
        · -- only a first byte EF is its own replacement, and three bytes EF BF BD are whole
          obtain ⟨rfl, hrest⟩ := List.cons_prefix_cons.mp h
          rw [utf8Followers_EF] at hfollowers
          cases hfollowers
          match bs with
          | [] => simp
          | [x] =>
            obtain rfl : x = 0xBF := (List.cons_prefix_cons.mp hrest).1
            obtain rfl : good = 1 := hgood.symm
            simp
          | x :: y :: rest =>
            obtain ⟨rfl, hrest⟩ := List.cons_prefix_cons.mp hrest
            obtain rfl : y = 0xBD := (List.cons_prefix_cons.mp hrest).1
            exact absurd hgood.symm hwhole

/-- A name that is cut off does not read as itself. -/
theorem fromUtf8Lossy_take_ne {s : String} {n : Nat} (h : n + 2 < (asBytes s).length) :
    fromUtf8Lossy ((asBytes s).take n) ≠ s := by
  have hlen : ((asBytes s).take n).length = n := List.length_take_of_le (by omega)
  intro heq
  unfold fromUtf8Lossy at heq
  cases hwhole : String.fromUTF8? ⟨((asBytes s).take n).toArray⟩ with
  | some t =>
    rw [hwhole] at heq
    obtain rfl : t = s := heq
    rw [← asBytes_of_fromUTF8? hwhole] at hlen
    omega
  | none =>
    rw [hwhole] at heq
    dsimp only at heq
    cases hreplaced : String.fromUTF8?
        ⟨(replaceInvalid ((asBytes s).take n).length ((asBytes s).take n)).toArray⟩ with
    | none =>
      rw [hreplaced] at heq
      rw [← heq] at h
      simp [asBytes] at h
    | some t =>
      rw [hreplaced] at heq
      obtain rfl : t = s := heq
      have hbytes := asBytes_of_fromUTF8? hreplaced
      have hprefix : (asBytes t).take n <+:
          replaceInvalid ((asBytes t).take n).length ((asBytes t).take n) := by
        rw [← hbytes]
        exact List.take_prefix n _
      have hle := length_replaceInvalid_le (Nat.le_refl _) hprefix
      rw [← hbytes, hlen] at hle
      omega

/-- One turn of the loop of `from_metadata`, whatever stands around the name. -/
theorem readNames_step (front tail : Bytes) (count : Nat) (dict : SymbolDictionary)
    (symbol : String) :
    readNames (front ++ (encode 2 (asBytes symbol).length ++ asBytes symbol) ++ tail) (count + 1)
      front.length dict =
    readNames (front ++ (encode 2 (asBytes symbol).length ++ asBytes symbol) ++ tail) count
      (front.length + 2 + (asBytes symbol).length % 65536)
      (dict.getOrInsert
        (fromUtf8Lossy ((asBytes symbol).take ((asBytes symbol).length % 65536)))).2 := by
  have hlen : slice (front ++ (encode 2 (asBytes symbol).length ++ asBytes symbol) ++ tail)
      front.length (front.length + 2) = some (encode 2 (asBytes symbol).length) := by
    rw [List.append_assoc, List.append_assoc, ← List.append_assoc front]
    exact slice_append front (encode 2 (asBytes symbol).length) _ _ _ rfl (by simp)
  have hdecode : decode (encode 2 (asBytes symbol).length) = (asBytes symbol).length % 65536 :=
    decode_encode 2 _
  have hle := Nat.mod_le (asBytes symbol).length 65536
  generalize hn : (asBytes symbol).length % 65536 = n at hdecode hle ⊢
  have hname : slice (front ++ (encode 2 (asBytes symbol).length ++ asBytes symbol) ++ tail)
      (front.length + 2) (front.length + 2 + n) = some ((asBytes symbol).take n) := by
    have hsplit : front ++ (encode 2 (asBytes symbol).length ++ asBytes symbol) ++ tail =
        (front ++ encode 2 (asBytes symbol).length) ++ (asBytes symbol).take n ++
          ((asBytes symbol).drop n ++ tail) := by
      nth_rewrite 2 [← List.take_append_drop n (asBytes symbol)]
      simp only [List.append_assoc]
    rw [hsplit]
    exact slice_append _ _ _ _ _ (by simp) (by rw [List.length_take_of_le hle])
  rw [readNames, hlen]
  dsimp only
  rw [hdecode, hname]

/-- A name of fewer than 65536 bytes is read back. -/
theorem readNames_short (front tail : Bytes) (count : Nat) (dict : SymbolDictionary)
    {symbol : String} (hshort : (asBytes symbol).length < 65536) :
    readNames (front ++ (encode 2 (asBytes symbol).length ++ asBytes symbol) ++ tail) (count + 1)
      front.length dict =
    readNames (front ++ (encode 2 (asBytes symbol).length ++ asBytes symbol) ++ tail) count
      (front ++ (encode 2 (asBytes symbol).length ++ asBytes symbol)).length
      (dict.getOrInsert symbol).2 := by
  rw [readNames_step, Nat.mod_eq_of_lt hshort, List.take_length, fromUtf8Lossy_asBytes,
    List.length_append, List.length_append, length_encode, Nat.add_assoc]

def nameBytes (symbol : String) : Bytes := encode 2 (asBytes symbol).length ++ asBytes symbol

theorem readNames_flatMap (front tail : Bytes) (count : Nat) (dict : SymbolDictionary)
    {symbols : List String} (hshort : ∀ s ∈ symbols, (asBytes s).length < 65536) :
    readNames (front ++ symbols.flatMap nameBytes ++ tail) (symbols.length + count) front.length
      dict =
    readNames (front ++ symbols.flatMap nameBytes ++ tail) count
      (front ++ symbols.flatMap nameBytes).length (dict.getOrInsertAll symbols).2 := by
  induction symbols generalizing front dict with
  | nil => simp [getOrInsertAll]
  | cons symbol symbols ih =>
    obtain ⟨hfirst, hrest⟩ := List.forall_mem_cons.mp hshort
    have hstep := readNames_short front (symbols.flatMap nameBytes ++ tail)
      (symbols.length + count) dict hfirst
    have hnext := ih (front ++ nameBytes symbol) (dict.getOrInsert symbol).2 hrest
    rw [nameBytes] at hnext
    simp only [List.flatMap_cons, nameBytes, List.length_cons, List.append_assoc,
      Nat.succ_add] at hstep hnext ⊢
    rw [hstep, hnext]
    rfl

/-- Distinct symbols that are not known yet are appended. -/
theorem idToSymbol_getOrInsertAll {d : SymbolDictionary} {symbols : List String}
    (h : (d.idToSymbol ++ symbols).Nodup) :
    (d.getOrInsertAll symbols).2.idToSymbol = d.idToSymbol ++ symbols := by
  induction symbols generalizing d with
  | nil => rw [List.append_nil]; rfl
  | cons symbol symbols ih =>
    have hnew : symbol ∉ d.idToSymbol := fun hmem =>
      (List.nodup_append.mp h).2.2 symbol hmem symbol List.mem_cons_self rfl
    have hstep : (d.getOrInsert symbol).2.idToSymbol = d.idToSymbol ++ [symbol] := by
      rw [idToSymbol_getOrInsert, if_neg hnew]
    rw [List.append_cons, ← hstep] at h
    rw [getOrInsertAll, ih h, hstep, ← List.append_cons]

theorem eq_of_idToSymbol {d e : SymbolDictionary} (h : d.idToSymbol = e.idToSymbol) : d = e := by
  obtain ⟨ids, names, hids, _⟩ := d
  obtain ⟨ids', names', hids', _⟩ := e
  obtain rfl : names = names' := h
  obtain rfl : ids = ids' := hids.trans hids'.symm
  rfl

/-- Reading adds at most one symbol for each name that is announced. -/
theorem grown_readNames (data : Bytes) (count offset : Nat) (dict : SymbolDictionary) :
    dict.idToSymbol <+: (readNames data count offset dict).idToSymbol ∧
      (readNames data count offset dict).len ≤ dict.len + count := by
  induction count generalizing offset dict with
  | zero => exact ⟨List.prefix_refl _, Nat.le_refl _⟩
  | succ count ih =>
    rw [readNames]
    split
    · exact ⟨List.prefix_refl _, by omega⟩
    split
    · exact ⟨List.prefix_refl _, by omega⟩
    rename_i name _
    obtain ⟨hgrown, hlen⟩ := ih _ (dict.getOrInsert (fromUtf8Lossy name)).2
    refine ⟨(dict.prefix_getOrInsert _).trans hgrown, hlen.trans ?_⟩
    rw [len, idToSymbol_getOrInsert, len]
    split_ifs
    · omega
    · rw [List.length_append, List.length_singleton]
      omega

/-- The symbols in front of the first name that is too long, and that name. -/
theorem exists_first_long {symbols : List String} (h : ¬ ∀ s ∈ symbols, (asBytes s).length < 65536) :
    ∃ before long behind, symbols = before ++ long :: behind ∧
      (∀ s ∈ before, (asBytes s).length < 65536) ∧ 65536 ≤ (asBytes long).length := by
  induction symbols with
  | nil => exact absurd (List.forall_mem_nil _) h
  | cons symbol symbols ih =>
    by_cases hshort : (asBytes symbol).length < 65536
    · have hrest : ¬ ∀ s ∈ symbols, (asBytes s).length < 65536 := fun hall =>
        h (List.forall_mem_cons.mpr ⟨hshort, hall⟩)
      obtain ⟨before, long, behind, rfl, hbefore, hlong⟩ := ih hrest
      exact ⟨symbol :: before, long, behind, rfl, List.forall_mem_cons.mpr ⟨hshort, hbefore⟩, hlong⟩
    · exact ⟨[], symbol, symbols, rfl, List.forall_mem_nil _, not_lt.mp hshort⟩

/-- A name that is too long is taken for another one. -/
theorem readNames_long (front : Bytes) (behind : List String) {before : List String} {long : String}
    (hbefore : ∀ s ∈ before, (asBytes s).length < 65536) (hlong : 65536 ≤ (asBytes long).length) :
    ∃ name offset, name ≠ long ∧
      readNames (front ++ (before ++ long :: behind).flatMap nameBytes)
        (before ++ long :: behind).length front.length new =
      readNames (front ++ (before ++ long :: behind).flatMap nameBytes) behind.length offset
        ((new.getOrInsertAll before).2.getOrInsert name).2 := by
  have hcut := readNames_step (front ++ before.flatMap nameBytes) (behind.flatMap nameBytes)
    behind.length (new.getOrInsertAll before).2 long
  have hall := readNames_flatMap front (nameBytes long ++ behind.flatMap nameBytes)
    (behind.length + 1) new hbefore
  have hmod := Nat.mod_lt (asBytes long).length (by decide : 0 < 65536)
  refine ⟨_, (front ++ before.flatMap nameBytes).length + 2 + (asBytes long).length % 65536,
    fromUtf8Lossy_take_ne (n := (asBytes long).length % 65536) (by omega), ?_⟩
  simp only [List.flatMap_append, List.flatMap_cons, List.length_append, List.length_cons,
    List.append_assoc, nameBytes] at hcut hall ⊢
  rw [hall, hcut]

/-- Both dictionaries give the same answers. -/
def Agrees (d e : SymbolDictionary) : Prop :=
  (∀ symbol, e.getId symbol = d.getId symbol) ∧ ∀ id, e.getSymbol id = d.getSymbol id

theorem agrees_iff_short {d : SymbolDictionary} (hlen : d.len < 65536) :
    d.Agrees (fromMetadata d.toMetadata) ↔ ∀ s ∈ d.idToSymbol, (asBytes s).length < 65536 := by
  have hcount : slice d.toMetadata 0 4 = some (encode 4 d.idToSymbol.length) := by
    have hslice := slice_append [] (encode 4 d.idToSymbol.length) (d.idToSymbol.flatMap nameBytes)
      0 4 rfl (by simp)
    exact hslice
  have hdecode : decode (encode 4 d.idToSymbol.length) = d.idToSymbol.length :=
    decode_encode_of_lt (hlen.trans (by decide))
  have hread : fromMetadata d.toMetadata =
      readNames (encode 4 d.idToSymbol.length ++ d.idToSymbol.flatMap nameBytes ++ [])
        d.idToSymbol.length (encode 4 d.idToSymbol.length).length new := by
    rw [fromMetadata, hcount, Option.map_some, hdecode, List.append_nil, length_encode]
    rfl
  constructor
  · intro hagrees
    by_contra hnot
    obtain ⟨before, long, behind, hsymbols, hbefore, hlong⟩ := exists_first_long hnot
    have hnodup := d.nodup
    rw [hsymbols] at hnodup
    have hfirst := (List.nodup_append.mp hnodup).1
    obtain ⟨name, offset, hname, hlost⟩ := readNames_long
      (encode 4 d.idToSymbol.length) behind hbefore hlong
    rw [← hsymbols, ← List.append_nil (_ ++ d.idToSymbol.flatMap nameBytes), ← hread] at hlost
    have hbefore : (new.getOrInsertAll before).2.idToSymbol = before :=
      idToSymbol_getOrInsertAll hfirst
    obtain ⟨hgrown, hle⟩ := grown_readNames (encode 4 d.idToSymbol.length ++
      d.idToSymbol.flatMap nameBytes ++ []) behind.length offset
      ((new.getOrInsertAll before).2.getOrInsert name).2
    rw [← hlost] at hgrown hle
    simp only [len, idToSymbol_getOrInsert, hbefore] at hle
    rw [idToSymbol_getOrInsert, hbefore] at hgrown
    have htotal : d.idToSymbol.length = before.length + (behind.length + 1) := by
      rw [hsymbols, List.length_append, List.length_cons]
    have hid (n : Nat) (hn : n < d.idToSymbol.length) : (UInt16.ofNat n).toNat = n :=
      UInt16.toNat_ofNat_of_lt' (hn.trans hlen)
    split_ifs at hle hgrown with hmem
    · -- the name is known, and one symbol is missing in the end
      have hlast := hagrees.2 (UInt16.ofNat (before.length + behind.length))
      rw [getSymbol, getSymbol, hid _ (by omega), List.getElem?_eq_none hle,
        List.getElem?_eq_getElem (by omega)] at hlast
      cases hlast
    · have hplace := hagrees.2 (UInt16.ofNat before.length)
      rw [getSymbol, getSymbol, hid _ (by omega), hsymbols, List.getElem?_append_right (Nat.le_refl _),
        Nat.sub_self, List.getElem?_cons_zero] at hplace
      obtain ⟨more, hmore⟩ := hgrown
      rw [← hmore, List.append_assoc, List.getElem?_append_right (Nat.le_refl _),
        Nat.sub_self] at hplace
      exact hname (Option.some.inj hplace)
  · intro hshort
    have hnodup : (new.idToSymbol ++ d.idToSymbol).Nodup := d.nodup
    have hall := readNames_flatMap (encode 4 d.idToSymbol.length) [] 0 new hshort
    rw [Nat.add_zero, ← hread, readNames] at hall
    have hsame : fromMetadata d.toMetadata = d := by
      rw [hall]
      exact eq_of_idToSymbol (idToSymbol_getOrInsertAll hnodup)
    rw [hsame]
    exact ⟨fun _ => rfl, fun _ => rfl⟩

/-- Metadata keeps a dictionary exactly when each of its names has fewer than 65536 bytes. -/
theorem metadata_roundtrip_iff (symbols : List String) (h : symbols.toFinset.card < 65536) :
    (new.getOrInsertAll symbols).2.Agrees
        (fromMetadata (new.getOrInsertAll symbols).2.toMetadata) ↔
      ∀ s ∈ symbols, (asBytes s).length < 65536 := by
  rw [← len_getOrInsertAll] at h
  have hmem (s : String) : s ∈ (new.getOrInsertAll symbols).2.idToSymbol ↔ s ∈ symbols := by
    rw [mem_getOrInsertAll]
    exact or_iff_right List.not_mem_nil
  rw [agrees_iff_short h]
  simp only [hmem]

theorem metadata_roundtrip_two_symbols :
    (new.getOrInsertAll ["AAPL", "GOOG"]).2.Agrees
        (fromMetadata (new.getOrInsertAll ["AAPL", "GOOG"]).2.toMetadata) ↔
      ∀ s ∈ ["AAPL", "GOOG"], (asBytes s).length < 65536 :=
  metadata_roundtrip_iff ["AAPL", "GOOG"] (by decide)

theorem length_asBytes_replicate (n : Nat) :
    (asBytes (String.ofList (List.replicate n 'A'))).length = n := by
  have hbytes : asBytes (String.ofList (List.replicate n 'A')) =
      (List.replicate n 'A').flatMap String.utf8EncodeChar := by
    simp [asBytes, List.utf8Encode]
  have hsize : Char.utf8Size 'A' = 1 := by decide
  rw [hbytes, List.length_flatMap]
  simp [hsize]

/-- The symbol of 65536 letters is read back as the empty one. -/
theorem long_symbol_is_lost :
    ¬ (new.getOrInsertAll [String.ofList (List.replicate 65536 'A')]).2.Agrees
      (fromMetadata (new.getOrInsertAll [String.ofList (List.replicate 65536 'A')]).2.toMetadata) := by
  have hlen := length_asBytes_replicate 65536
  generalize String.ofList (List.replicate 65536 'A') = s at hlen ⊢
  have hone : (new.getOrInsertAll [s]).2.len < 65536 := by
    rw [len_getOrInsertAll]
    simp
  intro h
  have hmem : s ∈ (new.getOrInsertAll [s]).2.idToSymbol := by simp [mem_getOrInsertAll]
  have hshort := (agrees_iff_short hone).mp h s hmem
  omega

end SymbolDictionary

end Graphite
