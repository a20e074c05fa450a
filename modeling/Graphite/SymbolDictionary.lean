import Mathlib.Data.List.Nodup
import Graphite.Types

/-! The symbol dictionary: symbol strings and their `u16` ids, with the byte forms of
the symbol column and of the dictionary itself. -/

namespace Graphite
open BigEndian

/-- Ids are the positions of the symbols in order of insertion, cut to 16 bits. -/
structure SymbolDictionary where
  symbolToId : List (String × SymbolId)
  idToSymbol : List String
  symbolToId_eq : symbolToId = idToSymbol.zipIdx.map fun e => (e.1, UInt16.ofNat e.2)
  nodup : idToSymbol.Nodup
  deriving DecidableEq

namespace SymbolDictionary

def new : SymbolDictionary := ⟨[], [], rfl, List.nodup_nil⟩

def getId (d : SymbolDictionary) (symbol : String) : Option SymbolId :=
  d.symbolToId.lookup symbol

def getSymbol (d : SymbolDictionary) (id : SymbolId) : Option String := d.idToSymbol[id.toNat]?

theorem map_fst_symbolToId (d : SymbolDictionary) : d.symbolToId.map Prod.fst = d.idToSymbol := by
  rw [d.symbolToId_eq, List.map_map]
  exact List.zipIdx_map_fst 0 d.idToSymbol

theorem getId_eq_none_iff (d : SymbolDictionary) (symbol : String) :
    d.getId symbol = none ↔ symbol ∉ d.idToSymbol := by
  rw [getId, List.lookup_eq_none_iff, ← d.map_fst_symbolToId]
  simp only [List.mem_map, not_exists, not_and, bne_iff_ne, ne_eq]
  constructor
  · intro h e he hfst
    exact h e he hfst.symm
  · intro h e he hfst
    exact h e he hfst.symm

/-- A symbol not seen before gets the next position as its id. -/
def push (d : SymbolDictionary) (symbol : String) (h : d.getId symbol = none) :
    SymbolDictionary where
  symbolToId := d.symbolToId ++ [(symbol, UInt16.ofNat d.idToSymbol.length)]
  idToSymbol := d.idToSymbol ++ [symbol]
  symbolToId_eq := by
    rw [List.zipIdx_append, List.map_append, ← d.symbolToId_eq, Nat.zero_add]
    rfl
  nodup := by
    rw [List.nodup_append_comm, List.singleton_append, List.nodup_cons]
    exact ⟨(d.getId_eq_none_iff symbol).mp h, d.nodup⟩

def getOrInsert (d : SymbolDictionary) (symbol : String) : SymbolId × SymbolDictionary :=
  match h : d.getId symbol with
  | some id => (id, d)
  | none => (UInt16.ofNat d.idToSymbol.length, d.push symbol h)

def encodeIds (ids : List SymbolId) : Bytes :=
  encode 4 ids.length ++ ids.flatMap fun id => encode 2 id.toNat

def decodeIds (data : Bytes) : List SymbolId :=
  (List.range (((slice data 0 4).map decode).getD 0)).filterMap fun i =>
    (slice data (4 + i * 2) (4 + i * 2 + 2)).map fun bytes => UInt16.ofNat (decode bytes)

def toMetadata (d : SymbolDictionary) : Bytes :=
  encode 4 d.idToSymbol.length ++ d.idToSymbol.flatMap fun symbol =>
    encode 2 (asBytes symbol).length ++ asBytes symbol

/-- The ranges of the bytes that may follow a first byte of a UTF-8 character. -/
def utf8Followers (b : UInt8) : Option (List (UInt8 × UInt8)) :=
  let tail : UInt8 × UInt8 := (0x80, 0xBF)
  if b ≤ 0x7F then some []
  else if 0xC2 ≤ b ∧ b ≤ 0xDF then some [tail]
  else if b = 0xE0 then some [(0xA0, 0xBF), tail]
  else if b = 0xED then some [(0x80, 0x9F), tail]
  else if 0xE1 ≤ b ∧ b ≤ 0xEF then some [tail, tail]
  else if b = 0xF0 then some [(0x90, 0xBF), tail, tail]
  else if 0xF1 ≤ b ∧ b ≤ 0xF3 then some [tail, tail, tail]
  else if b = 0xF4 then some [(0x80, 0x8F), tail, tail]
  else none

/-- A maximal ill-formed sequence becomes one U+FFFD; `fuel` is the number of bytes. -/
def replaceInvalid : (fuel : Nat) → Bytes → Bytes
  | 0, _ => []
  | _, [] => []
  | fuel + 1, b :: bs =>
    match utf8Followers b with
    | none => [0xEF, 0xBF, 0xBD] ++ replaceInvalid fuel bs
    | some ranges =>
      let good := ((ranges.zip bs).takeWhile fun e => e.1.1 ≤ e.2 && e.2 ≤ e.1.2).length
      (if good = ranges.length then b :: bs.take good else [0xEF, 0xBF, 0xBD]) ++
        replaceInvalid fuel (bs.drop good)

/-- `String::from_utf8_lossy`. -/
def fromUtf8Lossy (bs : Bytes) : String :=
  match String.fromUTF8? ⟨bs.toArray⟩ with
  | some s => s
  | none => (String.fromUTF8? ⟨(replaceInvalid bs.length bs).toArray⟩).getD ""

/-- The loop of `from_metadata`; a length or a name that is cut short ends it. -/
def readNames (data : Bytes) : (count offset : Nat) → SymbolDictionary → SymbolDictionary
  | 0, _, dict => dict
  | count + 1, offset, dict =>
    match slice data offset (offset + 2) with
    | none => dict
    | some lenBytes =>
      match slice data (offset + 2) (offset + 2 + decode lenBytes) with
      | none => dict
      | some name => readNames data count (offset + 2 + decode lenBytes)
          (dict.getOrInsert (fromUtf8Lossy name)).2

def fromMetadata (data : Bytes) : SymbolDictionary :=
  readNames data (((slice data 0 4).map decode).getD 0) 4 new

def len (d : SymbolDictionary) : Nat := d.idToSymbol.length

theorem lookup_eq_some_iff_mem {β : Type} {l : List (String × β)} (h : (l.map Prod.fst).Nodup)
    (k : String) (b : β) : l.lookup k = some b ↔ (k, b) ∈ l := by
  induction l with
  | nil => simp
  | cons e l ih =>
    obtain ⟨k', b'⟩ := e
    rw [List.map_cons, List.nodup_cons] at h
    by_cases hk : k = k'
    · have hnot : (k', b) ∉ l := fun hmem =>
        h.1 (List.mem_map.mpr ⟨(k', b), hmem, rfl⟩)
      simp [hk, hnot, eq_comm]
    · rw [List.lookup_cons, beq_eq_false_iff_ne.mpr hk]
      simp [hk, ih h.2]

/-- The id of a symbol is its position, cut to 16 bits. -/
theorem getId_eq_some_iff (d : SymbolDictionary) (symbol : String) (id : SymbolId) :
    d.getId symbol = some id ↔
      ∃ n, d.idToSymbol[n]? = some symbol ∧ id = UInt16.ofNat n := by
  have hnodup : (d.symbolToId.map Prod.fst).Nodup := by
    rw [d.map_fst_symbolToId]
    exact d.nodup
  rw [getId, lookup_eq_some_iff_mem hnodup, d.symbolToId_eq, List.mem_map]
  constructor
  · rintro ⟨⟨s, n⟩, hmem, heq⟩
    cases heq
    exact ⟨n, List.mem_zipIdx_iff_getElem?.mp hmem, rfl⟩
  · rintro ⟨n, hn, rfl⟩
    exact ⟨(symbol, n), List.mem_zipIdx_iff_getElem?.mpr hn, rfl⟩

/-- Up to 65536 symbols, ids and symbols determine each other. -/
theorem getId_iff_getSymbol {d : SymbolDictionary} (hlen : d.len ≤ 65536) (symbol : String)
    (id : SymbolId) : d.getId symbol = some id ↔ d.getSymbol id = some symbol := by
  rw [getId_eq_some_iff, getSymbol]
  constructor
  · rintro ⟨n, hn, rfl⟩
    obtain ⟨hlt, -⟩ := List.getElem?_eq_some_iff.mp hn
    rwa [UInt16.toNat_ofNat_of_lt' (lt_of_lt_of_le hlt hlen)]
  · intro h
    exact ⟨id.toNat, h, UInt16.ofNat_toNat.symm⟩

theorem getOrInsert_of_getId {d : SymbolDictionary} {symbol : String} {id : SymbolId}
    (h : d.getId symbol = some id) : d.getOrInsert symbol = (id, d) := by
  unfold getOrInsert
  split <;> simp_all

theorem getOrInsert_of_new {d : SymbolDictionary} {symbol : String}
    (h : d.getId symbol = none) :
    d.getOrInsert symbol = (UInt16.ofNat d.idToSymbol.length, d.push symbol h) := by
  unfold getOrInsert
  split
  · rename_i id hid
    rw [h] at hid
    cases hid
  · rfl

/-- Inserting keeps the symbols there are in their places. -/
theorem idToSymbol_getOrInsert (d : SymbolDictionary) (symbol : String) :
    (d.getOrInsert symbol).2.idToSymbol =
      if symbol ∈ d.idToSymbol then d.idToSymbol else d.idToSymbol ++ [symbol] := by
  cases h : d.getId symbol with
  | none =>
    rw [getOrInsert_of_new h, if_neg ((d.getId_eq_none_iff symbol).mp h)]
    rfl
  | some id =>
    have hmem : symbol ∈ d.idToSymbol := by
      by_contra hnot
      rw [(d.getId_eq_none_iff symbol).mpr hnot] at h
      cases h
    rw [getOrInsert_of_getId h, if_pos hmem]

theorem prefix_getOrInsert (d : SymbolDictionary) (symbol : String) :
    d.idToSymbol <+: (d.getOrInsert symbol).2.idToSymbol := by
  rw [idToSymbol_getOrInsert]
  split_ifs
  · exact List.prefix_rfl
  · exact List.prefix_append _ _

/-- The id handed out is the one the dictionary then has for the symbol. -/
theorem getId_getOrInsert (d : SymbolDictionary) (symbol : String) :
    (d.getOrInsert symbol).2.getId symbol = some (d.getOrInsert symbol).1 := by
  cases h : d.getId symbol with
  | some id =>
    rw [getOrInsert_of_getId h]
    exact h
  | none =>
    rw [getOrInsert_of_new h, getId_eq_some_iff]
    exact ⟨d.idToSymbol.length, List.getElem?_concat_length, rfl⟩

/-- Known symbols keep their ids. -/
theorem getId_of_grown {d e : SymbolDictionary} (h : d.idToSymbol <+: e.idToSymbol)
    {symbol : String} {id : SymbolId} (hid : d.getId symbol = some id) :
    e.getId symbol = some id := by
  rw [getId_eq_some_iff] at hid ⊢
  obtain ⟨n, hn, rfl⟩ := hid
  obtain ⟨more, hmore⟩ := h
  obtain ⟨hlt, -⟩ := List.getElem?_eq_some_iff.mp hn
  exact ⟨n, by rw [← hmore, List.getElem?_append_left hlt, hn], rfl⟩

theorem getSymbol_of_grown {d e : SymbolDictionary} (h : d.idToSymbol <+: e.idToSymbol)
    {id : SymbolId} {symbol : String} (hid : d.getSymbol id = some symbol) :
    e.getSymbol id = some symbol := by
  obtain ⟨more, hmore⟩ := h
  obtain ⟨hlt, -⟩ := List.getElem?_eq_some_iff.mp hid
  rw [getSymbol, ← hmore, List.getElem?_append_left hlt]
  exact hid

/-- The id handed out is the place of some symbol. -/
theorem known_getOrInsert (d : SymbolDictionary) (symbol : String) :
    ∃ name, (d.getOrInsert symbol).2.getSymbol (d.getOrInsert symbol).1 = some name := by
  obtain ⟨n, hn, hid⟩ := (getId_eq_some_iff _ _ _).mp (d.getId_getOrInsert symbol)
  obtain ⟨hlt, -⟩ := List.getElem?_eq_some_iff.mp hn
  have hle : (d.getOrInsert symbol).1.toNat ≤ n := by
    rw [hid, UInt16.toNat_ofNat']
    exact Nat.mod_le n _
  exact ⟨_, List.getElem?_eq_getElem (lt_of_le_of_lt hle hlt)⟩

/-- A dictionary that has grown hands out the same id again. -/
theorem getOrInsert_of_grown {d e : SymbolDictionary} {symbol : String}
    (h : (d.getOrInsert symbol).2.idToSymbol <+: e.idToSymbol) :
    e.getOrInsert symbol = ((d.getOrInsert symbol).1, e) :=
  getOrInsert_of_getId (getId_of_grown h (d.getId_getOrInsert symbol))

end SymbolDictionary

end Graphite
