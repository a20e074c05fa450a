import Mathlib.Data.Finset.Card
import Graphite.SymbolDictionary

/-! Runs of `get_or_insert` calls. The dictionary of a run holds the symbols of its calls
once each, at positions that never change; ids are positions cut to 16 bits. -/

namespace Graphite.SymbolDictionary

/-- Consecutive calls, with the ids they return. -/
def getOrInsertAll (d : SymbolDictionary) : List String → List SymbolId × SymbolDictionary
  | [] => ([], d)
  | symbol :: symbols =>
    let call := d.getOrInsert symbol
    let rest := getOrInsertAll call.2 symbols
    (call.1 :: rest.1, rest.2)

/-- Symbols and the ids returned for them determine each other, in the run and in both
tables of the dictionary after it. -/
structure Bijective (symbols : List String) (ids : List SymbolId) (d : SymbolDictionary) :
    Prop where
  distinct : ∀ e ∈ symbols.zip ids, ∀ f ∈ symbols.zip ids, e.1 ≠ f.1 → e.2 ≠ f.2
  again : ∀ e ∈ symbols.zip ids, ∀ f ∈ symbols.zip ids, e.1 = f.1 → e.2 = f.2
  next : ∀ e ∈ symbols.zip ids, (d.getOrInsert e.1).1 = e.2
  symbol_of_id : ∀ symbol id, d.getId symbol = some id → d.getSymbol id = some symbol
  id_of_symbol : ∀ symbol id, d.getSymbol id = some symbol → d.getId symbol = some id

theorem grown_getOrInsertAll (d : SymbolDictionary) (symbols : List String) :
    d.idToSymbol <+: (d.getOrInsertAll symbols).2.idToSymbol := by
  induction symbols generalizing d with
  | nil => exact List.prefix_refl _
  | cons symbol symbols ih =>
    exact (d.prefix_getOrInsert symbol).trans (ih (d.getOrInsert symbol).2)

theorem mem_getOrInsertAll (d : SymbolDictionary) (symbols : List String) (s : String) :
    s ∈ (d.getOrInsertAll symbols).2.idToSymbol ↔ s ∈ d.idToSymbol ∨ s ∈ symbols := by
  induction symbols generalizing d with
  | nil => simp [getOrInsertAll]
  | cons symbol symbols ih =>
    have hstep : s ∈ (d.getOrInsert symbol).2.idToSymbol ↔ s ∈ d.idToSymbol ∨ s = symbol := by
      rw [idToSymbol_getOrInsert]
      split_ifs with hmem
      · constructor
        · exact Or.inl
        · rintro (h | rfl)
          · exact h
          · exact hmem
      · simp
    rw [getOrInsertAll, ih, hstep, List.mem_cons, or_assoc]

/-- The dictionary of a run has one entry for each symbol of its calls. -/
theorem len_getOrInsertAll (symbols : List String) :
    (new.getOrInsertAll symbols).2.len = symbols.toFinset.card := by
  have hset : (new.getOrInsertAll symbols).2.idToSymbol.toFinset = symbols.toFinset := by
    ext s
    rw [List.mem_toFinset, List.mem_toFinset, mem_getOrInsertAll]
    simp [new]
  rw [len, ← List.toFinset_card_of_nodup (new.getOrInsertAll symbols).2.nodup, hset]

/-- The id returned for a symbol is the one the dictionary has for it from then on. -/
theorem getId_of_returned (d : SymbolDictionary) (symbols : List String) :
    ∀ e ∈ symbols.zip (d.getOrInsertAll symbols).1,
      (d.getOrInsertAll symbols).2.getId e.1 = some e.2 := by
  induction symbols generalizing d with
  | nil => simp
  | cons symbol symbols ih =>
    rw [getOrInsertAll, List.zip_cons_cons, List.forall_mem_cons]
    refine ⟨?_, ih _⟩
    exact getId_of_grown (grown_getOrInsertAll _ symbols) (d.getId_getOrInsert symbol)

/-- The table of symbols is only ever read where its position fits 16 bits. -/
theorem getId_of_getSymbol {d : SymbolDictionary} {symbol : String} {id : SymbolId}
    (h : d.getSymbol id = some symbol) : d.getId symbol = some id :=
  (d.getId_eq_some_iff symbol id).mpr ⟨id.toNat, h, UInt16.ofNat_toNat.symm⟩

/-- One symbol too many has the id of the first. -/
theorem len_le_of_getSymbol {d : SymbolDictionary}
    (h : ∀ symbol id, d.getId symbol = some id → d.getSymbol id = some symbol) :
    d.len ≤ 65536 := by
  by_contra hlen
  have hlt : 65536 < d.idToSymbol.length := Nat.lt_of_not_le hlen
  have hid : d.getId d.idToSymbol[65536] = some (UInt16.ofNat 65536) :=
    (d.getId_eq_some_iff _ _).mpr ⟨65536, List.getElem?_eq_getElem hlt, rfl⟩
  have hfirst : d.idToSymbol[0]? = some d.idToSymbol[65536] := h _ _ hid
  rw [List.getElem?_eq_getElem (by omega), Option.some_inj] at hfirst
  have hzero : 0 = 65536 := (List.Nodup.getElem_inj_iff d.nodup).mp hfirst
  omega

/-- Calls on any strings keep symbols and ids in step exactly when at most 65536 of the
strings differ. -/
theorem dictionary_bijective_iff (symbols : List String) :
    Bijective symbols (new.getOrInsertAll symbols).1 (new.getOrInsertAll symbols).2 ↔
      symbols.toFinset.card ≤ 65536 := by
  rw [← len_getOrInsertAll]
  constructor
  · intro h
    exact len_le_of_getSymbol h.symbol_of_id
  · intro hlen
    have hret := getId_of_returned new symbols
    constructor
    · intro e he f hf hne heq
      have hsymbol := (getId_iff_getSymbol hlen e.1 e.2).mp (hret e he)
      rw [heq, (getId_iff_getSymbol hlen f.1 f.2).mp (hret f hf)] at hsymbol
      exact hne (Option.some_inj.mp hsymbol).symm
    · intro e he f hf heq
      have hid := hret e he
      rw [heq, hret f hf] at hid
      exact (Option.some_inj.mp hid).symm
    · intro e he
      rw [getOrInsert_of_getId (hret e he)]
    · exact fun symbol id => (getId_iff_getSymbol hlen symbol id).mp
    · exact fun symbol id => getId_of_getSymbol

/-- The strings of zero to 65536 letters. -/
def letterRuns : List String := (List.range 65537).map fun n => String.ofList (List.replicate n 'A')

theorem card_letterRuns : letterRuns.toFinset.card = 65537 := by
  have hnodup : letterRuns.Nodup := by
    refine List.nodup_range.map ?_
    intro m n h
    simpa using congrArg String.length h
  rw [List.toFinset_card_of_nodup hnodup, letterRuns, List.length_map, List.length_range]

/-- The last of 65537 symbols shares an id with the first. -/
theorem too_many_symbols_share_ids :
    ¬ Bijective letterRuns (new.getOrInsertAll letterRuns).1 (new.getOrInsertAll letterRuns).2 := by
  intro h
  have hlen := len_le_of_getSymbol h.symbol_of_id
  rw [len_getOrInsertAll, card_letterRuns] at hlen
  omega

end Graphite.SymbolDictionary
