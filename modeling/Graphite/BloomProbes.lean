import Graphite.ColumnDamage
import Graphite.BloomSizing
import Graphite.SsTable

/-! The Bloom filter's probes with checked arithmetic. The third probe multiplies past
`u64`, and fewer than 52 items lead to a third probe. -/

namespace Graphite
open BigEndian

namespace BloomFilter

def insertLoopChecked (hash : UInt64) : List Nat → BloomFilter → Option BloomFilter
  | [], f => some f
  | i :: is, f => do
    let bitIdx ← hashToIndexChecked hash i f.numBits
    insertLoopChecked hash is (f.setBit bitIdx)

def insertChecked (f : BloomFilter) (key : Bytes) : Option BloomFilter :=
  insertLoopChecked (fnv1a key) (List.range f.numHashes) f

/-- Every probe of the key has its place in the bit array. -/
def ProbesFit (f : BloomFilter) (key : Bytes) : Prop :=
  ∀ i < f.numHashes, ∃ idx : Fin f.numBits, hashToIndexChecked (fnv1a key) i f.numBits = some idx

/-- With one or two probes the product stays in `u64`. -/
theorem insertLoopChecked_eq (hash : UInt64) {is : List Nat} (his : ∀ i ∈ is, i < 2)
    (f : BloomFilter) : insertLoopChecked hash is f = insertLoop hash is f := by
  induction is generalizing f with
  | nil => rfl
  | cons i is ih =>
    obtain ⟨hi, his⟩ := List.forall_mem_cons.mp his
    rw [insertLoopChecked, insertLoop, hashToIndexChecked_of_lt hi]
    simp only [ih his]

theorem insertLoopChecked_overflow (hash : UInt64) {is : List Nat} (h : ∃ i ∈ is, 2 ≤ i)
    (f : BloomFilter) : insertLoopChecked hash is f = none := by
  induction is generalizing f with
  | nil => simp at h
  | cons i is ih =>
    rw [insertLoopChecked]
    by_cases hi : 2 ≤ i
    · rw [hashToIndexChecked_of_ge hi]
      rfl
    · obtain ⟨j, hj, hj2⟩ := h
      have hrest : ∃ j ∈ is, 2 ≤ j := by
        rcases List.mem_cons.mp hj with rfl | hj
        · exact absurd hj2 hi
        · exact ⟨j, hj, hj2⟩
      simp only [ih hrest, Option.bind_eq_bind, Option.bind_fun_none]

theorem insertChecked_eq {f : BloomFilter} (h : f.numHashes ≤ 2) (key : Bytes) :
    f.insertChecked key = f.insert key :=
  insertLoopChecked_eq _ (fun _ hi => (List.mem_range.mp hi).trans_le h) f

theorem insertChecked_eq_none {f : BloomFilter} (h : 2 < f.numHashes) (key : Bytes) :
    f.insertChecked key = none :=
  insertLoopChecked_overflow _ ⟨2, List.mem_range.mpr h, le_refl 2⟩ f

theorem probesFit_iff {f : BloomFilter} (hbits : 0 < f.numBits) (key : Bytes) :
    f.ProbesFit key ↔ f.numHashes ≤ 2 := by
  constructor
  · intro h
    by_contra hmany
    obtain ⟨idx, hidx⟩ := h 2 (not_le.mp hmany)
    rw [hashToIndexChecked_of_ge (le_refl 2)] at hidx
    cases hidx
  · intro h i hi
    exact ⟨_, (hashToIndexChecked_of_lt (hi.trans_le h) _ _).trans (dif_pos hbits)⟩

end BloomFilter

namespace SsTable

/-- `insertTicks` with checked arithmetic. -/
def insertTicksChecked (dict : SymbolDictionary) : List Tick → BloomFilter → Option BloomFilter
  | [], bloom => some bloom
  | tick :: ticks, bloom => do
    let bloom ← bloom.insertChecked tick.key.encode
    let bloom ← bloom.insertChecked (asBytes (symbolName dict tick.symbolId))
    insertTicksChecked dict ticks bloom

def buildBloomChecked (p : Platform) (ticks : List Tick) (dict : SymbolDictionary) :
    Option BloomFilter :=
  insertTicksChecked dict ticks (BloomFilter.new p (max ticks.length 1))

theorem insertTicksChecked_isSome (dict : SymbolDictionary) (ticks : List Tick) {f : BloomFilter}
    (hbits : 0 < f.numBits) (hhashes : f.numHashes ≤ 2) :
    (insertTicksChecked dict ticks f).isSome := by
  induction ticks generalizing f with
  | nil => rfl
  | cons tick ticks ih =>
    obtain ⟨g, hg⟩ := BloomFilter.insert_isSome hbits tick.key.encode
    obtain ⟨hgbits, hghashes, -, -⟩ := BloomFilter.insertLoop_spec hg
    obtain ⟨k, hk⟩ := BloomFilter.insert_isSome (hbits.trans_eq hgbits.symm)
      (asBytes (symbolName dict tick.symbolId))
    obtain ⟨hkbits, hkhashes, -, -⟩ := BloomFilter.insertLoop_spec hk
    rw [insertTicksChecked, BloomFilter.insertChecked_eq hhashes, hg, Option.bind_eq_bind,
      Option.bind_some, BloomFilter.insertChecked_eq (by omega), hk, Option.bind_some]
    exact ih (by omega) (by omega)

/-- The filter of a table is built exactly when there is nothing to insert or no third probe. -/
theorem buildBloomChecked_isSome_iff (p : Platform) (ticks : List Tick) (dict : SymbolDictionary) :
    (buildBloomChecked p ticks dict).isSome ↔
      ticks = [] ∨ (BloomFilter.new p (max ticks.length 1)).numHashes ≤ 2 := by
  rw [buildBloomChecked]
  by_cases hhashes : (BloomFilter.new p (max ticks.length 1)).numHashes ≤ 2
  · exact iff_of_true (insertTicksChecked_isSome dict ticks (BloomFilter.numBits_new_pos p _) hhashes)
      (Or.inr hhashes)
  · cases ticks with
    | nil => simp [insertTicksChecked]
    | cons tick ticks =>
      rw [insertTicksChecked, BloomFilter.insertChecked_eq_none (not_le.mp hhashes)]
      simpa using hhashes

end SsTable

namespace BloomFilter

/-- On a filter for `n` items every probe of every key is evaluated, every key is inserted and
every question answered exactly from 52 items on; and so a table is written exactly when it
has no ticks or at least 52. -/
theorem probes_fit_iff (p : Platform) :
    (∀ n, 1 ≤ n → ((∀ key, (new p.exact n).ProbesFit key ∧
      ((new p.exact n).insertChecked key).isSome ∧
      ((new p.exact n).containsChecked key).isSome) ↔ 52 ≤ n)) ∧
    ∀ ticks dict, (SsTable.buildBloomChecked p.exact ticks dict).isSome ↔
      ticks = [] ∨ 52 ≤ ticks.length := by
  refine ⟨fun n hn => ?_, fun ticks dict => ?_⟩
  · have hbits := numBits_new_pos p.exact n
    rw [← numHashes_exact_le_two_iff p hn]
    constructor
    · intro h
      exact (probesFit_iff hbits []).mp (h []).1
    · intro h key
      refine ⟨(probesFit_iff hbits key).mpr h, ?_, ?_⟩
      · obtain ⟨g, hg⟩ := insert_isSome hbits key
        rw [insertChecked_eq h, hg, Option.isSome_some]
      · exact (containsChecked_isSome_iff _ key).mpr (Or.inr ⟨hbits, Or.inl h⟩)
  · rw [SsTable.buildBloomChecked_isSome_iff, numHashes_exact_le_two_iff p (by omega),
      ← List.length_eq_zero_iff]
    omega

/-- A filter for 40 items and any key. -/
theorem forty_items_overflow : ¬ ∀ (p : Platform) (n : Nat), 1 ≤ n → ∀ key,
    (new p.exact n).ProbesFit key ∧ ((new p.exact n).insertChecked key).isSome ∧
      ((new p.exact n).containsChecked key).isSome := by
  intro h
  obtain ⟨hfit, -, -⟩ := h .simple 40 (by decide) []
  have htwo := (probesFit_iff (numBits_new_pos _ 40) []).mp hfit
  exact absurd ((numHashes_exact_le_two_iff .simple (by decide)).mp htwo) (by decide)

end BloomFilter

end Graphite
