import Mathlib.Data.List.Basic
import Mathlib.Data.Nat.Bitwise
import Graphite.Platform

/-! Bloom filters over FNV-1a, kept per table for predicate pushdown.
The probe arithmetic wraps; taking a position modulo zero bits is a panic. -/

namespace Graphite
open BigEndian

/-- The bit array has room for exactly `numBits` bits. -/
structure BloomFilter where
  bits : List UInt64
  numBits : Nat
  numHashes : Nat
  length_bits : bits.length = (numBits + 63) / 64
  deriving DecidableEq

namespace BloomFilter

def FNV_OFFSET : UInt64 := 0xcbf29ce484222325

def FNV_PRIME : UInt64 := 0x100000001b3

def fnv1a (data : Bytes) : UInt64 :=
  data.foldl (fun hash byte => (hash ^^^ byte.toUInt64) * FNV_PRIME) FNV_OFFSET

def optimalNumBits (p : Platform) (numItems : Nat) : Nat := max (p.bloomBits numItems) 64

def optimalNumHashes (p : Platform) (numBits numItems : Nat) : Nat :=
  min (max (p.bloomHashes numBits numItems) 1) 16

/-- Create bloom filter sized for `numItems`. -/
def new (p : Platform) (numItems : Nat) : BloomFilter where
  bits := List.replicate ((optimalNumBits p numItems + 63) / 64) 0
  numBits := optimalNumBits p numItems
  numHashes := optimalNumHashes p (optimalNumBits p numItems) numItems
  length_bits := List.length_replicate

def hashToIndex (hash : UInt64) (i numBits : Nat) : Option (Fin numBits) :=
  if h : 0 < numBits then
    some ⟨(hash + UInt64.ofNat i * 0x9e3779b97f4a7c15).toNat % numBits, Nat.mod_lt _ h⟩
  else none

theorem word_lt (f : BloomFilter) (idx : Fin f.numBits) : idx.val / 64 < f.bits.length := by
  have hidx := idx.isLt
  rw [f.length_bits]
  omega

def setBit (f : BloomFilter) (idx : Fin f.numBits) : BloomFilter where
  bits := f.bits.modify (idx / 64) (· ||| (1 <<< UInt64.ofNat (idx % 64)))
  numBits := f.numBits
  numHashes := f.numHashes
  length_bits := by rw [List.length_modify, f.length_bits]

def getBit (f : BloomFilter) (idx : Fin f.numBits) : Bool :=
  f.bits.get ⟨idx / 64, f.word_lt idx⟩ &&& (1 <<< UInt64.ofNat (idx % 64)) != 0

def insertLoop (hash : UInt64) : List Nat → BloomFilter → Option BloomFilter
  | [], f => some f
  | i :: is, f => do
    let bitIdx ← hashToIndex hash i f.numBits
    insertLoop hash is (f.setBit bitIdx)

def insert (f : BloomFilter) (key : Bytes) : Option BloomFilter :=
  insertLoop (fnv1a key) (List.range f.numHashes) f

def containsLoop (f : BloomFilter) (hash : UInt64) : List Nat → Option Bool
  | [] => some true
  | i :: is => do
    let bitIdx ← hashToIndex hash i f.numBits
    if f.getBit bitIdx then containsLoop f hash is else some false

def contains (f : BloomFilter) (key : Bytes) : Option Bool :=
  containsLoop f (fnv1a key) (List.range f.numHashes)

def toBytes (f : BloomFilter) : Bytes :=
  encode 4 f.numBits ++ encode 4 f.numHashes ++ f.bits.flatMap fun word => encode 8 word.toNat

/-- Words the data is too short for stay zero. -/
def fromBytes (data : Bytes) (numBits numHashes : Nat) : BloomFilter where
  bits := (List.range ((numBits + 63) / 64)).map fun i =>
    UInt64.ofNat (((slice data (i * 8) (i * 8 + 8)).map decode).getD 0)
  numBits := numBits
  numHashes := numHashes
  length_bits := by rw [List.length_map, List.length_range]

def fromEncoded (data : Bytes) : Option BloomFilter :=
  if data.length < 12 then none
  else some (fromBytes (data.drop 8) (decode (data.take 4)) (decode ((data.drop 4).take 4)))

/-- Whether bit `n` of the bit array is set. -/
def testBit (f : BloomFilter) (n : Nat) : Bool := (f.bits.getD (n / 64) 0).toNat.testBit (n % 64)

theorem toNat_one_shiftLeft {b : Nat} (h : b < 64) :
    ((1 : UInt64) <<< UInt64.ofNat b).toNat = 2 ^ b := by
  have hb : (UInt64.ofNat b).toNat = b := UInt64.toNat_ofNat_of_lt' (lt_trans h (by decide))
  have hlt : 2 ^ b < 2 ^ 64 := Nat.pow_lt_pow_right (by omega) h
  rw [UInt64.toNat_shiftLeft, hb, Nat.mod_eq_of_lt h, UInt64.toNat_one, Nat.one_shiftLeft,
    Nat.mod_eq_of_lt hlt]

theorem getBit_eq (f : BloomFilter) (idx : Fin f.numBits) : f.getBit idx = f.testBit idx := by
  have hword : f.bits.getD (idx / 64) 0 = f.bits.get ⟨idx / 64, f.word_lt idx⟩ := by
    simp [List.getD_eq_getElem?_getD, List.getElem?_eq_getElem (f.word_lt idx)]
  rw [getBit, testBit, hword, Bool.eq_iff_iff, bne_iff_ne, ne_eq, ← UInt64.toNat_inj,
    UInt64.toNat_and, toNat_one_shiftLeft (Nat.mod_lt _ (by omega)), Nat.and_two_pow]
  cases (f.bits.get ⟨idx / 64, f.word_lt idx⟩).toNat.testBit (idx % 64) <;> simp

theorem testBit_setBit (f : BloomFilter) (idx : Fin f.numBits) (n : Nat) :
    (f.setBit idx).testBit n = (decide (n = idx) || f.testBit n) := by
  have hword := f.word_lt idx
  unfold testBit setBit
  dsimp only
  simp only [List.getD_eq_getElem?_getD, List.getElem?_modify]
  by_cases hw : idx.val / 64 = n / 64
  · have hiff : (idx.val % 64 = n % 64) ↔ n = idx := by omega
    rw [← hw, List.getElem?_eq_getElem hword]
    simp only [if_true, Option.map_eq_map, Option.map_some, Option.getD_some, UInt64.toNat_or,
      toNat_one_shiftLeft (Nat.mod_lt _ (by omega : 0 < 64)), Nat.testBit_or, Nat.testBit_two_pow]
    rw [decide_eq_decide.mpr hiff, Bool.or_comm]
  · have hne : n ≠ idx := fun h => hw (by rw [h])
    simp only [hw, if_false, hne, decide_false, Bool.false_or]
    cases f.bits[n / 64]? <;> rfl

/-- What an insertion does: the key's probes are set, and every other bit stays. -/
theorem insertLoop_spec {hash : UInt64} {is : List Nat} {f g : BloomFilter}
    (h : insertLoop hash is f = some g) :
    g.numBits = f.numBits ∧ g.numHashes = f.numHashes ∧
      (∀ n, f.testBit n = true → g.testBit n = true) ∧
      ∀ i ∈ is, ∃ idx, hashToIndex hash i f.numBits = some idx ∧ g.testBit idx = true := by
  induction is generalizing f with
  | nil =>
    obtain rfl : f = g := Option.some.inj h
    exact ⟨rfl, rfl, fun _ hn => hn, by simp⟩
  | cons i is ih =>
    unfold insertLoop at h
    cases hidx : hashToIndex hash i f.numBits with
    | none => simp [hidx] at h
    | some idx =>
      rw [hidx] at h
      obtain ⟨hbits, hhashes, hkeep, hset⟩ := ih h
      refine ⟨hbits, hhashes, fun n hn => hkeep n ?_, ?_⟩
      · rw [testBit_setBit, hn, Bool.or_true]
      · intro j hj
        rcases List.mem_cons.mp hj with rfl | hj
        · refine ⟨idx, hidx, hkeep idx ?_⟩
          rw [testBit_setBit, decide_eq_true rfl, Bool.true_or]
        · exact hset j hj

/-- A lookup is answered with true exactly when all the key's probes are set. -/
theorem containsLoop_eq_true {hash : UInt64} {is : List Nat} {f : BloomFilter} :
    containsLoop f hash is = some true ↔
      ∀ i ∈ is, ∃ idx, hashToIndex hash i f.numBits = some idx ∧ f.testBit idx = true := by
  induction is with
  | nil => simp [containsLoop]
  | cons i is ih =>
    unfold containsLoop
    cases hidx : hashToIndex hash i f.numBits with
    | none => simp [hidx]
    | some idx =>
      simp only [Option.bind_eq_bind, Option.bind_some, List.mem_cons, forall_eq_or_imp, hidx,
        Option.some.injEq, exists_eq_left', getBit_eq]
      cases f.testBit idx with
      | false => simp
      | true => simp [ih]

theorem containsLoop_ne_none {f : BloomFilter} (h : 0 < f.numBits) (hash : UInt64)
    (is : List Nat) : containsLoop f hash is ≠ none := by
  induction is with
  | nil => exact Option.some_ne_none true
  | cons i is ih =>
    obtain ⟨idx, hidx⟩ : ∃ idx, hashToIndex hash i f.numBits = some idx := ⟨_, dif_pos h⟩
    rw [containsLoop, hidx, Option.bind_eq_bind, Option.bind_some]
    split_ifs
    · exact ih
    · exact Option.some_ne_none false

/-- A filter with bits in it answers every question. -/
theorem contains_ne_none {f : BloomFilter} (h : 0 < f.numBits) (key : Bytes) :
    f.contains key ≠ none :=
  containsLoop_ne_none h (fnv1a key) (List.range f.numHashes)

theorem insertLoop_isSome {f : BloomFilter} (h : 0 < f.numBits) (hash : UInt64) (is : List Nat) :
    ∃ g, insertLoop hash is f = some g := by
  induction is generalizing f with
  | nil => exact ⟨f, rfl⟩
  | cons i is ih =>
    obtain ⟨idx, hidx⟩ : ∃ idx, hashToIndex hash i f.numBits = some idx := ⟨_, dif_pos h⟩
    rw [insertLoop, hidx, Option.bind_eq_bind, Option.bind_some]
    exact ih h

theorem insert_isSome {f : BloomFilter} (h : 0 < f.numBits) (key : Bytes) :
    ∃ g, f.insert key = some g :=
  insertLoop_isSome h (fnv1a key) (List.range f.numHashes)

/-- An inserted key is found. -/
theorem contains_insert {f g : BloomFilter} {key : Bytes} (h : f.insert key = some g) :
    g.contains key = some true := by
  obtain ⟨hbits, hhashes, -, hset⟩ := insertLoop_spec h
  rw [contains, containsLoop_eq_true, hhashes, hbits]
  exact hset

/-- A key that was found is still found after another insertion. -/
theorem contains_mono {f g : BloomFilter} {key other : Bytes} (h : f.insert other = some g)
    (hkey : f.contains key = some true) : g.contains key = some true := by
  obtain ⟨hbits, hhashes, hkeep, -⟩ := insertLoop_spec h
  rw [contains, containsLoop_eq_true] at hkey ⊢
  rw [hhashes, hbits]
  intro i hi
  obtain ⟨idx, hidx, hset⟩ := hkey i hi
  exact ⟨idx, hidx, hkeep idx hset⟩

theorem numBits_insert {f g : BloomFilter} {key : Bytes} (h : f.insert key = some g) :
    g.numBits = f.numBits :=
  (insertLoop_spec h).1

theorem numBits_new_pos (p : Platform) (numItems : Nat) : 0 < (new p numItems).numBits := by
  simp [new, optimalNumBits]

end BloomFilter

end Graphite
