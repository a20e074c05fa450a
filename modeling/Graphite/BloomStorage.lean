import Graphite.Bloom

/-! Any number of insertions into a new Bloom filter, and the filter read back from its bytes. -/

namespace Graphite.BloomFilter
open BigEndian

def insertAll (f : BloomFilter) (keys : List Bytes) : Option BloomFilter := keys.foldlM insert f

theorem insertAll_cons (f : BloomFilter) (key : Bytes) (keys : List Bytes) :
    f.insertAll (key :: keys) = (f.insert key).bind (·.insertAll keys) :=
  List.foldlM_cons

theorem insertAll_isSome {f : BloomFilter} (h : 0 < f.numBits) (keys : List Bytes) :
    ∃ g, f.insertAll keys = some g := by
  induction keys generalizing f with
  | nil => exact ⟨f, rfl⟩
  | cons key keys ih =>
    obtain ⟨g, hg⟩ := insert_isSome h key
    rw [insertAll_cons, hg, Option.bind_some]
    exact ih (by rw [numBits_insert hg]; exact h)

/-- Later insertions keep what was found, and leave the sizes alone. -/
theorem insertAll_spec {f g : BloomFilter} {keys : List Bytes} (h : f.insertAll keys = some g) :
    g.numBits = f.numBits ∧ g.numHashes = f.numHashes ∧
      (∀ key, f.contains key = some true → g.contains key = some true) ∧
      ∀ key ∈ keys, g.contains key = some true := by
  induction keys generalizing f with
  | nil =>
    obtain rfl : f = g := Option.some.inj h
    exact ⟨rfl, rfl, fun _ hkey => hkey, by simp⟩
  | cons key keys ih =>
    obtain ⟨f', hf', hrest⟩ := Option.bind_eq_some_iff.mp ((insertAll_cons f key keys).symm.trans h)
    obtain ⟨hbits, hhashes, -, -⟩ := insertLoop_spec hf'
    obtain ⟨hbits', hhashes', hkeep, hmem⟩ := ih hrest
    refine ⟨hbits'.trans hbits, hhashes'.trans hhashes,
      fun other hother => hkeep other (contains_mono hf' hother), fun other hother => ?_⟩
    rcases List.mem_cons.mp hother with rfl | hother
    · exact hkeep other (contains_insert hf')
    · exact hmem other hother

theorem numHashes_new_le (p : Platform) (numItems : Nat) : (new p numItems).numHashes ≤ 16 :=
  Nat.min_le_right _ _

theorem length_toBytes (f : BloomFilter) :
    f.toBytes.length = 8 + 8 * ((f.numBits + 63) / 64) := by
  have hwords : (f.bits.flatMap fun word => encode 8 word.toNat).length = f.bits.length * 8 := by
    rw [List.length_flatMap]
    simp [List.map_const']
  rw [toBytes, List.length_append, List.length_append, length_encode, length_encode, hwords,
    f.length_bits]
  omega

/-- The words come back from their bytes. -/
theorem word_toBytes (bits : List UInt64) {i : Nat} (hi : i < bits.length) :
    UInt64.ofNat (((slice (bits.flatMap fun word => encode 8 word.toNat) (i * 8)
      (i * 8 + 8)).map decode).getD 0) = bits[i] := by
  have hflat : (bits.flatMap fun word => encode 8 word.toNat) =
      (bits.map UInt64.toNat).flatMap (encode 8) := by
    rw [List.flatMap_map]
  have hlen : ((bits.map UInt64.toNat).flatMap (encode 8)).length = bits.length * 8 := by
    rw [List.length_flatMap]
    simp [Function.comp_def]
  have hword := take_drop_flatMap_encode 8 (bits.map UInt64.toNat) i (by simpa using hi)
  rw [hflat, slice, if_pos (by omega), Nat.add_sub_cancel_left, Nat.mul_comm i 8, hword,
    Option.map_some, Option.getD_some, decode_encode_of_lt (by simpa using UInt64.toNat_lt bits[i]),
    List.getElem_map, UInt64.ofNat_toNat]

/-- A filter whose header fits its two `u32` fields is read back as it was. -/
theorem fromEncoded_toBytes {f : BloomFilter} (hpos : 0 < f.numBits) (hbits : f.numBits < 2 ^ 32)
    (hhashes : f.numHashes < 2 ^ 32) : fromEncoded f.toBytes = some f := by
  have hlen : ¬ f.toBytes.length < 12 := by
    rw [length_toBytes]
    omega
  have hfirst : f.toBytes.take 4 = encode 4 f.numBits := by
    rw [toBytes, List.append_assoc, List.take_left' (length_encode _ _)]
  have hsecond : (f.toBytes.drop 4).take 4 = encode 4 f.numHashes := by
    rw [toBytes, List.append_assoc, List.drop_left' (length_encode _ _),
      List.take_left' (length_encode _ _)]
  have hrest : f.toBytes.drop 8 = f.bits.flatMap fun word => encode 8 word.toNat :=
    List.drop_left' (by simp)
  have hdecode : decode (encode 4 f.numBits) = f.numBits := decode_encode_of_lt hbits
  have hdecode' : decode (encode 4 f.numHashes) = f.numHashes := decode_encode_of_lt hhashes
  have hwords : (List.range ((f.numBits + 63) / 64)).map (fun i =>
      UInt64.ofNat (((slice (f.bits.flatMap fun word => encode 8 word.toNat) (i * 8)
        (i * 8 + 8)).map decode).getD 0)) = f.bits := by
    apply List.ext_getElem
    · rw [List.length_map, List.length_range, f.length_bits]
    · intro i _ hi
      rw [List.getElem_map, List.getElem_range, word_toBytes f.bits hi]
  rw [fromEncoded, if_neg hlen, hfirst, hsecond, hrest, hdecode, hdecode', fromBytes]
  obtain ⟨bits, numBits, numHashes, length_bits⟩ := f
  simp only [Option.some.injEq, mk.injEq, and_true]
  exact hwords

/-- After any insertions into a new filter every inserted key is found, in the filter and in
the one read back from its bytes, which is the filter itself. -/
theorem no_false_negatives (p : Platform) (n : Nat) (hbits : (new p n).numBits < 2 ^ 32)
    (keys : List Bytes) :
    ∃ f, (new p n).insertAll keys = some f ∧ (∀ key ∈ keys, f.contains key = some true) ∧
      ∃ g, fromEncoded f.toBytes = some g ∧
        (g.bits = f.bits ∧ g.numBits = f.numBits ∧ g.numHashes = f.numHashes) ∧
        ∀ key ∈ keys, g.contains key = some true := by
  obtain ⟨f, hf⟩ := insertAll_isSome (numBits_new_pos p n) keys
  obtain ⟨hnum, hhashes, -, hmem⟩ := insertAll_spec hf
  have hpos : 0 < f.numBits := by
    rw [hnum]
    exact numBits_new_pos p n
  have hfew : f.numHashes < 2 ^ 32 := by
    have := numHashes_new_le p n
    omega
  refine ⟨f, hf, hmem, f, fromEncoded_toBytes hpos (by omega) hfew, ⟨rfl, rfl, rfl⟩, hmem⟩

theorem no_false_negatives_hundred :
    ∃ f, (new .simple 100).insertAll [[65], [66, 67]] = some f ∧
      (∀ key ∈ [[65], [66, 67]], f.contains key = some true) ∧
      ∃ g, fromEncoded f.toBytes = some g ∧
        (g.bits = f.bits ∧ g.numBits = f.numBits ∧ g.numHashes = f.numHashes) ∧
        ∀ key ∈ [[65], [66, 67]], g.contains key = some true :=
  no_false_negatives .simple 100 (by decide) [[65], [66, 67]]

end Graphite.BloomFilter
