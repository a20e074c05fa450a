import Graphite.DeltaDamage
import Graphite.PriceColumn
import Graphite.SymbolDictionary
import Graphite.Bloom

/-! The other decoders of a table on arbitrary bytes. Those whose models elsewhere leave out
what cannot fail are given again here with every index, slice and sum checked, and the two
are shown equal; the Bloom filter's probes differ, as their product is not a wrapping one. -/

namespace Graphite
open BigEndian

namespace Gorilla

/-- What stands for one value behind the first. -/
inductive Entry
  | same
  | cut (leading trailing : UInt8) (stored : Bytes)
  | whole (stored : Bytes)

namespace Entry

def toBytes : Entry → Bytes
  | same => [0]
  | cut leading trailing stored => [1, leading, trailing] ++ stored
  | whole stored => 2 :: stored

/-- The zero counts of a cut value leave its stored bytes room in 64 bits. -/
def Fits : Entry → Prop
  | same => True
  | cut leading trailing stored => leading.toNat + trailing.toNat ≤ 64 ∧
      (64 - leading.toNat - trailing.toNat + 7) / 8 = stored.length
  | whole stored => stored.length = 8

/-- An entry that fits is told from what follows it. -/
theorem Fits.unique {e e' : Entry} (h : e.Fits) (h' : e'.Fits) {tail tail' : Bytes}
    (heq : e.toBytes ++ tail = e'.toBytes ++ tail') : e = e' ∧ tail = tail' := by
  cases e <;> cases e' <;> simp only [toBytes, List.cons_append, List.nil_append,
    List.cons.injEq] at heq
  case same.same => exact ⟨rfl, heq.2⟩
  case cut.cut leading trailing stored leading' trailing' stored' =>
    obtain ⟨-, rfl, rfl, heq⟩ := heq
    obtain ⟨rfl, rfl⟩ := List.append_inj heq (h.2.symm.trans h'.2)
    exact ⟨rfl, rfl⟩
  case whole.whole stored stored' =>
    obtain ⟨rfl, rfl⟩ := List.append_inj heq.2 (Eq.trans h (Eq.symm h'))
    exact ⟨rfl, rfl⟩
  all_goals exact absurd heq.1 (by decide)

end Entry

/-- Behind fewer than `n` entries no two zero counts add up to more than 64. -/
def CountsFit (n : Nat) (coded : Bytes) : Prop :=
  ∀ entries : List Entry, (∀ e ∈ entries, e.Fits) → entries.length < n →
    ∀ leading trailing : UInt8, ∀ tail : Bytes,
      coded = entries.flatMap Entry.toBytes ++ 1 :: leading :: trailing :: tail →
        leading.toNat + trailing.toNat ≤ 64

theorem countsFit_zero (coded : Bytes) : CountsFit 0 coded :=
  fun _ _ h => absurd h (Nat.not_lt_zero _)

theorem countsFit_entry {e : Entry} (he : e.Fits) (n : Nat) (tail : Bytes) :
    CountsFit (n + 1) (e.toBytes ++ tail) ↔ CountsFit n tail := by
  constructor
  · intro h entries hfits hlen leading trailing rest heq
    refine h (e :: entries) (List.forall_mem_cons.mpr ⟨he, hfits⟩) (by simpa using hlen) leading
      trailing rest ?_
    rw [heq, List.flatMap_cons, List.append_assoc]
  · intro h entries hfits hlen leading trailing rest heq
    cases entries with
    | nil =>
      cases e with
      | same => exact absurd (List.cons.inj heq).1 (by decide)
      | cut l t stored =>
        simp only [Entry.toBytes, List.cons_append, List.flatMap_nil, List.nil_append,
          List.cons.injEq] at heq
        obtain ⟨-, rfl, rfl, -⟩ := heq
        exact he.1
      | whole stored => exact absurd (List.cons.inj heq).1 (by decide)
    | cons e' entries =>
      obtain ⟨he', hfits'⟩ := List.forall_mem_cons.mp hfits
      rw [List.flatMap_cons, List.append_assoc] at heq
      obtain ⟨-, htail⟩ := he.unique he' heq
      exact h entries hfits' (by simpa using hlen) leading trailing rest htail

/-- Where no entry starts, only the zero counts there matter. -/
theorem countsFit_stuck_iff {coded : Bytes}
    (hstuck : ∀ e : Entry, e.Fits → ∀ tail, coded ≠ e.toBytes ++ tail) (n : Nat) :
    CountsFit (n + 1) coded ↔ ∀ (leading trailing : UInt8) (tail : Bytes),
      coded = 1 :: leading :: trailing :: tail → leading.toNat + trailing.toNat ≤ 64 := by
  constructor
  · intro h leading trailing tail heq
    exact h [] (by simp) (by simp) leading trailing tail heq
  · intro h entries hfits _ leading trailing tail heq
    cases entries with
    | nil => exact h leading trailing tail heq
    | cons e entries =>
      rw [List.flatMap_cons, List.append_assoc] at heq
      exact absurd heq (hstuck e (hfits e (by simp)) _)

/-- One turn of the decoder takes one entry. -/
theorem decodeLoop_entry {e : Entry} (he : e.Fits) (front tail : Bytes) (n : Nat) (prev : UInt64) :
    ∃ cur, decodeLoop (front ++ e.toBytes ++ tail) (n + 1) front.length prev =
      (decodeLoop (front ++ e.toBytes ++ tail) n (front ++ e.toBytes).length cur).map
        (⟨cur⟩ :: ·) := by
  cases e with
  | same =>
    have hcontrol := getElem?_behind front [0] tail (Nat.add_zero _) (by simp)
    exact ⟨prev, by rw [Entry.toBytes, decodeLoop_same hcontrol, List.length_append,
      List.length_singleton]⟩
  | cut leading trailing stored =>
    obtain ⟨hzeros, hbytes⟩ := he
    have hcoded : ([1, leading, trailing] ++ stored).length = 3 + stored.length := by
      rw [List.length_append]
      rfl
    have hcontrol := getElem?_behind front ([1, leading, trailing] ++ stored) tail
      (Nat.add_zero _) (by rw [hcoded]; omega)
    have hleading := getElem?_behind front ([1, leading, trailing] ++ stored) tail
      (Eq.refl (front.length + 1)) (by rw [hcoded]; omega)
    have htrailing := getElem?_behind front ([1, leading, trailing] ++ stored) tail
      (Eq.refl (front.length + 2)) (by rw [hcoded]; omega)
    have hslice := slice_behind front [1, leading, trailing] stored tail
      (Eq.refl (front.length + 3)) rfl
    refine ⟨prev ^^^ if trailing.toNat < 64 then
      UInt64.ofNat (BigEndian.decode stored) <<< UInt64.ofNat trailing.toNat else 0, ?_⟩
    rw [Entry.toBytes, decodeLoop_cut hcontrol hleading htrailing hzeros hbytes hslice rfl,
      List.length_append, hcoded, ← Nat.add_assoc]
  | whole stored =>
    have hlen : stored.length = 8 := he
    have hcontrol := getElem?_behind front (2 :: stored) tail (Nat.add_zero _) (by simp)
    have hslice : slice (front ++ 2 :: stored ++ tail) (front.length + 1) (front.length + 9) =
        some stored := slice_behind front [2] stored tail rfl (by rw [hlen])
    refine ⟨prev ^^^ UInt64.ofNat (BigEndian.decode stored), ?_⟩
    rw [Entry.toBytes, decodeLoop_whole hcontrol hslice rfl, List.length_append, List.length_cons,
      hlen]

/-- The decoder at bytes that are no entry: it panics at two zero counts that are too large and
stops at anything else. -/
theorem decodeLoop_stuck (front coded : Bytes)
    (hstuck : ∀ e : Entry, e.Fits → ∀ tail, coded ≠ e.toBytes ++ tail) (n : Nat) (prev : UInt64) :
    (decodeLoop (front ++ coded) (n + 1) front.length prev).isSome ↔ CountsFit (n + 1) coded := by
  rw [countsFit_stuck_iff hstuck]
  have hget (i : Nat) : (front ++ coded)[front.length + i]? = coded[i]? := by
    rw [List.getElem?_append_right (by omega), Nat.add_sub_cancel_left]
  have hfirst : (front ++ coded)[front.length]? = coded[0]? := hget 0
  have hlength : (front ++ coded).length = front.length + coded.length := List.length_append
  rw [decodeLoop, hfirst]
  rcases coded with _ | ⟨control, coded⟩
  · simp
  by_cases hsame : control = 0
  · exact absurd (by rw [hsame]; rfl) (hstuck .same trivial coded)
  by_cases hcut : control = 1
  · subst hcut
    rcases coded with _ | ⟨leading, _ | ⟨trailing, stored⟩⟩
    · simp
    · simp
    · have hleading : (front ++ 1 :: leading :: trailing :: stored)[front.length + 1]? =
          some leading := hget 1
      have htrailing : (front ++ 1 :: leading :: trailing :: stored)[front.length + 2]? =
          some trailing := hget 2
      simp only [List.length_cons] at hlength
      have hroom : ¬ front.length + 1 + 2 > (front ++ 1 :: leading :: trailing :: stored).length := by
        omega
      simp only [List.getElem?_cons_zero, if_neg hroom, hleading, htrailing, Option.bind_eq_bind,
        Option.bind_some]
      by_cases hcounts : leading.toNat + trailing.toNat > 64
      · have hnot : ¬ leading.toNat + trailing.toNat ≤ 64 := by omega
        simp [hcounts, hnot]
      · have hshort : stored.length < (64 - leading.toNat - trailing.toNat + 7) / 8 := by
          refine not_le.mp fun hle => hstuck (.cut leading trailing (stored.take
            ((64 - leading.toNat - trailing.toNat + 7) / 8))) ⟨not_lt.mp hcounts, ?_⟩
            (stored.drop ((64 - leading.toNat - trailing.toNat + 7) / 8)) ?_
          · rw [List.length_take, Nat.min_eq_left hle]
          · simp [Entry.toBytes]
        have hstop : front.length + 3 + (64 - leading.toNat - trailing.toNat + 7) / 8 >
            (front ++ 1 :: leading :: trailing :: stored).length := by omega
        have hle : leading.toNat + trailing.toNat ≤ 64 := not_lt.mp hcounts
        simp only [if_neg hcounts, if_pos hstop, pure, Option.isSome_some, true_iff]
        intro leading' trailing' tail heq
        simp only [List.cons.injEq] at heq
        obtain ⟨-, rfl, rfl, -⟩ := heq
        exact hle
  by_cases hwhole : control = 2
  · subst hwhole
    have hshort : coded.length < 8 := by
      refine not_le.mp fun hle => hstuck (.whole (coded.take 8)) ?_ (coded.drop 8) ?_
      · exact List.length_take_of_le hle
      · simp [Entry.toBytes]
    rw [List.length_cons] at hlength
    have hstop : front.length + 1 + 8 > (front ++ 2 :: coded).length := by omega
    simp only [List.getElem?_cons_zero, if_pos hstop]
    simp
  · simp [hcut]

/-- The loop ends without a panic when no two zero counts on its way are too large. -/
theorem decodeLoop_isSome_iff (front coded : Bytes) (n : Nat) (prev : UInt64) :
    (decodeLoop (front ++ coded) n front.length prev).isSome ↔ CountsFit n coded := by
  induction n generalizing front coded prev with
  | zero => simp [decodeLoop, countsFit_zero]
  | succ n ih =>
    by_cases hentry : ∃ e : Entry, e.Fits ∧ ∃ tail, coded = e.toBytes ++ tail
    · obtain ⟨e, he, tail, rfl⟩ := hentry
      obtain ⟨cur, hstep⟩ := decodeLoop_entry he front tail n prev
      rw [← List.append_assoc, hstep, Option.isSome_map, ih, countsFit_entry he]
    · refine decodeLoop_stuck front coded (fun e he tail heq => ?_) n prev
      exact hentry ⟨e, he, tail, heq⟩

theorem decode_isSome_iff (data : Bytes) :
    (decode data).isSome ↔ CountsFit (BigEndian.decode (data.take 4) - 1) (data.drop 12) := by
  by_cases hshort : data.length < 12
  · have hempty : data.drop 12 = [] := List.drop_eq_nil_of_le (by omega)
    rw [decode, if_pos hshort, hempty]
    refine iff_of_true rfl fun entries _ _ leading trailing tail heq => ?_
    exact absurd heq.symm (List.append_ne_nil_of_right_ne_nil _ (List.cons_ne_nil _ _))
  · have hcount : slice data 0 4 = some (data.take 4) := by
      rw [slice, if_pos (by omega)]
      rfl
    have hfirst : slice data 4 12 = some ((data.drop 4).take 8) := by rw [slice, if_pos (by omega)]
    rw [decode, if_neg hshort, hcount, hfirst]
    simp only [Option.bind_eq_bind, Option.bind_some]
    by_cases h0 : BigEndian.decode (data.take 4) = 0
    · simp [h0, countsFit_zero]
    · have hloop := decodeLoop_isSome_iff (data.take 12) (data.drop 12)
        (BigEndian.decode (data.take 4) - 1)
        (UInt64.ofNat (BigEndian.decode ((data.drop 4).take 8)))
      rw [List.take_append_drop, List.length_take_of_le (by omega)] at hloop
      rw [if_neg h0, ← hloop]
      exact Bool.eq_iff_iff.mp (Delta.isSome_bind_cons _ _)

end Gorilla

/-- A sum of `usize`, 64 bits wide; an overflow is a panic. -/
def usize (n : Nat) : Option Nat := if n < 2 ^ 64 then some n else none

theorem usize_of_lt {n : Nat} (h : n < 2 ^ 64) : usize n = some n := if_pos h

namespace RleLz4

/-- The loop of `rle_decode`. -/
def rleLoopChecked (rle : Bytes) (total offset : Nat) (result : List UInt64) :
    Option (List UInt64) :=
  if offset < rle.length ∧ result.length < total then do
    let next ← usize (offset + 12)
    if next > rle.length then some result
    else do
      let runLen := BigEndian.decode (← slice rle offset (← usize (offset + 4)))
      let val := UInt64.ofNat (BigEndian.decode (← slice rle (← usize (offset + 4)) next))
      rleLoopChecked rle total (offset + 12) (result ++ List.replicate runLen val)
  else some result
termination_by rle.length - offset

def rleDecodeChecked (rle : Bytes) : Option (List UInt64) :=
  if rle.length < 4 then some []
  else do
    let total := BigEndian.decode (← slice rle 0 4)
    rleLoopChecked rle total 4 []

theorem rleLoopChecked_eq {rle : Bytes} (hlen : rle.length < 2 ^ 63) (total : Nat) (fuel : Nat)
    {offset : Nat} (hfuel : rle.length ≤ offset + fuel) (result : List UInt64) :
    rleLoopChecked rle total offset result =
      some (result ++ rleDecodeLoop rle fuel offset (total - result.length)) := by
  induction fuel generalizing offset result with
  | zero =>
    have hdone : ¬ (offset < rle.length ∧ result.length < total) := by omega
    rw [rleLoopChecked, if_neg hdone]
    simp [rleDecodeLoop]
  | succ fuel ih =>
    rw [rleLoopChecked]
    split_ifs with hmore
    · obtain ⟨missing, hmissing⟩ : ∃ m, total - result.length = m + 1 :=
        ⟨total - result.length - 1, by omega⟩
      rw [hmissing, rleDecodeLoop, usize_of_lt (by omega), Option.bind_eq_bind, Option.bind_some]
      by_cases hroom : offset + 12 > rle.length
      · have hval : slice rle (offset + 4) (offset + 12) = none := by rw [slice, if_neg (by omega)]
        rw [if_pos hroom, hval]
        cases slice rle offset (offset + 4) <;> simp
      · have hrun : slice rle offset (offset + 4) = some ((rle.drop offset).take 4) := by
          rw [slice, if_pos (by omega), Nat.add_sub_cancel_left]
        have hval : slice rle (offset + 4) (offset + 12) = some ((rle.drop (offset + 4)).take 8) := by
          rw [slice, if_pos (by omega), show offset + 12 - (offset + 4) = 8 by omega]
        rw [if_neg hroom, usize_of_lt (by omega)]
        simp only [Option.bind_eq_bind, Option.bind_some, hrun, hval]
        rw [ih (by omega), List.append_assoc]
        congr 4
        rw [List.length_append, List.length_replicate]
        omega
    · rcases not_and_or.mp hmore with hend | htotal
      · have hval : slice rle (offset + 4) (offset + 12) = none := by rw [slice, if_neg (by omega)]
        cases htotal : total - result.length with
        | zero => simp [rleDecodeLoop]
        | succ missing =>
          rw [rleDecodeLoop, hval]
          cases slice rle offset (offset + 4) <;> simp
      · have hzero : total - result.length = 0 := by omega
        rw [hzero]
        simp [rleDecodeLoop]

theorem rleDecodeChecked_eq {rle : Bytes} (hlen : rle.length < 2 ^ 63) :
    rleDecodeChecked rle = some (rleDecode rle) := by
  rw [rleDecodeChecked, rleDecode]
  split_ifs with hshort
  · have hnone : slice rle 0 4 = none := by rw [slice, if_neg (by omega)]
    rw [hnone]
    cases rle.length <;> rfl
  · have htotal : slice rle 0 4 = some (rle.take 4) := by
      rw [slice, if_pos (by omega)]
      rfl
    rw [htotal, Option.bind_eq_bind, Option.bind_some,
      rleLoopChecked_eq hlen _ rle.length (by omega)]
    simp

end RleLz4

namespace SymbolDictionary

def idStep (data : Bytes) (ids : List SymbolId) (i : Nat) : Option (List SymbolId) := do
  let offset ← usize (4 + (← usize (i * 2)))
  let hi ← usize (offset + 2)
  if hi ≤ data.length then
    return ids ++ [UInt16.ofNat (decode (← slice data offset hi))]
  else return ids

def decodeIdsChecked (data : Bytes) : Option (List SymbolId) :=
  if data.length < 4 then some []
  else do
    let count := decode (← slice data 0 4)
    (List.range count).foldlM (idStep data) []

def readNamesChecked (data : Bytes) : (count offset : Nat) → SymbolDictionary →
    Option SymbolDictionary
  | 0, _, dict => some dict
  | count + 1, offset, dict => do
    let start ← usize (offset + 2)
    if start > data.length then some dict
    else do
      let len := decode (← slice data offset start)
      let next ← usize (start + len)
      if next > data.length then some dict
      else do
        let name ← slice data start next
        readNamesChecked data count next (dict.getOrInsert (fromUtf8Lossy name)).2

def fromMetadataChecked (data : Bytes) : Option SymbolDictionary :=
  if data.length < 4 then some new
  else do
    let count := decode (← slice data 0 4)
    readNamesChecked data count 4 new

theorem idStep_eq {data : Bytes} {i : Nat} (hi : i < 2 ^ 32) (ids : List SymbolId) :
    idStep data ids i = some (ids ++ ((slice data (4 + i * 2) (4 + i * 2 + 2)).map
      fun bytes => UInt16.ofNat (decode bytes)).toList) := by
  rw [idStep, usize_of_lt (by omega), Option.bind_eq_bind, Option.bind_some,
    usize_of_lt (by omega), Option.bind_some, usize_of_lt (by omega), Option.bind_some]
  split_ifs with hroom
  · have hslice : slice data (4 + i * 2) (4 + i * 2 + 2) = some ((data.drop (4 + i * 2)).take 2) := by
      rw [slice, if_pos (by omega), Nat.add_sub_cancel_left]
    rw [hslice]
    rfl
  · rw [slice, if_neg (by omega), Option.map_none, Option.toList_none, List.append_nil]
    rfl

theorem foldlM_idStep {data : Bytes} {is : List Nat} (his : ∀ i ∈ is, i < 2 ^ 32)
    (ids : List SymbolId) :
    is.foldlM (idStep data) ids = some (ids ++ is.filterMap fun i =>
      (slice data (4 + i * 2) (4 + i * 2 + 2)).map fun bytes => UInt16.ofNat (decode bytes)) := by
  induction is generalizing ids with
  | nil => simp
  | cons i is ih =>
    rw [List.foldlM_cons, idStep_eq (his i (by simp)), Option.bind_eq_bind, Option.bind_some,
      ih fun j hj => his j (List.mem_cons_of_mem i hj), List.append_assoc, List.filterMap_cons]
    congr 2
    cases slice data (4 + i * 2) (4 + i * 2 + 2) <;> simp

theorem decodeIdsChecked_eq (data : Bytes) : decodeIdsChecked data = some (decodeIds data) := by
  rw [decodeIdsChecked, decodeIds]
  split_ifs with hshort
  · have hnone : slice data 0 4 = none := by rw [slice, if_neg (by omega)]
    rw [hnone]
    rfl
  · have hcount : slice data 0 4 = some (data.take 4) := by
      rw [slice, if_pos (by omega)]
      rfl
    have hlt : decode (data.take 4) < 2 ^ 32 := by
      have := decode_lt (data.take 4)
      rwa [List.length_take_of_le (by omega)] at this
    rw [hcount, Option.bind_eq_bind, Option.bind_some,
      foldlM_idStep fun i hi => (List.mem_range.mp hi).trans hlt]
    rfl

theorem readNamesChecked_eq {data : Bytes} (hlen : data.length < 2 ^ 63) (count : Nat)
    {offset : Nat} (hoffset : offset ≤ data.length) (dict : SymbolDictionary) :
    readNamesChecked data count offset dict = some (readNames data count offset dict) := by
  induction count generalizing offset dict with
  | zero => rfl
  | succ count ih =>
    rw [readNamesChecked, readNames, usize_of_lt (by omega), Option.bind_eq_bind, Option.bind_some]
    by_cases hshort : offset + 2 > data.length
    · rw [if_pos hshort, slice, if_neg (by omega)]
    · have hbytes : slice data offset (offset + 2) = some ((data.drop offset).take 2) := by
        rw [slice, if_pos (by omega), Nat.add_sub_cancel_left]
      have hlt : decode ((data.drop offset).take 2) < 2 ^ 16 := by
        have := decode_lt ((data.drop offset).take 2)
        rwa [List.length_take_of_le (by rw [List.length_drop]; omega)] at this
      rw [if_neg hshort, hbytes]
      simp only [Option.bind_eq_bind, Option.bind_some]
      rw [usize_of_lt (by omega), Option.bind_some]
      by_cases hcut : offset + 2 + decode ((data.drop offset).take 2) > data.length
      · rw [if_pos hcut, slice, if_neg (by omega)]
      · have hname : slice data (offset + 2) (offset + 2 + decode ((data.drop offset).take 2)) =
            some ((data.drop (offset + 2)).take (decode ((data.drop offset).take 2))) := by
          rw [slice, if_pos (by omega), Nat.add_sub_cancel_left]
        rw [if_neg hcut, hname, Option.bind_some, ih (by omega)]

theorem fromMetadataChecked_eq {data : Bytes} (hlen : data.length < 2 ^ 63) :
    fromMetadataChecked data = some (fromMetadata data) := by
  rw [fromMetadataChecked, fromMetadata]
  split_ifs with hshort
  · have hnone : slice data 0 4 = none := by rw [slice, if_neg (by omega)]
    rw [hnone]
    rfl
  · have hcount : slice data 0 4 = some (data.take 4) := by
      rw [slice, if_pos (by omega)]
      rfl
    rw [hcount, Option.bind_eq_bind, Option.bind_some, readNamesChecked_eq hlen _ (by omega)]
    rfl

end SymbolDictionary

namespace BloomFilter

/-- `hash_to_index` with the product of `u64`s checked. -/
def hashToIndexChecked (hash : UInt64) (i numBits : Nat) : Option (Fin numBits) :=
  if i * 0x9e3779b97f4a7c15 < 2 ^ 64 then hashToIndex hash i numBits else none

def containsLoopChecked (f : BloomFilter) (hash : UInt64) : List Nat → Option Bool
  | [] => some true
  | i :: is => do
    let bitIdx ← hashToIndexChecked hash i f.numBits
    if f.getBit bitIdx then containsLoopChecked f hash is else some false

def containsChecked (f : BloomFilter) (key : Bytes) : Option Bool :=
  containsLoopChecked f (fnv1a key) (List.range f.numHashes)

/-- One word of `from_bytes`. -/
def wordChecked (data : Bytes) (i : Nat) : Option UInt64 := do
  let start ← usize (i * 8)
  let hi ← usize (start + 8)
  if hi ≤ data.length then return UInt64.ofNat (decode (← slice data start hi)) else return 0

def fromEncodedChecked (data : Bytes) : Option (Option BloomFilter) :=
  if data.length < 12 then some none
  else do
    let numBits := decode (← slice data 0 4)
    let numHashes := decode (← slice data 4 8)
    let bitsData ← slice data 8 data.length
    let bits ← (List.range ((numBits + 63) / 64)).mapM (wordChecked bitsData)
    if h : bits.length = (numBits + 63) / 64 then return some ⟨bits, numBits, numHashes, h⟩ else none

theorem wordChecked_eq {data : Bytes} (i : Nat) (hi : i < 2 ^ 32) :
    wordChecked data i =
      some (UInt64.ofNat (((slice data (i * 8) (i * 8 + 8)).map decode).getD 0)) := by
  rw [wordChecked, usize_of_lt (by omega), Option.bind_eq_bind, Option.bind_some,
    usize_of_lt (by omega), Option.bind_some]
  split_ifs with hroom
  · have hslice : slice data (i * 8) (i * 8 + 8) = some ((data.drop (i * 8)).take 8) := by
      rw [slice, if_pos (by omega), Nat.add_sub_cancel_left]
    rw [hslice]
    rfl
  · rw [slice, if_neg (by omega)]
    rfl

theorem mapM_wordChecked {data : Bytes} {is : List Nat} (his : ∀ i ∈ is, i < 2 ^ 32) :
    is.mapM (wordChecked data) = some (is.map fun i =>
      UInt64.ofNat (((slice data (i * 8) (i * 8 + 8)).map decode).getD 0)) := by
  induction is with
  | nil => rfl
  | cons i is ih =>
    rw [List.mapM_cons, wordChecked_eq i (his i (by simp)),
      ih fun j hj => his j (List.mem_cons_of_mem i hj)]
    rfl

theorem fromEncodedChecked_eq (data : Bytes) :
    fromEncodedChecked data = some (fromEncoded data) := by
  rw [fromEncodedChecked, fromEncoded]
  split_ifs with hshort
  · rfl
  · have hbits : slice data 0 4 = some (data.take 4) := by
      rw [slice, if_pos (by omega)]
      rfl
    have hhashes : slice data 4 8 = some ((data.drop 4).take 4) := by rw [slice, if_pos (by omega)]
    have hrest : slice data 8 data.length = some (data.drop 8) := by
      rw [slice, if_pos (by omega), List.take_of_length_le (by simp)]
    have hlt : decode (data.take 4) < 2 ^ 32 := by
      have := decode_lt (data.take 4)
      rwa [List.length_take_of_le (by omega)] at this
    have hwords := @mapM_wordChecked (data.drop 8)
      (List.range ((decode (data.take 4) + 63) / 64)) fun i hi => by
        have := List.mem_range.mp hi
        omega
    rw [hbits, hhashes, hrest]
    simp only [Option.bind_eq_bind, Option.bind_some]
    rw [hwords, Option.bind_some, dif_pos (by rw [List.length_map, List.length_range])]
    rfl

/-- From the third probe on the product leaves `u64`. -/
theorem hashToIndexChecked_of_lt {i : Nat} (hi : i < 2) (hash : UInt64) (numBits : Nat) :
    hashToIndexChecked hash i numBits = hashToIndex hash i numBits := if_pos (by omega)

theorem hashToIndexChecked_of_ge {i : Nat} (hi : 2 ≤ i) (hash : UInt64) (numBits : Nat) :
    hashToIndexChecked hash i numBits = none := if_neg (by omega)

/-- Whether the bit of a key's probe `i` is there and clear. -/
def ProbeClear (f : BloomFilter) (key : Bytes) (i : Nat) : Prop :=
  ∃ idx, hashToIndex (fnv1a key) i f.numBits = some idx ∧ f.testBit idx = false

theorem containsLoopChecked_probe {f : BloomFilter} (hbits : 0 < f.numBits) (key : Bytes) {i : Nat}
    (hi : i < 2) (is : List Nat) :
    (containsLoopChecked f (fnv1a key) (i :: is)).isSome ↔
      f.ProbeClear key i ∨ (containsLoopChecked f (fnv1a key) is).isSome := by
  obtain ⟨idx, hidx⟩ : ∃ idx, hashToIndex (fnv1a key) i f.numBits = some idx := ⟨_, dif_pos hbits⟩
  have hclear : f.ProbeClear key i ↔ f.testBit idx = false := by
    simp [ProbeClear, hidx]
  rw [containsLoopChecked, hashToIndexChecked_of_lt hi, hidx, Option.bind_eq_bind, Option.bind_some,
    getBit_eq, hclear]
  cases f.testBit idx <;> simp

theorem containsLoopChecked_overflow (f : BloomFilter) (hash : UInt64) {i : Nat} (hi : 2 ≤ i)
    (is : List Nat) : containsLoopChecked f hash (i :: is) = none := by
  rw [containsLoopChecked, hashToIndexChecked_of_ge hi]
  rfl

theorem containsChecked_isSome_iff (f : BloomFilter) (key : Bytes) :
    (f.containsChecked key).isSome ↔ f.numHashes = 0 ∨
      0 < f.numBits ∧ (f.numHashes ≤ 2 ∨ f.ProbeClear key 0 ∨ f.ProbeClear key 1) := by
  rw [containsChecked]
  by_cases hbits : 0 < f.numBits
  · match f.numHashes with
    | 0 => simp [containsLoopChecked]
    | 1 =>
      rw [List.range_succ_eq_map, containsLoopChecked_probe hbits key (by omega)]
      simp [containsLoopChecked, hbits]
    | 2 =>
      have hrange : List.range 2 = [0, 1] := rfl
      rw [hrange, containsLoopChecked_probe hbits key (by omega),
        containsLoopChecked_probe hbits key (by omega)]
      simp [containsLoopChecked, hbits]
    | n + 3 =>
      have hrange : List.range (n + 3) = 0 :: 1 :: 2 :: (List.range n).map (· + 3) := by
        simp [List.range_succ_eq_map, Function.comp_def]
      rw [hrange, containsLoopChecked_probe hbits key (by omega),
        containsLoopChecked_probe hbits key (by omega), containsLoopChecked_overflow f _ (le_refl 2)]
      simp [hbits]
  · match f.numHashes with
    | 0 => simp [containsLoopChecked]
    | n + 1 =>
      have hnone : hashToIndex (fnv1a key) 0 f.numBits = none := dif_neg hbits
      rw [List.range_succ_eq_map, containsLoopChecked, hashToIndexChecked_of_lt (by omega), hnone]
      simp [hbits]

end BloomFilter

/-- Bytes shorter than `isize::MAX`, as every slice is: the run-length and dictionary decoders
and the filter's constructor get through all of them; the timestamp and price decoders and the
filter's probes get through exactly those that meet their conditions. -/
theorem decoders_survive_iff (data key : Bytes) (hlen : data.length < 2 ^ 63) :
    ((Delta.decode data).isSome ↔ Delta.Readable data) ∧
    ((Gorilla.decode data).isSome ↔
      Gorilla.CountsFit (decode (data.take 4) - 1) (data.drop 12)) ∧
    RleLz4.rleDecodeChecked data = some (RleLz4.rleDecode data) ∧
    SymbolDictionary.decodeIdsChecked data = some (SymbolDictionary.decodeIds data) ∧
    SymbolDictionary.fromMetadataChecked data = some (SymbolDictionary.fromMetadata data) ∧
    BloomFilter.fromEncodedChecked data = some (BloomFilter.fromEncoded data) ∧
    ∀ f, BloomFilter.fromEncoded data = some f → ((f.containsChecked key).isSome ↔
      f.numHashes = 0 ∨
        0 < f.numBits ∧ (f.numHashes ≤ 2 ∨ f.ProbeClear key 0 ∨ f.ProbeClear key 1)) :=
  ⟨Delta.decode_isSome_iff data, Gorilla.decode_isSome_iff data, RleLz4.rleDecodeChecked_eq hlen,
    SymbolDictionary.decodeIdsChecked_eq data, SymbolDictionary.fromMetadataChecked_eq hlen,
    BloomFilter.fromEncodedChecked_eq data,
    fun f _ => BloomFilter.containsChecked_isSome_iff f key⟩

/-- The header of a filter with one probe and no bits, and nothing behind it. -/
def noBits : Bytes := [0, 0, 0, 0, 0, 0, 0, 1, 0, 0, 0, 0]

theorem decoders_survive_noBits :
    ((Delta.decode noBits).isSome ↔ Delta.Readable noBits) ∧
    ((Gorilla.decode noBits).isSome ↔
      Gorilla.CountsFit (decode (noBits.take 4) - 1) (noBits.drop 12)) ∧
    RleLz4.rleDecodeChecked noBits = some (RleLz4.rleDecode noBits) ∧
    SymbolDictionary.decodeIdsChecked noBits = some (SymbolDictionary.decodeIds noBits) ∧
    SymbolDictionary.fromMetadataChecked noBits = some (SymbolDictionary.fromMetadata noBits) ∧
    BloomFilter.fromEncodedChecked noBits = some (BloomFilter.fromEncoded noBits) ∧
    ∀ f, BloomFilter.fromEncoded noBits = some f → ((f.containsChecked [7]).isSome ↔
      f.numHashes = 0 ∨
        0 < f.numBits ∧ (f.numHashes ≤ 2 ∨ f.ProbeClear [7] 0 ∨ f.ProbeClear [7] 1)) :=
  decoders_survive_iff noBits [7] (by decide)

/-- Two timestamps of width one with nothing behind the header, a price whose zero counts are
255 each, and a filter without bits. -/
theorem damaged_columns_panic :
    Delta.decode [0, 0, 0, 2, 0, 0, 0, 0, 0, 0, 0, 0, 1] = none ∧
    Gorilla.decode [0, 0, 0, 2, 0, 0, 0, 0, 0, 0, 0, 0, 1, 255, 255] = none ∧
    (BloomFilter.fromEncoded noBits).map (·.containsChecked [7]) = some none := by
  decide +kernel

end Graphite
