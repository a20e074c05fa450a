import Mathlib.Data.Nat.Bitwise
import Mathlib.Data.Nat.BitIndices
import Graphite.Delta

/-! The timestamp decoder on arbitrary bytes. The packed bytes are cut into fields of the
width in the header; the reader sees each field but for the bits that its 64-bit buffer had
no room for when they came in with the last byte of the field before. -/

namespace Graphite

namespace BitPacker
open BigEndian BitStream

/-- Bit `j` of field `k`; its first bits may share a byte with the field before. -/
def fieldBit (w : Nat) (packed : Bytes) (k j : Nat) : Bool :=
  decide (j < (8 - k * w % 8) % 8 → w + j < 64) && bitAt packed (k * w + j)

def field (w : Nat) (packed : Bytes) (k : Nat) : Nat :=
  Nat.ofBits fun j : Fin w => fieldBit w packed k j

theorem field_lt (w : Nat) (packed : Bytes) (k : Nat) : field w packed k < 2 ^ w :=
  Nat.ofBits_lt_two_pow _

theorem testBit_field (w : Nat) (packed : Bytes) (k j : Nat) :
    (field w packed k).testBit j = (decide (j < w) && fieldBit w packed k j) := by
  by_cases hj : j < w
  · rw [field, Nat.testBit_ofBits_lt _ _ hj, decide_eq_true hj, Bool.true_and]
  · rw [field, Nat.testBit_ofBits_ge _ _ (not_lt.mp hj), decide_eq_false hj, Bool.false_and]

/-- The reader in front of field `k`. -/
structure At (w : Nat) (packed : Bytes) (k : Nat) (r : Reader) : Prop where
  buffered : Buffered r.bitBuffer r.bitCount
  count : r.bitCount = (8 - k * w % 8) % 8
  length : k * w + r.bitCount + 8 * r.packed.length = 8 * packed.length
  bits : ∀ i, pending r.bitBuffer r.bitCount r.packed i =
    (decide (i < r.bitCount → w + i < 64) && bitAt packed (k * w + i))

theorem at_zero (w : Nat) (packed : Bytes) : At w packed 0 ⟨packed, 0, 0⟩ where
  buffered := ⟨fun i _ => Nat.zero_testBit i, fun i _ => Nat.zero_testBit i⟩
  count := by simp
  length := by simp
  bits i := by simp [pending]

theorem At.next {w : Nat} (hw : w < 64) {packed : Bytes} {k : Nat} {r : Reader}
    (h : At w packed k r) (henough : (k + 1) * w ≤ 8 * packed.length) :
    ∃ r', next w r = some (field w packed k, r') ∧ At w packed (k + 1) r' := by
  have hcount := h.count
  have hlength := h.length
  rw [Nat.succ_mul k] at henough
  obtain ⟨v, r', hnext, hbuffered, hlt, hmod, hleft, hvalue, hbits⟩ :=
    next_spec hw r h.buffered (by omega) (by omega)
  have hv : v = field w packed k := by
    apply Nat.eq_of_testBit_eq
    intro j
    rw [hvalue, testBit_field, h.bits, fieldBit, hcount]
  refine ⟨r', by rw [hnext, hv], hbuffered, ?_, ?_, fun i => ?_⟩
  · rw [Nat.succ_mul]
    omega
  · rw [Nat.succ_mul]
    omega
  · have hpast : w + i < r.bitCount → w + (w + i) < 64 := by omega
    rw [hbits, h.bits, decide_eq_true hpast, Bool.true_and, Nat.succ_mul, Nat.add_assoc]

theorem fill_short {w : Nat} (hw : w < 64) (bs : Bytes) (buf cnt : Nat)
    (hshort : cnt + 8 * bs.length < w) :
    ∃ full, fill w bs buf cnt = some ⟨[], full, cnt + 8 * bs.length⟩ := by
  induction bs generalizing buf cnt with
  | nil => exact ⟨buf, rfl⟩
  | cons b bs ih =>
    rw [List.length_cons] at hshort ⊢
    obtain ⟨full, hfull⟩ := ih (buf ||| b.toNat <<< cnt % 2 ^ 64) (cnt + 8) (by omega)
    refine ⟨full, ?_⟩
    rw [fill, if_pos (by omega), shl64_eq _ (by omega)]
    simp only [Option.bind_eq_bind, Option.bind_some]
    rw [hfull]
    congr 2
    omega

/-- With too few bits left the bit count underflows. -/
theorem At.next_short {w : Nat} (hw : w < 64) {packed : Bytes} {k : Nat} {r : Reader}
    (h : At w packed k r) (hshort : 8 * packed.length < (k + 1) * w) : BitPacker.next w r = none := by
  have hlength := h.length
  rw [Nat.succ_mul k] at hshort
  obtain ⟨full, hfull⟩ := fill_short hw r.packed r.bitBuffer r.bitCount (by omega)
  have hne : w ≠ 64 := by omega
  simp only [BitPacker.next, hfull, bind, Option.bind, if_neg hne, shl64_eq 1 hw, shr64_eq _ hw,
    Option.map]
  rw [if_neg (by omega)]

/-- A width of 64 or more is a shift too far. -/
theorem next_wide {w : Nat} (hw : 64 ≤ w) (r : Reader) : next w r = none := by
  have hshift (x : Nat) : shr64 x w = none := by rw [shr64, if_neg (by omega)]
  simp only [next, hshift]
  simp [bind]

end BitPacker

namespace Delta
open BigEndian BitPacker

/-- The range of `i64`. -/
def Fits (n : Int) : Prop := -2 ^ 63 ≤ n ∧ n < 2 ^ 63

instance (n : Int) : Decidable (Fits n) := inferInstanceAs (Decidable (_ ∧ _))

theorem fits_toInt (n : Int64) : Fits n.toInt := ⟨Int64.le_toInt n, Int64.toInt_lt n⟩

theorem checkedAdd_eq_none {a b : Int64} (h : ¬ Fits (a.toInt + b.toInt)) : checkedAdd a b = none :=
  if_neg h

theorem checkedAdd_of_fits {a b : Int64} (h : Fits (a.toInt + b.toInt)) :
    ∃ c, checkedAdd a b = some c ∧ c.toInt = a.toInt + b.toInt :=
  ⟨a + b, if_pos h, (checkedAdd_eq_some_iff a b _).mp (if_pos h)⟩

/-- The differences from `k` on and the timestamps they lead to stay in `i64`. -/
def SumsFit (d : Nat → Int) (last : Int) (n : Nat) : Prop :=
  ∀ i < n, Fits (d i) ∧ Fits (last + ((List.range (i + 1)).map d).sum)

theorem sumsFit_zero (d : Nat → Int) (last : Int) : SumsFit d last 0 :=
  fun i hi => absurd hi (Nat.not_lt_zero i)

theorem sumsFit_succ (d : Nat → Int) (last : Int) (n : Nat) :
    SumsFit d last (n + 1) ↔
      (Fits (d 0) ∧ Fits (last + d 0)) ∧ SumsFit (fun i => d (i + 1)) (last + d 0) n := by
  have hsum (i : Nat) : last + ((List.range (i + 1 + 1)).map d).sum =
      last + d 0 + ((List.range (i + 1)).map fun j => d (j + 1)).sum := by
    rw [List.range_succ_eq_map, List.map_cons, List.sum_cons, List.map_map, ← Int.add_assoc]
    rfl
  constructor
  · intro h
    refine ⟨by simpa using h 0 (by omega), fun i hi => ?_⟩
    rw [← hsum]
    exact h (i + 1) (by omega)
  · rintro ⟨hfirst, hrest⟩ i hi
    cases i with
    | zero => simpa using hfirst
    | succ i =>
      rw [hsum]
      exact hrest i (by omega)

theorem isSome_bind_cons {α : Type} (o : Option (List α)) (a : α) :
    (o.bind fun rest => some (a :: rest)).isSome = o.isSome := by cases o <;> rfl

/-- The loop ends without a panic when the packed bytes hold all the fields and no sum leaves
the range. -/
theorem decodeLoop_isSome_iff {w : Nat} (hw : w < 64) (minDelta : Int64) (packed : Bytes)
    (n k : Nat) (last : Int64) (r : Reader) (h : At w packed k r) :
    (decodeLoop w minDelta n r last).isSome ↔
      (0 < n → (k + n) * w ≤ 8 * packed.length) ∧
        SumsFit (fun i => field w packed (k + i) + minDelta.toInt) last.toInt n := by
  induction n generalizing k last r with
  | zero => simp [decodeLoop, sumsFit_zero]
  | succ n ih =>
    rw [sumsFit_succ]
    by_cases henough : (k + 1) * w ≤ 8 * packed.length
    swap
    · have hnot : ¬ (0 < n + 1 → (k + (n + 1)) * w ≤ 8 * packed.length) := by
        intro hle
        have hmono : (k + 1) * w ≤ (k + (n + 1)) * w := Nat.mul_le_mul_right w (by omega)
        exact henough (hmono.trans (hle n.succ_pos))
      simp only [decodeLoop, h.next_short hw (not_le.mp henough), hnot, false_and, iff_false]
      simp
    · obtain ⟨r', hnext, h'⟩ := h.next hw henough
      have hint : (Int64.ofNat (field w packed k)).toInt = field w packed k :=
        Int64.toInt_ofNat_of_lt (lt_of_lt_of_le (field_lt w packed k)
          (Nat.pow_le_pow_right (by omega) (by omega)))
      simp only [decodeLoop, hnext, Option.bind_eq_bind, Option.bind_some, Nat.add_zero]
      by_cases hdelta : Fits (field w packed k + minDelta.toInt)
      swap
      · rw [checkedAdd_eq_none (by rw [hint]; exact hdelta)]
        simp [hdelta]
      · obtain ⟨delta, hadd, hdeltaInt⟩ := checkedAdd_of_fits
          (a := Int64.ofNat (field w packed k)) (b := minDelta) (by rw [hint]; exact hdelta)
        rw [hint] at hdeltaInt
        rw [hadd, Option.bind_some]
        by_cases hvalue : Fits (last.toInt + (field w packed k + minDelta.toInt))
        swap
        · rw [checkedAdd_eq_none (by rw [hdeltaInt]; exact hvalue)]
          simp [hvalue]
        · obtain ⟨value, hadd', hvalueInt⟩ :=
            checkedAdd_of_fits (a := last) (b := delta) (by rw [hdeltaInt]; exact hvalue)
          have hiff := ih (k + 1) value r' h'
          rw [hvalueInt, hdeltaInt] at hiff
          have hshift : (fun i => (field w packed (k + 1 + i) : Int) + minDelta.toInt) =
              fun i => (field w packed (k + (i + 1)) : Int) + minDelta.toInt := by
            funext i
            rw [Nat.add_assoc, Nat.add_comm 1 i]
          have hroom : (0 < n → (k + 1 + n) * w ≤ 8 * packed.length) ↔
              (0 < n + 1 → (k + (n + 1)) * w ≤ 8 * packed.length) := by
            have hk : k + 1 + n = k + (n + 1) := by omega
            rw [hk]
            constructor
            · intro hle _
              rcases Nat.eq_zero_or_pos n with rfl | hn
              · exact henough
              · exact hle hn
            · intro hle _
              exact hle n.succ_pos
          rw [hadd', Option.bind_some]
          change ((decodeLoop w minDelta n r' value).bind fun rest =>
            some (value :: rest)).isSome = true ↔ _
          rw [isSome_bind_cons, hiff, hshift, hroom]
          simp [hdelta, hvalue]

/-! The fields of the header, and the packed bytes between it and the smallest delta. -/

def count (data : Bytes) : Nat := BigEndian.decode (data.take 4)

def first (data : Bytes) : Int64 := decodeI64 ((data.drop 4).take 8)

def width (data : Bytes) : Nat := BigEndian.decode ((data.drop 12).take 1)

def minDelta (data : Bytes) : Int64 := decodeI64 (data.drop (data.length - 8))

def packed (data : Bytes) : Bytes := (data.drop 13).take (data.length - 8 - 13)

/-- Bytes that the decoder gets through: a column of at most one timestamp or of width zero, or
one that has room for its smallest delta, a width below 64, all its fields, and timestamps in
the range of `i64`. -/
def Readable (data : Bytes) : Prop :=
  13 ≤ data.length → 2 ≤ count data → width data ≠ 0 →
    21 ≤ data.length ∧ width data < 64 ∧
      (count data - 1) * width data ≤ 8 * (data.length - 21) ∧
      SumsFit (fun k => field (width data) (packed data) k + (minDelta data).toInt)
        (first data).toInt (count data - 1)

theorem decode_isSome_iff (data : Bytes) : (decode data).isSome ↔ Readable data := by
  unfold Readable
  by_cases h13 : data.length < 13
  · simp only [decode, if_pos h13, Option.isSome_some, true_iff]
    omega
  · have hcount : slice data 0 4 = some (data.take 4) := by
      rw [slice, if_pos (by omega)]
      rfl
    have hfirst : slice data 4 12 = some ((data.drop 4).take 8) := by rw [slice, if_pos (by omega)]
    have hwidth : slice data 12 13 = some ((data.drop 12).take 1) := by
      rw [slice, if_pos (by omega)]
    have hmin : slice data (data.length - 8) data.length = some (data.drop (data.length - 8)) := by
      rw [slice, if_pos (by omega), List.take_of_length_le (by simp)]
    rw [decode, if_neg h13, hcount, hfirst, hwidth]
    simp only [Option.bind_eq_bind, Option.bind_some]
    change (if count data = 0 then some [] else if count data = 1 then some [first data] else
      if width data = 0 then some (List.replicate (count data) (first data)) else _).isSome ↔ _
    by_cases h0 : count data = 0
    · simp [h0]
    by_cases h1 : count data = 1
    · simp [h1]
    by_cases hw0 : width data = 0
    · simp [h0, h1, hw0]
    rw [if_neg h0, if_neg h1, if_neg hw0, hmin, Option.bind_some]
    by_cases h21 : data.length < 21
    · have hnone : slice data 13 (data.length - 8) = none := by rw [slice, if_neg (by omega)]
      simp only [hnone, Option.bind_none, Option.isSome_none, Bool.false_eq_true, false_iff]
      intro h
      have := (h (by omega) (by omega) hw0).1
      omega
    · have hpacked : slice data 13 (data.length - 8) = some (packed data) := by
        rw [slice, if_pos (by omega)]
        rfl
      have hlength : (packed data).length = data.length - 21 := by
        rw [packed, List.length_take, List.length_drop]
        omega
      rw [hpacked, Option.bind_some]
      change ((decodeLoop (width data) (minDelta data) (count data - 1) ⟨packed data, 0, 0⟩
        (first data)).bind fun rest => some (first data :: rest)).isSome = true ↔ _
      rw [isSome_bind_cons]
      by_cases hw : width data < 64
      · rw [decodeLoop_isSome_iff hw (minDelta data) (packed data) (count data - 1) 0 (first data) _
          (at_zero _ _), hlength]
        simp only [Nat.zero_add]
        constructor
        · rintro ⟨hroom, hsums⟩ _ _ _
          exact ⟨by omega, hw, hroom (by omega), hsums⟩
        · intro h
          obtain ⟨-, -, hroom, hsums⟩ := h (by omega) (by omega) hw0
          exact ⟨fun _ => hroom, hsums⟩
      · obtain ⟨n, hn⟩ : ∃ n, count data - 1 = n + 1 := ⟨count data - 2, by omega⟩
        have hnone : decodeLoop (width data) (minDelta data) (count data - 1) ⟨packed data, 0, 0⟩
            (first data) = none := by
          rw [hn, decodeLoop, next_wide (not_lt.mp hw)]
          rfl
        rw [hnone]
        simp only [Option.isSome_none, Bool.false_eq_true, false_iff]
        intro h
        exact hw (h (by omega) (by omega) hw0).2.1

end Delta

end Graphite
