import Graphite.BitStream
import Graphite.Types

/-! The bit-buffer loops of the timestamp column codec.
A `u64` buffer takes each value at the current bit count and hands out whole
bytes; the reader fills a `u64` buffer byte by byte and takes values off its low
end. Up to seven bits stay in the buffer between two values. -/

namespace Graphite.BitPacker
open BigEndian BitStream

/-- `x << n` on `u64`: bits past the word are lost, a shift by 64 or more panics. -/
def shl64 (x n : Nat) : Option Nat :=
  if n < 64 then some ((x <<< n) % 2 ^ 64) else none

/-- `x >> n` on `u64`. -/
def shr64 (x n : Nat) : Option Nat :=
  if n < 64 then some (x >>> n) else none

/-- `while bit_count >= 8`: push the low byte of the buffer and shift it out. -/
def flushBytes : (bitBuffer bitCount : Nat) → Bytes × Nat × Nat
  | bitBuffer, bitCount + 8 =>
    let rest := flushBytes (bitBuffer >>> 8) bitCount
    (UInt8.ofNat bitBuffer :: rest.1, rest.2)
  | bitBuffer, bitCount => ([], bitBuffer, bitCount)

/-- The encoder's loop over the normalized deltas, then its last partial byte. -/
def pack (bitsNeeded : Nat) : List Nat → (bitBuffer bitCount : Nat) → Option Bytes
  | [], bitBuffer, bitCount => some (if 0 < bitCount then [UInt8.ofNat bitBuffer] else [])
  | normalized :: rest, bitBuffer, bitCount => do
    let shifted ← shl64 normalized bitCount
    let flushed := flushBytes (bitBuffer ||| shifted) (bitCount + bitsNeeded)
    let tail ← pack bitsNeeded rest flushed.2.1 flushed.2.2
    return flushed.1 ++ tail

/-- The reader: unread packed bytes and the bit buffer with its count. -/
structure Reader where
  packed : Bytes
  bitBuffer : Nat
  bitCount : Nat
  deriving DecidableEq, Repr

/-- `while bit_count < bits_needed`: or in the next byte, stop when none is left. -/
def fill (bitsNeeded : Nat) : Bytes → (bitBuffer bitCount : Nat) → Option Reader
  | [], bitBuffer, bitCount => some ⟨[], bitBuffer, bitCount⟩
  | b :: bs, bitBuffer, bitCount =>
    if bitCount < bitsNeeded then do
      let shifted ← shl64 b.toNat bitCount
      fill bitsNeeded bs (bitBuffer ||| shifted) (bitCount + 8)
    else some ⟨b :: bs, bitBuffer, bitCount⟩

/-- One value off the reader: fill, mask, shift out. -/
def next (bitsNeeded : Nat) (r : Reader) : Option (Nat × Reader) := do
  let full ← fill bitsNeeded r.packed r.bitBuffer r.bitCount
  let mask ← if bitsNeeded = 64 then some (2 ^ 64 - 1) else (shl64 1 bitsNeeded).map (· - 1)
  let normalized := full.bitBuffer &&& mask
  let shifted ← shr64 full.bitBuffer bitsNeeded
  if bitsNeeded ≤ full.bitCount then
    return (normalized, ⟨full.packed, shifted, full.bitCount - bitsNeeded⟩)
  else none

def unpack (bitsNeeded : Nat) : Nat → Reader → Option (List Nat)
  | 0, _ => some []
  | n + 1, r => do
    let (normalized, r) ← next bitsNeeded r
    let rest ← unpack bitsNeeded n r
    return normalized :: rest

theorem shl64_eq (x : Nat) {n : Nat} (h : n < 64) : shl64 x n = some ((x <<< n) % 2 ^ 64) := by
  rw [shl64, if_pos h]

theorem shr64_eq (x : Nat) {n : Nat} (h : n < 64) : shr64 x n = some (x >>> n) := by
  rw [shr64, if_pos h]

theorem flushBytes_of_lt (buf : Nat) {cnt : Nat} (h : cnt < 8) : flushBytes buf cnt = ([], buf, cnt) := by
  rw [flushBytes]
  omega

theorem flushBytes_state (buf cnt : Nat) :
    (flushBytes buf cnt).2 = (buf >>> (8 * (cnt / 8)), cnt % 8) := by
  induction cnt using Nat.strong_induction_on generalizing buf with
  | _ cnt ih =>
    by_cases h : cnt < 8
    · rw [flushBytes_of_lt buf h, Nat.div_eq_of_lt h, Nat.mod_eq_of_lt h]
      rfl
    · obtain ⟨c, rfl⟩ := Nat.exists_eq_add_of_le' (not_lt.mp h)
      have e : 8 * ((c + 8) / 8) = 8 + 8 * (c / 8) := by omega
      rw [flushBytes, ih c (by omega), e, Nat.shiftRight_add, Nat.add_mod_right]

theorem flushBytes_length (buf cnt : Nat) : (flushBytes buf cnt).1.length = cnt / 8 := by
  induction cnt using Nat.strong_induction_on generalizing buf with
  | _ cnt ih =>
    by_cases h : cnt < 8
    · rw [flushBytes_of_lt buf h, Nat.div_eq_of_lt h]
      rfl
    · obtain ⟨c, rfl⟩ := Nat.exists_eq_add_of_le' (not_lt.mp h)
      rw [flushBytes, List.length_cons, ih c (by omega)]
      omega

/-- The bytes handed out hold the low bits of the buffer. -/
theorem flushBytes_bitAt (buf cnt i : Nat) :
    bitAt (flushBytes buf cnt).1 i = (decide (i < 8 * (cnt / 8)) && buf.testBit i) := by
  induction cnt using Nat.strong_induction_on generalizing buf i with
  | _ cnt ih =>
    by_cases h : cnt < 8
    · rw [flushBytes_of_lt buf h, Nat.div_eq_of_lt h]
      simp
    · obtain ⟨c, rfl⟩ := Nat.exists_eq_add_of_le' (not_lt.mp h)
      rw [flushBytes, bitAt_cons, ih c (by omega), testBit_toNat_ofNat, Nat.testBit_shiftRight]
      split_ifs with hi
      · have : i < 8 * ((c + 8) / 8) := by omega
        rw [decide_eq_true this, decide_eq_true hi]
      · have e : 8 + (i - 8) = i := by omega
        have : i - 8 < 8 * (c / 8) ↔ i < 8 * ((c + 8) / 8) := by omega
        simp [e, this]

/-- Bit `i` of the packed stream of `values`, the first one placed at buffer
position `c`: what lies past bit 63 of the buffer is lost. -/
def packedBit (w : Nat) : List Nat → (c i : Nat) → Bool
  | [], _, _ => false
  | v :: vs, c, i =>
    if i < w then v.testBit i && decide (c + i < 64) else packedBit w vs ((c + w) % 8) (i - w)

variable {w : Nat}

/-- The encoder writes the pending buffer bits, then the packed stream. -/
theorem pack_spec (hw : w < 64) (vs : List Nat) (hvs : ∀ v ∈ vs, v < 2 ^ w)
    (buf c : Nat) (hc : c < 8) (hbuf : buf < 2 ^ c) :
    ∃ out, pack w vs buf c = some out ∧ c + w * vs.length ≤ 8 * out.length ∧
      ∀ i, bitAt out i = if i < c then buf.testBit i else packedBit w vs c (i - c) := by
  induction vs generalizing buf c with
  | nil =>
    refine ⟨_, rfl, ?_, fun i => ?_⟩
    · split_ifs <;> simp <;> omega
    · by_cases hi : i < c
      · have hpos : 0 < c := by omega
        have h8 : i < 8 := by omega
        rw [if_pos hpos, if_pos hi, bitAt_cons, if_pos h8, testBit_toNat_ofNat]
        simp [h8]
      · rw [if_neg hi, packedBit]
        split_ifs with hpos
        · have hb : buf.testBit i = false :=
            Nat.testBit_eq_false_of_lt
              (lt_of_lt_of_le hbuf (Nat.pow_le_pow_right (by omega) (by omega)))
          rw [bitAt_cons, testBit_toNat_ofNat, hb]
          simp
        · rfl
  | cons v vs ih =>
    have hv : v < 2 ^ w := hvs v (by simp)
    set full := buf ||| (v <<< c) % 2 ^ 64 with hfull
    have hbit : ∀ i, full.testBit i =
        if i < c then buf.testBit i else decide (i < 64) && v.testBit (i - c) := by
      intro i
      rw [hfull, Nat.testBit_or, Nat.testBit_mod_two_pow, Nat.testBit_shiftLeft]
      split_ifs with hi
      · have : ¬ i ≥ c := by omega
        simp [this]
      · have hb : buf.testBit i = false :=
          Nat.testBit_eq_false_of_lt
            (lt_of_lt_of_le hbuf (Nat.pow_le_pow_right (by omega) (by omega)))
        have : i ≥ c := by omega
        simp [hb, this]
    have hnew : full >>> (8 * ((c + w) / 8)) < 2 ^ ((c + w) % 8) := by
      apply Nat.lt_pow_two_of_testBit
      intro i hi
      rw [Nat.testBit_shiftRight, hbit, if_neg (by omega)]
      have : v.testBit (8 * ((c + w) / 8) + i - c) = false :=
        Nat.testBit_eq_false_of_lt
          (lt_of_lt_of_le hv (Nat.pow_le_pow_right (by omega) (by omega)))
      rw [this, Bool.and_false]
    obtain ⟨tail, htail, hlen, hbits⟩ :=
      ih (fun u hu => hvs u (by simp [hu])) _ ((c + w) % 8) (Nat.mod_lt _ (by omega)) hnew
    refine ⟨(flushBytes full (c + w)).1 ++ tail, ?_, ?_, ?_⟩
    · rw [pack, shl64_eq _ (by omega : c < 64)]
      simp only [bind, Option.bind, pure, flushBytes_state]
      rw [← hfull, htail]
    · rw [List.length_append, flushBytes_length, List.length_cons, Nat.mul_succ]
      omega
    · intro i
      rw [bitAt_append, flushBytes_length, flushBytes_bitAt, hbits, packedBit]
      by_cases h1 : i < 8 * ((c + w) / 8)
      · rw [if_pos h1, hbit]
        by_cases h2 : i < c
        · simp [h1, h2]
        · have h3 : i - c < w := by omega
          have h4 : c + (i - c) = i := by omega
          rw [if_neg h2, if_neg h2, if_pos h3, h4]
          simp [h1, Bool.and_comm]
      · rw [if_neg h1, Nat.testBit_shiftRight]
        have e1 : 8 * ((c + w) / 8) + (i - 8 * ((c + w) / 8)) = i := by omega
        rw [e1, hbit]
        by_cases h2 : i - 8 * ((c + w) / 8) < (c + w) % 8
        · rw [if_pos h2]
          by_cases h3 : i < c
          · rw [if_pos h3, if_pos h3]
          · have h4 : i - c < w := by omega
            have h5 : c + (i - c) = i := by omega
            rw [if_neg h3, if_neg h3, if_pos h4, h5, Bool.and_comm]
        · have h3 : ¬ i < c := by omega
          have h4 : ¬ i - c < w := by omega
          have e2 : i - 8 * ((c + w) / 8) - (c + w) % 8 = i - c - w := by omega
          rw [if_neg h2, if_neg h3, if_neg h4, e2]

/-- A 64-bit buffer whose bits from `cnt` on are clear. -/
structure Buffered (buf cnt : Nat) : Prop where
  high : ∀ i, cnt ≤ i → buf.testBit i = false
  word : ∀ i, 64 ≤ i → buf.testBit i = false

theorem Buffered.testBit_eq {buf cnt : Nat} (h : Buffered buf cnt) (bs : Bytes) (i : Nat) :
    buf.testBit i = (decide (i < cnt) && decide (i < 64) && pending buf cnt bs i) := by
  by_cases h1 : i < cnt
  · by_cases h2 : i < 64
    · rw [pending, if_pos h1, decide_eq_true h1, decide_eq_true h2]
      rfl
    · rw [h.word i (by omega), decide_eq_false h2, Bool.and_false, Bool.false_and]
  · rw [h.high i (by omega), decide_eq_false h1, Bool.false_and, Bool.false_and]

/-- The buffer after one more byte is shifted in at `cnt`. -/
def load (buf cnt : Nat) (b : UInt8) : Nat := buf ||| (b.toNat <<< cnt) % 2 ^ 64

theorem Buffered.load_testBit {buf cnt : Nat} (h : Buffered buf cnt) (b : UInt8) (i : Nat) :
    (load buf cnt b).testBit i =
      if i < cnt then buf.testBit i else decide (i < 64) && b.toNat.testBit (i - cnt) := by
  rw [load, Nat.testBit_or, Nat.testBit_mod_two_pow, Nat.testBit_shiftLeft]
  split_ifs with hi
  · have : ¬ i ≥ cnt := by omega
    simp [this]
  · have : i ≥ cnt := by omega
    simp [h.high i (by omega), this]

theorem Buffered.load {buf cnt : Nat} (h : Buffered buf cnt) (hcnt : cnt < 64) (b : UInt8) :
    Buffered (load buf cnt b) (cnt + 8) where
  high i hi := by
    rw [h.load_testBit, if_neg (by omega), testBit_byte_of_le b (by omega), Bool.and_false]
  word i hi := by
    rw [h.load_testBit, if_neg (by omega), decide_eq_false (by omega), Bool.false_and]

/-- Loading a byte keeps the pending bits, but for those it pushes past bit 63. -/
theorem Buffered.pending_load {buf cnt : Nat} (h : Buffered buf cnt) (b : UInt8) (bs : Bytes)
    {i : Nat} (hi : i < 64 ∨ cnt + 8 ≤ i) :
    pending (BitPacker.load buf cnt b) (cnt + 8) bs i = pending buf cnt (b :: bs) i := by
  rw [pending, pending, h.load_testBit, bitAt_cons]
  by_cases h1 : i < cnt
  · rw [if_pos (by omega), if_pos h1, if_pos h1]
  · by_cases h2 : i < cnt + 8
    · have h3 : i < 64 := by omega
      rw [if_pos h2, if_neg h1, if_neg h1, if_pos (by omega), decide_eq_true h3, Bool.true_and]
    · have e : i - cnt - 8 = i - (cnt + 8) := by omega
      rw [if_neg h2, if_neg h1, if_neg (by omega), e]

/-- Filling reads whole bytes until a value is complete; bits past 63 are lost. -/
theorem fill_spec (hw : w < 64) (bs : Bytes) (buf cnt : Nat) (h : Buffered buf cnt)
    (henough : w ≤ cnt + 8 * bs.length) :
    ∃ r, fill w bs buf cnt = some r ∧ w ≤ r.bitCount ∧ cnt ≤ r.bitCount ∧
      (r.bitCount = cnt ∨ r.bitCount < w + 8) ∧ r.bitCount % 8 = cnt % 8 ∧
      r.bitCount + 8 * r.packed.length = cnt + 8 * bs.length ∧
      (∀ i, r.bitBuffer.testBit i =
        (decide (i < r.bitCount) && decide (i < 64) && pending buf cnt bs i)) ∧
      ∀ i, r.bitCount ≤ i → bitAt r.packed (i - r.bitCount) = pending buf cnt bs i := by
  induction bs generalizing buf cnt with
  | nil =>
    have hcnt : w ≤ cnt := by simpa using henough
    refine ⟨_, rfl, hcnt, le_refl _, Or.inl rfl, rfl, rfl, h.testBit_eq [], fun i hi => ?_⟩
    rw [pending, if_neg (not_lt.mpr hi)]
  | cons b bs ih =>
    by_cases hcnt : cnt < w
    · have hlen : w ≤ cnt + 8 + 8 * bs.length := by
        rw [List.length_cons] at henough
        omega
      obtain ⟨r, hr, hfull, hge, hmany, hmod, hlength, hbuf, hrest⟩ :=
        ih _ (cnt + 8) (h.load (by omega) b) hlen
      refine ⟨r, ?_, hfull, by omega, by omega, by omega, ?_, fun i => ?_, fun i hi => ?_⟩
      · rw [fill, if_pos hcnt, shl64_eq _ (by omega : cnt < 64)]
        exact hr
      · rw [List.length_cons]
        omega
      · rw [hbuf]
        by_cases h64 : i < 64
        · rw [h.pending_load b bs (Or.inl h64)]
        · rw [decide_eq_false h64, Bool.and_false, Bool.false_and, Bool.false_and]
      · rw [hrest i hi, h.pending_load b bs (Or.inr (by omega))]
    · have hcnt' : w ≤ cnt := not_lt.mp hcnt
      refine ⟨⟨b :: bs, buf, cnt⟩, ?_, hcnt', le_refl _, Or.inl rfl, rfl, rfl,
        h.testBit_eq (b :: bs), fun i hi => ?_⟩
      · rw [fill, if_neg hcnt]
      · rw [pending, if_neg (not_lt.mpr hi)]

/-- One step of the reader: the value is the low `w` pending bits, and the bits left
in the buffer are those that were not pushed past bit 63 while filling it. -/
theorem next_spec (hw : w < 64) (r : Reader) (h : Buffered r.bitBuffer r.bitCount)
    (hcnt : r.bitCount < 8) (henough : w ≤ r.bitCount + 8 * r.packed.length) :
    ∃ v r', next w r = some (v, r') ∧ Buffered r'.bitBuffer r'.bitCount ∧ r'.bitCount < 8 ∧
      (r'.bitCount + w) % 8 = r.bitCount % 8 ∧
      w + r'.bitCount + 8 * r'.packed.length = r.bitCount + 8 * r.packed.length ∧
      (∀ j, v.testBit j = (decide (j < w) && pending r.bitBuffer r.bitCount r.packed j)) ∧
      ∀ i, pending r'.bitBuffer r'.bitCount r'.packed i =
        ((decide (i < r'.bitCount → w + i < 64)) &&
          pending r.bitBuffer r.bitCount r.packed (w + i)) := by
  obtain ⟨f, hf, hfull, hge, hmany, hmod, hlength, hbuf, hrest⟩ :=
    fill_spec hw r.packed r.bitBuffer r.bitCount h henough
  refine ⟨f.bitBuffer &&& (2 ^ w - 1), ⟨f.packed, f.bitBuffer >>> w, f.bitCount - w⟩,
    ?_, ⟨fun i hi => ?_, fun i hi => ?_⟩, ?_, ?_, ?_, fun j => ?_, fun i => ?_⟩
  · have hone : (1 <<< w) % 2 ^ 64 = 2 ^ w := by
      rw [Nat.one_shiftLeft, Nat.mod_eq_of_lt (Nat.pow_lt_pow_right (by omega) hw)]
    have hne : w ≠ 64 := by omega
    simp only [next, hf, bind, Option.bind, if_neg hne, shl64_eq 1 hw, shr64_eq _ hw,
      Option.map, hone, if_pos hfull, pure]
  · have hi' : ¬ w + i < f.bitCount := by
      simp only at hi
      omega
    rw [Nat.testBit_shiftRight, hbuf, decide_eq_false hi', Bool.false_and, Bool.false_and]
  · have hi' : ¬ w + i < 64 := by omega
    rw [Nat.testBit_shiftRight, hbuf, decide_eq_false hi', Bool.and_false, Bool.false_and]
  · simp only
    omega
  · simp only
    omega
  · simp only
    omega
  · rw [Nat.testBit_and, Nat.testBit_two_pow_sub_one, hbuf]
    by_cases hj : j < w
    · have h1 : j < f.bitCount := by omega
      have h2 : j < 64 := by omega
      rw [decide_eq_true hj, decide_eq_true h1, decide_eq_true h2, Bool.and_true]
      rfl
    · rw [decide_eq_false hj, Bool.and_false, Bool.false_and]
  · simp only [pending, Nat.testBit_shiftRight]
    by_cases hi : i < f.bitCount - w
    · have h1 : w + i < f.bitCount := by omega
      have hpend := hbuf (w + i)
      rw [decide_eq_true h1, Bool.true_and] at hpend
      rw [if_pos hi, hpend]
      simp [hi, pending]
    · have hge' : f.bitCount ≤ w + i := by omega
      have hpend := hrest (w + i) hge'
      have e : w + i - f.bitCount = i - (f.bitCount - w) := by omega
      rw [e] at hpend
      rw [if_neg hi, hpend]
      simp [hi, pending]

/-- No set bit of any value is pushed past bit 63 of the 64-bit buffer, neither by the
encoder, which places the value at bit `c`, nor by the reader, which keeps the value's
low bits that share a byte with the value before it. -/
def Survives (w : Nat) : (c : Nat) → List Nat → Prop
  | _, [] => True
  | c, v :: vs =>
    (∀ j < w, v.testBit j = true → c + j < 64 ∧ (j < (8 - c) % 8 → w + j < 64)) ∧
      Survives w ((c + w) % 8) vs

instance decidableSurvives (w : Nat) : (c : Nat) → (vs : List Nat) → Decidable (Survives w c vs)
  | _, [] => inferInstanceAs (Decidable True)
  | c, _ :: vs =>
    have := decidableSurvives w ((c + w) % 8) vs
    inferInstanceAs (Decidable (_ ∧ _))

/-- Up to 57 bits, seven leftover bits and a value fit the buffer. -/
theorem survives_of_le (hw : w ≤ 57) (c : Nat) (hc : c < 8) (vs : List Nat) : Survives w c vs := by
  induction vs generalizing c with
  | nil => trivial
  | cons v vs ih =>
    refine ⟨fun j hj _ => ⟨by omega, fun _ => by omega⟩, ih _ (Nat.mod_lt _ (by omega))⟩

/-- Reading the packed stream never panics, and gives the values back exactly when
none of their bits is lost. -/
theorem unpack_iff (hw : w < 64) (vs : List Nat) (hvs : ∀ v ∈ vs, v < 2 ^ w) (r : Reader)
    (c : Nat) (hc : c < 8) (h : Buffered r.bitBuffer r.bitCount)
    (hcnt : r.bitCount = (8 - c) % 8)
    (henough : w * vs.length ≤ r.bitCount + 8 * r.packed.length)
    (hpend : ∀ i, pending r.bitBuffer r.bitCount r.packed i =
      (decide (i < r.bitCount → w + i < 64) && packedBit w vs c i)) :
    (∃ us, unpack w vs.length r = some us) ∧
      (unpack w vs.length r = some vs ↔ Survives w c vs) := by
  induction vs generalizing r c with
  | nil => exact ⟨⟨[], rfl⟩, by simp [unpack, Survives]⟩
  | cons v vs ih =>
    rw [List.length_cons, Nat.mul_succ] at henough
    obtain ⟨u, r', hnext, h', hcnt', hmod, hlength, hvalue, hpend'⟩ :=
      next_spec hw r h (by omega) (by omega)
    have hc' : (c + w) % 8 < 8 := Nat.mod_lt _ (by omega)
    have htail : ∀ i, pending r'.bitBuffer r'.bitCount r'.packed i =
        (decide (i < r'.bitCount → w + i < 64) && packedBit w vs ((c + w) % 8) i) := by
      intro i
      have hpast : ¬ w + i < w := by omega
      have hsmall : w + i < r.bitCount → w + (w + i) < 64 := by omega
      rw [hpend', hpend, packedBit, if_neg hpast, decide_eq_true hsmall, Bool.true_and,
        Nat.add_sub_cancel_left]
    obtain ⟨⟨us, hus⟩, hiff⟩ := ih (fun x hx => hvs x (by simp [hx])) r' ((c + w) % 8) hc' h'
      (by omega) (by omega) htail
    have hstep : unpack w (v :: vs).length r = (unpack w vs.length r').map (u :: ·) := by
      rw [List.length_cons, unpack, hnext]
      simp only [Option.bind_eq_bind, Option.bind_some]
      cases unpack w vs.length r' <;> rfl
    have hbits : ∀ j, u.testBit j = (decide (j < w) &&
        (decide (j < r.bitCount → w + j < 64) && (v.testBit j && decide (c + j < 64)))) := by
      intro j
      rw [hvalue, hpend]
      by_cases hj : j < w
      · rw [packedBit, if_pos hj]
      · rw [decide_eq_false hj, Bool.false_and, Bool.false_and]
    have huv : u = v ↔
        ∀ j < w, v.testBit j = true → c + j < 64 ∧ (j < (8 - c) % 8 → w + j < 64) := by
      rw [← hcnt]
      constructor
      · intro e j hj hset
        have hb := hbits j
        rw [e, hset] at hb
        simp only [hj, decide_true, Bool.true_and, Bool.and_eq_true, decide_eq_true_eq,
          Bool.true_eq] at hb
        exact ⟨hb.2, hb.1⟩
      · intro hkeep
        have hu : u < 2 ^ w := by
          apply Nat.lt_pow_two_of_testBit
          intro j hj
          rw [hbits, decide_eq_false (by omega), Bool.false_and]
        refine eq_of_testBit_lt hu (hvs v (by simp)) fun j hj => ?_
        rw [hbits, decide_eq_true hj, Bool.true_and]
        cases hset : v.testBit j with
        | false => rw [Bool.false_and, Bool.and_false]
        | true =>
          obtain ⟨h1, h2⟩ := hkeep j hj hset
          rw [decide_eq_true h1, decide_eq_true h2]
          rfl
    refine ⟨⟨u :: us, by rw [hstep, hus]; rfl⟩, ?_⟩
    rw [hstep, Survives, ← hiff, ← huv, Option.map_eq_some_iff]
    constructor
    · rintro ⟨xs, hxs, e⟩
      obtain ⟨rfl, rfl⟩ := List.cons.inj e
      exact ⟨rfl, hxs⟩
    · rintro ⟨rfl, hxs⟩
      exact ⟨vs, hxs, rfl⟩

/-- Packing from an empty buffer and reading back: neither loop panics, and the values
come back exactly when none of their bits is pushed past the buffer. -/
theorem unpack_pack_iff (hw : w < 64) (vs : List Nat) (hvs : ∀ v ∈ vs, v < 2 ^ w) :
    ∃ out, pack w vs 0 0 = some out ∧ (∃ us, unpack w vs.length ⟨out, 0, 0⟩ = some us) ∧
      (unpack w vs.length ⟨out, 0, 0⟩ = some vs ↔ Survives w 0 vs) := by
  obtain ⟨out, hout, hlen, hbits⟩ := pack_spec hw vs hvs 0 0 (by omega) (by simp)
  refine ⟨out, hout, unpack_iff hw vs hvs ⟨out, 0, 0⟩ 0 (by omega)
    ⟨fun i _ => Nat.zero_testBit i, fun i _ => Nat.zero_testBit i⟩ rfl (by simpa using hlen)
    fun i => ?_⟩
  simpa [pending] using hbits i

end Graphite.BitPacker
