import Graphite.BitPacker

/-! Delta encoding and bit packing of the timestamp column.
The deltas start with the first timestamp itself, so that it takes part in the
range that fixes the bit width; only the later deltas are packed. Arithmetic on
`i64` is checked: an overflow panics. -/

namespace Graphite.Delta
open BigEndian BitPacker

/-- `timestamps[i] - timestamps[i - 1]` for `i` from 1 on. -/
def differences : List Int64 → Option (List Int64)
  | a :: b :: rest => do
    let delta ← checkedSub b a
    let deltas ← differences (b :: rest)
    return delta :: deltas
  | _ => some []

def minI64 (a b : Int64) : Int64 := if a ≤ b then a else b

def maxI64 (a b : Int64) : Int64 := if a ≤ b then b else a

def encode : List Int64 → Option Bytes
  | [] => some [0, 0, 0, 0]
  | first :: rest => do
    let deltas ← differences (first :: rest)
    let minDelta := deltas.foldl minI64 first
    let maxDelta := deltas.foldl maxI64 first
    let range ← checkedSub maxDelta minDelta
    let bitsNeeded := if range = 0 then 0 else 64 - leadingZeros range.toUInt64
    let buf := BigEndian.encode 4 (first :: rest).length ++ encodeI64 first ++
      [UInt8.ofNat bitsNeeded]
    if bitsNeeded = 0 then return buf
    let normalized ← deltas.mapM fun delta =>
      (checkedSub delta minDelta).map fun n => n.toUInt64.toNat
    let packed ← pack bitsNeeded normalized 0 0
    return buf ++ packed ++ encodeI64 minDelta

/-- The decoder's loop: a value off the reader, a delta, the next timestamp. -/
def decodeLoop (bitsNeeded : Nat) (minDelta : Int64) : Nat → Reader → Int64 → Option (List Int64)
  | 0, _, _ => some []
  | n + 1, r, last => do
    let (normalized, r) ← next bitsNeeded r
    let delta ← checkedAdd (Int64.ofNat normalized) minDelta
    let value ← checkedAdd last delta
    let rest ← decodeLoop bitsNeeded minDelta n r value
    return value :: rest

def decode (data : Bytes) : Option (List Int64) :=
  if data.length < 13 then some []
  else do
    let count := BigEndian.decode (← slice data 0 4)
    let first := decodeI64 (← slice data 4 12)
    let bitsNeeded := BigEndian.decode (← slice data 12 13)
    if count = 0 then some []
    else if count = 1 then some [first]
    else if bitsNeeded = 0 then some (List.replicate count first)
    else do
      let minDeltaOffset := data.length - 8
      let minDelta := decodeI64 (← slice data minDeltaOffset data.length)
      let packedData ← slice data 13 minDeltaOffset
      let rest ← decodeLoop bitsNeeded minDelta (count - 1) ⟨packedData, 0, 0⟩ first
      return first :: rest

/-- Consecutive differences, as integers. -/
def intDifferences : List Int64 → List Int
  | a :: b :: rest => (b.toInt - a.toInt) :: intDifferences (b :: rest)
  | _ => []

/-- The smallest delta of a column starting with `first`, the first timestamp included. -/
def lowest (first : Int64) (diffs : List Int) : Int := diffs.foldl min first.toInt

def highest (first : Int64) (diffs : List Int) : Int := diffs.foldl max first.toInt

/-- When the timestamp codec gives a column back: at most one timestamp, or a range
of deltas (the first timestamp among them) that fits `i64` and either is zero with
every timestamp zero, or leaves no packed bit outside the 64-bit buffer. -/
def Lossless : List Int64 → Prop
  | first :: second :: rest =>
    let diffs := intDifferences (first :: second :: rest)
    let lo := lowest first diffs
    let hi := highest first diffs
    hi - lo < 2 ^ 63 ∧
      if hi = lo then first = 0
      else Survives ((hi - lo).toNat.log2 + 1) 0 (diffs.map fun d => (d - lo).toNat)
  | _ => True

instance (ts : List Int64) : Decidable (Lossless ts) :=
  match ts with
  | [] => inferInstanceAs (Decidable True)
  | [_] => inferInstanceAs (Decidable True)
  | _ :: _ :: _ => inferInstanceAs (Decidable (_ ∧ _))

/-- `i64` holds every consecutive difference and the spread of these differences. -/
def DifferencesFit (ts : List Int64) : Prop :=
  (∀ d ∈ intDifferences ts, -2 ^ 63 ≤ d ∧ d < 2 ^ 63) ∧
    ∀ d ∈ intDifferences ts, ∀ e ∈ intDifferences ts, d - e < 2 ^ 63

@[simp] theorem toInt_minI64 (a b : Int64) : (minI64 a b).toInt = min a.toInt b.toInt := by
  simp only [minI64, Int64.le_iff_toInt_le]
  split_ifs <;> omega

@[simp] theorem toInt_maxI64 (a b : Int64) : (maxI64 a b).toInt = max a.toInt b.toInt := by
  simp only [maxI64, Int64.le_iff_toInt_le]
  split_ifs <;> omega

theorem toInt_foldl_min (ds : List Int64) (a : Int64) :
    (ds.foldl minI64 a).toInt = (ds.map Int64.toInt).foldl min a.toInt := by
  induction ds generalizing a with
  | nil => rfl
  | cons d ds ih => simp [ih]

theorem toInt_foldl_max (ds : List Int64) (a : Int64) :
    (ds.foldl maxI64 a).toInt = (ds.map Int64.toInt).foldl max a.toInt := by
  induction ds generalizing a with
  | nil => rfl
  | cons d ds ih => simp [ih]

theorem foldl_min_le (ds : List Int) (a : Int) :
    ds.foldl min a ≤ a ∧ ∀ d ∈ ds, ds.foldl min a ≤ d := by
  induction ds generalizing a with
  | nil => simp
  | cons d ds ih =>
    obtain ⟨h1, h2⟩ := ih (min a d)
    simp only [List.foldl_cons, List.mem_cons, forall_eq_or_imp]
    exact ⟨by omega, by omega, h2⟩

theorem le_foldl_max (ds : List Int) (a : Int) :
    a ≤ ds.foldl max a ∧ ∀ d ∈ ds, d ≤ ds.foldl max a := by
  induction ds generalizing a with
  | nil => simp
  | cons d ds ih =>
    obtain ⟨h1, h2⟩ := ih (max a d)
    simp only [List.foldl_cons, List.mem_cons, forall_eq_or_imp]
    exact ⟨by omega, by omega, h2⟩

theorem differences_of_fit (ts : List Int64)
    (h : ∀ d ∈ intDifferences ts, -2 ^ 63 ≤ d ∧ d < 2 ^ 63) :
    ∃ ds, differences ts = some ds ∧ ds.map Int64.toInt = intDifferences ts := by
  induction ts with
  | nil => exact ⟨[], rfl, rfl⟩
  | cons a ts ih =>
    cases ts with
    | nil => exact ⟨[], rfl, rfl⟩
    | cons b rest =>
      rw [intDifferences] at h
      obtain ⟨ds, hds, hmap⟩ := ih fun d hd => h d (by simp [hd])
      obtain ⟨hlo, hhi⟩ := h (b.toInt - a.toInt) (by simp)
      have hsub : checkedSub b a = some (b - a) := by
        rw [checkedSub, if_pos ⟨hlo, hhi⟩]
      have hint := (checkedSub_eq_some_iff b a (b - a)).mp hsub
      refine ⟨(b - a) :: ds, ?_, ?_⟩
      · rw [differences, hsub, hds]
        rfl
      · rw [List.map_cons, hint, hmap, intDifferences]

theorem length_intDifferences (first : Int64) (rest : List Int64) :
    (intDifferences (first :: rest)).length = rest.length := by
  induction rest generalizing first with
  | nil => rfl
  | cons b rest ih => rw [intDifferences, List.length_cons, ih, List.length_cons]

theorem normalize_of_fit (ds : List Int64) (lo : Int64)
    (h : ∀ d ∈ ds.map Int64.toInt, lo.toInt ≤ d ∧ d - lo.toInt < 2 ^ 63) :
    (ds.mapM fun d => (checkedSub d lo).map fun n => n.toUInt64.toNat) =
      some ((ds.map Int64.toInt).map fun d => (d - lo.toInt).toNat) := by
  induction ds with
  | nil => rfl
  | cons d ds ih =>
    obtain ⟨hlo, hhi⟩ := h d.toInt (by simp)
    have hsub : checkedSub d lo = some (d - lo) := by
      rw [checkedSub, if_pos ⟨by omega, hhi⟩]
    have hint := (checkedSub_eq_some_iff d lo (d - lo)).mp hsub
    have hnat : (d - lo).toUInt64.toNat = (d.toInt - lo.toInt).toNat := by
      rw [Int64.toNat_toUInt64_of_le, ← Int64.toNat_toInt, hint]
      rw [Int64.le_iff_toInt_le, hint, Int64.toInt_zero]
      omega
    rw [List.mapM_cons, ih fun d hd => h d (by simp [hd]), hsub]
    simp only [Option.map_some, Option.bind_eq_bind, Option.bind_some, Option.pure_def,
      List.map_cons, hnat]

theorem bitsNeeded_of_pos (range : Int64) (h : 0 < range.toInt) :
    64 - leadingZeros range.toUInt64 = range.toInt.toNat.log2 + 1 ∧
      range.toInt.toNat.log2 + 1 < 64 := by
  have hle : (0 : Int64) ≤ range := by
    rw [Int64.le_iff_toInt_le, Int64.toInt_zero]
    omega
  have hnat : range.toUInt64.toNat = range.toInt.toNat := by
    rw [Int64.toNat_toUInt64_of_le hle, ← Int64.toNat_toInt]
  have hne : range.toUInt64 ≠ 0 := by
    intro h0
    have hzero : range.toUInt64.toNat = 0 := by rw [h0]; rfl
    omega
  have hlt := Int64.toInt_lt range
  have hlog : range.toInt.toNat.log2 < 63 := (Nat.log2_lt (by omega)).mpr (by omega)
  rw [leadingZeros, if_neg hne, hnat]
  omega

theorem next_lt {w : Nat} (hw : w < 64) {r r' : Reader} {v : Nat}
    (h : next w r = some (v, r')) : v < 2 ^ w := by
  have hone : (1 <<< w) % 2 ^ 64 = 2 ^ w := by
    rw [Nat.one_shiftLeft, Nat.mod_eq_of_lt (Nat.pow_lt_pow_right (by omega) hw)]
  have hne : w ≠ 64 := by omega
  simp only [next, bind, Option.bind, if_neg hne, shl64_eq 1 hw, shr64_eq _ hw, Option.map,
    hone, pure] at h
  cases hf : fill w r.packed r.bitBuffer r.bitCount with
  | none => simp [hf] at h
  | some f =>
    rw [hf] at h
    dsimp only at h
    split_ifs at h
    simp only [Option.some.injEq, Prod.mk.injEq] at h
    rw [← h.1]
    exact Nat.and_lt_two_pow _ (by have := Nat.two_pow_pos w; omega)

/-- The decoder rebuilds the timestamps exactly when the reader gives the normalized
deltas back. -/
theorem decodeLoop_iff {w : Nat} (hw : w < 64) (lo last : Int64) (rest : List Int64) (r : Reader)
    (hfit : ∀ d ∈ intDifferences (last :: rest), lo.toInt ≤ d ∧ d < 2 ^ 63)
    (hread : ∃ us, unpack w rest.length r = some us) :
    decodeLoop w lo rest.length r last = some rest ↔
      unpack w rest.length r =
        some ((intDifferences (last :: rest)).map fun d => (d - lo.toInt).toNat) := by
  induction rest generalizing last r with
  | nil => simp [decodeLoop, unpack, intDifferences]
  | cons b rest ih =>
    rw [intDifferences] at hfit ⊢
    obtain ⟨hlo, hhi⟩ := hfit (b.toInt - last.toInt) (by simp)
    obtain ⟨us, hus⟩ := hread
    rw [List.length_cons, unpack] at hus
    cases hnext : next w r with
    | none => simp [hnext] at hus
    | some p =>
      obtain ⟨u, r'⟩ := p
      have hu : u < 2 ^ 63 :=
        lt_of_lt_of_le (next_lt hw hnext) (Nat.pow_le_pow_right (by omega) (by omega))
      rw [hnext] at hus
      simp only [Option.bind_eq_bind, Option.bind_some] at hus
      cases hread' : unpack w rest.length r' with
      | none => simp [hread'] at hus
      | some us' =>
        have huint : (Int64.ofNat u).toInt = u := Int64.toInt_ofNat_of_lt hu
        have hbound := Int64.toInt_lt b
        have hbound' := Int64.le_toInt b
        have hbound'' := Int64.le_toInt lo
        have iht := ih b r' (fun d hd => hfit d (by simp [hd])) ⟨us', hread'⟩
        have hhead : (∃ delta, checkedAdd (Int64.ofNat u) lo = some delta ∧
            checkedAdd last delta = some b) ↔ u = (b.toInt - last.toInt - lo.toInt).toNat := by
          constructor
          · rintro ⟨delta, h1, h2⟩
            rw [checkedAdd_eq_some_iff] at h1 h2
            omega
          · intro h
            have h1 : checkedAdd (Int64.ofNat u) lo = some (Int64.ofNat u + lo) := by
              rw [checkedAdd, if_pos (by omega)]
            have h1' := (checkedAdd_eq_some_iff _ _ _).mp h1
            refine ⟨_, h1, ?_⟩
            rw [checkedAdd_eq_some_iff]
            omega
        rw [List.length_cons, decodeLoop, unpack, hnext]
        simp only [Option.bind_eq_bind, Option.bind_some, List.map_cons]
        rw [hread'] at iht ⊢
        simp only [Option.bind_some, pure, Option.some.injEq, List.cons.injEq] at iht ⊢
        rw [← hhead, ← iht]
        constructor
        · intro h
          simp only [Option.bind_eq_some_iff, Option.some.injEq, List.cons.injEq] at h
          obtain ⟨delta, h1, value, h2, tail, h3, rfl, rfl⟩ := h
          exact ⟨⟨delta, h1, h2⟩, h3⟩
        · rintro ⟨⟨delta, h1, h2⟩, h3⟩
          simp only [h1, h2, h3, Option.bind_some]

/-- The three header fields, whatever follows them. -/
theorem slice_header (n w : Nat) (first : Int64) (tail : Bytes) :
    let data := BigEndian.encode 4 n ++ encodeI64 first ++ [UInt8.ofNat w] ++ tail
    slice data 0 4 = some (BigEndian.encode 4 n) ∧ slice data 4 12 = some (encodeI64 first) ∧
      slice data 12 13 = some [UInt8.ofNat w] := by
  refine ⟨?_, ?_, ?_⟩
  · simpa using slice_append [] (BigEndian.encode 4 n)
      (encodeI64 first ++ [UInt8.ofNat w] ++ tail) 0 4 rfl (by simp)
  · simpa using slice_append (BigEndian.encode 4 n) (encodeI64 first)
      ([UInt8.ofNat w] ++ tail) 4 12 (by simp) (by simp)
  · exact slice_append (BigEndian.encode 4 n ++ encodeI64 first) [UInt8.ofNat w] tail 12 13
      (by simp) (by simp)

theorem decode_byte {w : Nat} (hw : w < 256) : BigEndian.decode [UInt8.ofNat w] = w := by
  have h : BigEndian.decode [UInt8.ofNat w] = (UInt8.ofNat w).toNat := by simp [BigEndian.decode]
  rw [h, UInt8.toNat_ofNat_of_lt' hw]

/-- Width zero has its own path in the decoder: the first timestamp, repeated. -/
theorem decode_flat {n : Nat} (hn : 0 < n) (hn' : n < 2 ^ 32) (first : Int64) :
    decode (BigEndian.encode 4 n ++ encodeI64 first ++ [UInt8.ofNat 0]) =
      some (List.replicate n first) := by
  obtain ⟨h1, h2, h3⟩ := slice_header n 0 first []
  rw [List.append_nil] at h1 h2 h3
  have hlen : ¬ (BigEndian.encode 4 n ++ encodeI64 first ++ [UInt8.ofNat 0]).length < 13 := by
    simp
  have hcount : BigEndian.decode (BigEndian.encode 4 n) = n := decode_encode_of_lt hn'
  rw [decode, if_neg hlen, h1, h2, h3]
  simp only [Option.bind_eq_bind, Option.bind_some, hcount, decode_byte (by omega : 0 < 256),
    decodeI64_encodeI64, if_neg (Nat.pos_iff_ne_zero.mp hn), if_true]
  split_ifs with h
  · rw [h]
    rfl
  · rfl

theorem decode_packed {n w : Nat} (hn : 1 < n) (hn' : n < 2 ^ 32) (hw : 0 < w) (hw' : w < 64)
    (first lo : Int64) (packed : Bytes) :
    decode (BigEndian.encode 4 n ++ encodeI64 first ++ [UInt8.ofNat w] ++
      (packed ++ encodeI64 lo)) =
      (decodeLoop w lo (n - 1) ⟨packed, 0, 0⟩ first).map (first :: ·) := by
  obtain ⟨h1, h2, h3⟩ := slice_header n w first (packed ++ encodeI64 lo)
  set data := BigEndian.encode 4 n ++ encodeI64 first ++ [UInt8.ofNat w] ++ (packed ++ encodeI64 lo)
    with hdata
  have hlength : data.length = 13 + packed.length + 8 := by
    simp only [hdata, List.length_append, length_encode, length_encodeI64, List.length_singleton]
    omega
  have h4 : slice data (data.length - 8) data.length = some (encodeI64 lo) := by
    have := slice_append (BigEndian.encode 4 n ++ encodeI64 first ++ [UInt8.ofNat w] ++ packed)
      (encodeI64 lo) [] (data.length - 8) data.length
      (by simp only [List.length_append, length_encode, length_encodeI64, List.length_singleton]
          omega)
      (by rw [length_encodeI64]; omega)
    rwa [List.append_nil, List.append_assoc] at this
  have h5 : slice data 13 (data.length - 8) = some packed := by
    have := slice_append (BigEndian.encode 4 n ++ encodeI64 first ++ [UInt8.ofNat w]) packed
      (encodeI64 lo) 13 (data.length - 8) (by simp) (by omega)
    rwa [List.append_assoc _ packed] at this
  have hlen : ¬ data.length < 13 := by omega
  have hcount : BigEndian.decode (BigEndian.encode 4 n) = n := decode_encode_of_lt hn'
  rw [decode, if_neg hlen, h1, h2, h3]
  simp only [Option.bind_eq_bind, Option.bind_some, h4, h5, hcount, decode_byte (by omega : w < 256),
    decodeI64_encodeI64, if_neg (by omega : ¬ n = 0), if_neg (by omega : ¬ n = 1),
    if_neg (by omega : ¬ w = 0)]
  cases decodeLoop w lo (n - 1) ⟨packed, 0, 0⟩ first <;> rfl

/-- The column comes back from its encoding, and neither side panics. -/
def RoundTrips (ts : List Int64) : Prop := ∃ buf, encode ts = some buf ∧ decode buf = some ts

theorem replicate_eq_iff (first : Int64) (rest : List Int64) (hrest : rest ≠ [])
    (hconst : ∀ d ∈ intDifferences (first :: rest), d = first.toInt) :
    List.replicate (first :: rest).length first = first :: rest ↔ first = 0 := by
  constructor
  · intro h
    cases rest with
    | nil => exact absurd rfl hrest
    | cons b rest =>
      have hd := hconst (b.toInt - first.toInt) (by simp [intDifferences])
      have hb : b = first := by
        rw [List.length_cons, List.length_cons, List.replicate_succ, List.replicate_succ,
          List.cons.injEq, List.cons.injEq] at h
        exact h.2.1.symm
      rw [hb] at hd
      rw [← Int64.toInt_inj, Int64.toInt_zero]
      omega
  · rintro rfl
    have hzero : ∀ (last : Int64) (rest : List Int64), last = 0 →
        (∀ d ∈ intDifferences (last :: rest), d = 0) → ∀ t ∈ rest, t = 0 := by
      intro last rest hlast
      induction rest generalizing last with
      | nil => simp
      | cons b rest ih =>
        intro h t ht
        have hb : b = 0 := by
          have := h (b.toInt - last.toInt) (by simp [intDifferences])
          rw [hlast, Int64.toInt_zero] at this
          rw [← Int64.toInt_inj, Int64.toInt_zero]
          omega
        rcases List.mem_cons.mp ht with rfl | ht
        · exact hb
        · exact ih b hb (fun d hd => h d (by simp [intDifferences, hd])) t ht
    refine (List.eq_replicate_iff.mpr ⟨rfl, ?_⟩).symm
    intro t ht
    rcases List.mem_cons.mp ht with rfl | ht
    · rfl
    · exact hzero 0 rest rfl (by simpa using hconst) t ht

theorem roundTrips_iff_lossless (ts : List Int64) (hlen : ts.length < 2 ^ 32)
    (hfit : ∀ d ∈ intDifferences ts, -2 ^ 63 ≤ d ∧ d < 2 ^ 63) :
    RoundTrips ts ↔ Lossless ts := by
  match ts with
  | [] => exact ⟨fun _ => trivial, fun _ => ⟨_, rfl, rfl⟩⟩
  | [first] =>
    have hrange : checkedSub first first = some 0 := by
      rw [checkedSub_eq_some_iff, Int64.toInt_zero]
      omega
    refine ⟨fun _ => trivial, fun _ => ⟨BigEndian.encode 4 1 ++ encodeI64 first ++ [UInt8.ofNat 0],
      ?_, decode_flat Nat.one_pos hlen first⟩⟩
    simp [encode, differences, hrange]
  | first :: second :: rest =>
    obtain ⟨ds, hds, hmap⟩ := differences_of_fit _ hfit
    set lo := ds.foldl minI64 first with hlo
    set hi := ds.foldl maxI64 first with hhi
    have hloInt : lo.toInt = lowest first (intDifferences (first :: second :: rest)) := by
      rw [hlo, toInt_foldl_min, hmap]
      rfl
    have hhiInt : hi.toInt = highest first (intDifferences (first :: second :: rest)) := by
      rw [hhi, toInt_foldl_max, hmap]
      rfl
    obtain ⟨hlof, hlod⟩ := foldl_min_le (intDifferences (first :: second :: rest)) first.toInt
    obtain ⟨hhif, hhid⟩ := le_foldl_max (intDifferences (first :: second :: rest)) first.toInt
    change lowest first _ ≤ _ at hlof
    change _ ≤ highest first _ at hhif
    have hlod' : ∀ d ∈ intDifferences (first :: second :: rest), lo.toInt ≤ d := by
      rw [hloInt]
      exact hlod
    have hhid' : ∀ d ∈ intDifferences (first :: second :: rest), d ≤ hi.toInt := by
      rw [hhiInt]
      exact hhid
    rw [Lossless]
    rw [← hloInt, ← hhiInt] at *
    by_cases hspan : hi.toInt - lo.toInt < 2 ^ 63
    · have hsub : checkedSub hi lo = some (hi - lo) := by
        rw [checkedSub, if_pos ⟨by omega, hspan⟩]
      have hrange := (checkedSub_eq_some_iff hi lo (hi - lo)).mp hsub
      by_cases heq : hi.toInt = lo.toInt
      · have hzero : hi - lo = 0 := by
          rw [← Int64.toInt_inj, hrange, Int64.toInt_zero]
          omega
        have henc : encode (first :: second :: rest) = some (BigEndian.encode 4
            (first :: second :: rest).length ++ encodeI64 first ++ [UInt8.ofNat 0]) := by
          simp only [encode, hds, Option.bind_eq_bind, Option.bind_some, ← hlo, ← hhi, hsub,
            hzero, if_true, Option.pure_def]
        have hconst : ∀ d ∈ intDifferences (first :: second :: rest), d = first.toInt := by
          intro d hd
          have h1 := hlod' d hd
          have h2 := hhid' d hd
          omega
        rw [if_pos heq, ← replicate_eq_iff first (second :: rest) (by simp) hconst]
        simp only [RoundTrips, henc, Option.some.injEq, exists_eq_left',
          decode_flat (by simp) hlen, hspan, true_and]
      · have hpos : 0 < (hi - lo).toInt := by omega
        have hne : hi - lo ≠ 0 := by
          intro h
          rw [h, Int64.toInt_zero] at hpos
          omega
        obtain ⟨hbits, hbound⟩ := bitsNeeded_of_pos _ hpos
        rw [hrange] at hbits hbound
        set w := (hi.toInt - lo.toInt).toNat.log2 + 1 with hw
        set ns := (intDifferences (first :: second :: rest)).map fun d => (d - lo.toInt).toNat
          with hns
        have hnorm := normalize_of_fit ds lo (by
          rw [hmap]
          intro d hd
          have h1 := hlod' d hd
          have h2 := hhid' d hd
          omega)
        rw [hmap, ← hns] at hnorm
        have hsmall : ∀ v ∈ ns, v < 2 ^ w := by
          intro v hv
          obtain ⟨d, hd, rfl⟩ := List.mem_map.mp hv
          have h1 := hlod' d hd
          have h2 := hhid' d hd
          have h3 : (hi.toInt - lo.toInt).toNat < 2 ^ w := Nat.lt_log2_self
          omega
        have hnslen : ns.length = (second :: rest).length := by
          rw [hns, List.length_map, length_intDifferences]
        obtain ⟨packed, hpack, hread, hiff⟩ := unpack_pack_iff hbound ns hsmall
        have hbuf : encode (first :: second :: rest) = some (BigEndian.encode 4
            (first :: second :: rest).length ++ encodeI64 first ++ [UInt8.ofNat w] ++
            (packed ++ encodeI64 lo)) := by
          simp only [encode, hds, Option.bind_eq_bind, Option.bind_some, ← hlo, ← hhi, hsub,
            if_neg hne, hbits, if_neg (by omega : ¬ w = 0), hnorm, hpack, Option.pure_def,
            List.append_assoc]
        rw [hnslen] at hread hiff
        have hloop := decodeLoop_iff hbound lo first (second :: rest) ⟨packed, 0, 0⟩
          (fun d hd => ⟨hlod' d hd, (hfit d hd).2⟩) hread
        rw [if_neg heq, ← hiff, ← hloop]
        simp only [RoundTrips, hbuf, Option.some.injEq, exists_eq_left',
          decode_packed (by simp : 1 < (first :: second :: rest).length) hlen (by omega) hbound,
          hspan, true_and, Option.map_eq_some_iff, List.cons.injEq, exists_eq_right]
        rfl
    · have hsub : checkedSub hi lo = none := by
        rw [checkedSub, if_neg fun h => hspan h.2]
      simp only [hspan, false_and, iff_false]
      rintro ⟨buf, henc, -⟩
      simp only [encode, hds, Option.bind_eq_bind, Option.bind_some, ← hlo, ← hhi, hsub,
        Option.bind_none, reduceCtorEq] at henc

/-- The timestamp column codec gives a column back exactly when it is lossless. -/
theorem timestamp_column_roundtrip_iff (ts : List Int64) (hlen : ts.length < 2 ^ 32)
    (hfit : DifferencesFit ts) : RoundTrips ts ↔ Lossless ts :=
  roundTrips_iff_lossless ts hlen hfit.1

theorem timestamp_column_roundtrip_regular : RoundTrips [0, 1000000000, 2000000000] :=
  (timestamp_column_roundtrip_iff _ (by decide) (by unfold DifferencesFit; decide)).mpr (by decide)

/-- Nanosecond epoch timestamps one second apart, the last eight nanoseconds late: the
first timestamp makes the width 61 bits, and the late bit is pushed past bit 63. -/
theorem timestamp_column_loses_late_tick :
    ¬ ∀ ts : List Int64, ts.length < 2 ^ 32 → DifferencesFit ts → RoundTrips ts := by
  intro h
  have hfit : DifferencesFit [1700000000000000000, 1700000001000000000, 1700000002000000000,
      1700000003000000008] := by
    unfold DifferencesFit
    decide
  have hround := h _ (by decide) hfit
  rw [roundTrips_iff_lossless _ (by decide) hfit.1] at hround
  revert hround
  decide

end Graphite.Delta
