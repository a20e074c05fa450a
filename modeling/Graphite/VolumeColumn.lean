import Mathlib.Data.List.TakeWhile
import Graphite.Columns

/-! The volume column read back: run lengths decode to the runs they were taken from,
whatever the volumes, and the codec tag has to name the compressor that made the block. -/

namespace Graphite

/-- The block codecs on one input: each decoder inverts its encoder, and ZSTD decoding
rejects an LZ4 block. -/
structure Platform.InvertsBlocks (p : Platform) (bs : BigEndian.Bytes) : Prop where
  lz4 : p.lz4Decompress (p.lz4Compress bs) = some bs
  zstd : ∀ block, p.zstdEncode bs = some block → p.zstdDecode block = some bs
  rejects : p.zstdDecode (p.lz4Compress bs) = none

/-- A block that is shorter than the size in front of it is refused. -/
def Platform.RefusesShort (p : Platform) : Prop := ∀ bs, bs.length < 4 → p.lz4Decompress bs = none

namespace RleLz4
open BigEndian

/-- A run is the copies of its value, and the next run starts behind them. -/
theorem replicate_takeWhile_append_drop (val : UInt64) (rest : List UInt64) :
    List.replicate (rest.takeWhile (· == val)).length val ++
      rest.drop (rest.takeWhile (· == val)).length = rest := by
  have hrun : rest.takeWhile (· == val) =
      List.replicate (rest.takeWhile (· == val)).length val :=
    List.eq_replicate_iff.mpr ⟨rfl, fun x hx => by simpa using List.mem_takeWhile_imp hx⟩
  have htake : rest.takeWhile (· == val) = rest.take (rest.takeWhile (· == val)).length :=
    List.prefix_iff_eq_take.mp (List.takeWhile_prefix _)
  rw [← hrun]
  nth_rewrite 1 [htake]
  exact List.take_append_drop _ _

@[simp] theorem rleDecodeLoop_done (rle : Bytes) (fuel offset : Nat) :
    rleDecodeLoop rle fuel offset 0 = [] := by
  cases fuel <;> rfl

/-- Runs behind any bytes decode to the volumes they were taken from. -/
theorem rleDecodeLoop_rleRuns (front : Bytes) {n fuel : Nat} {volumes : List UInt64}
    (hn : volumes.length ≤ n) (hlen : volumes.length < 2 ^ 32)
    (hfuel : (rleRuns n volumes).length ≤ fuel) :
    rleDecodeLoop (front ++ rleRuns n volumes) fuel front.length volumes.length = volumes := by
  induction n generalizing front volumes fuel with
  | zero =>
    rw [List.length_eq_zero_iff.mp (Nat.le_zero.mp hn)]
    exact rleDecodeLoop_done _ _ _
  | succ n ih =>
    cases volumes with
    | nil => exact rleDecodeLoop_done _ _ _
    | cons val rest =>
      have hrun : (rest.takeWhile (· == val)).length ≤ rest.length :=
        (List.takeWhile_prefix _).length_le
      rw [List.length_cons] at hn hlen
      rw [rleRuns] at hfuel ⊢
      generalize hk : (rest.takeWhile (· == val)).length = k at hrun hfuel ⊢
      simp only [Nat.add_sub_cancel_left] at hfuel ⊢
      simp only [List.length_append, length_encode] at hfuel
      obtain ⟨fuel, rfl⟩ : ∃ f, fuel = f + 1 := ⟨fuel - 1, by omega⟩
      have hcount : BigEndian.decode (encode 4 (1 + k)) = 1 + k := decode_encode_of_lt (by omega)
      have hval : UInt64.ofNat (BigEndian.decode (encode 8 val.toNat)) = val := by
        rw [decode_encode_of_lt (show val.toNat < 256 ^ 8 from val.toNat_lt), UInt64.ofNat_toNat]
      have hrle : front ++ (encode 4 (1 + k) ++ encode 8 val.toNat ++ rleRuns n (rest.drop k)) =
          front ++ encode 4 (1 + k) ++ encode 8 val.toNat ++ rleRuns n (rest.drop k) := by
        simp only [List.append_assoc]
      have hslice1 : slice (front ++ encode 4 (1 + k) ++ encode 8 val.toNat ++
          rleRuns n (rest.drop k)) front.length (front.length + 4) =
          some (encode 4 (1 + k)) := by
        rw [List.append_assoc _ (encode 8 val.toNat)]
        exact slice_append _ _ _ _ _ rfl (by simp)
      have hslice2 : slice (front ++ encode 4 (1 + k) ++ encode 8 val.toNat ++
          rleRuns n (rest.drop k)) (front.length + 4) (front.length + 12) =
          some (encode 8 val.toNat) :=
        slice_append _ _ _ _ _ (by simp) (by simp)
      have hnext := ih (front ++ encode 4 (1 + k) ++ encode 8 val.toNat) (by simp; omega)
        (by simp; omega) (show (rleRuns n (rest.drop k)).length ≤ fuel by omega)
      have hfront : (front ++ encode 4 (1 + k) ++ encode 8 val.toNat).length =
          front.length + 12 := by
        simp
      have hmissing : rest.length + 1 - (1 + k) = (rest.drop k).length := by
        rw [List.length_drop]
        omega
      rw [hrle, List.length_cons, rleDecodeLoop, hslice1, hslice2]
      simp only [hcount, hval, hmissing]
      rw [← hfront, hnext, Nat.add_comm, List.replicate_succ, List.cons_append, ← hk,
        replicate_takeWhile_append_drop]

theorem rleDecode_rleEncode {volumes : List UInt64} (hlen : volumes.length < 2 ^ 32) :
    rleDecode (rleEncode volumes) = volumes := by
  have htotal : slice (rleEncode volumes) 0 4 = some (encode 4 volumes.length) := by
    simpa [rleEncode] using
      slice_append [] (encode 4 volumes.length) (rleRuns volumes.length volumes) 0 4 rfl (by simp)
  have hfuel : (rleRuns volumes.length volumes).length ≤ (rleEncode volumes).length := by
    simp [rleEncode]
  have hloop := rleDecodeLoop_rleRuns (encode 4 volumes.length) (le_refl _) hlen hfuel
  rw [rleDecode, htotal, Option.map_some, Option.getD_some, decode_encode_of_lt hlen]
  simpa [rleEncode] using hloop

@[simp] theorem rleDecode_nil : rleDecode [] = [] := rfl

/-- The special form of the empty list holds no block. -/
theorem decode_empty {p : Platform} (hshort : p.RefusesShort) (level : Nat) :
    decode p (encodeForLevel p [] level) = [] := by
  have hnone : p.lz4Decompress [0, 0, 0] = none := hshort [0, 0, 0] (by simp)
  simp [encodeForLevel, decode, CODE_LZ4, hnone]

theorem decode_lz4 {p : Platform} {volumes : List UInt64} (hlen : volumes.length < 2 ^ 32)
    (hblocks : p.InvertsBlocks (rleEncode volumes)) (hne : volumes ≠ []) :
    decode p (encodeForLevel p volumes 0) = volumes := by
  simp [encodeForLevel, hne, decode, CODE_LZ4, hblocks.lz4, rleDecode_rleEncode hlen]

theorem decode_zstd {p : Platform} {volumes : List UInt64} (hlen : volumes.length < 2 ^ 32)
    (hblocks : p.InvertsBlocks (rleEncode volumes)) (hne : volumes ≠ []) {level : Nat}
    (hlevel : 1 ≤ level) {block : Bytes} (hblock : p.zstdEncode (rleEncode volumes) = some block) :
    decode p (encodeForLevel p volumes level) = volumes := by
  simp [encodeForLevel, hne, hlevel, hblock, decode, CODE_LZ4, CODE_ZSTD, hblocks.zstd block hblock,
    rleDecode_rleEncode hlen]

/-- The block the encoder falls back to is LZ4 under the tag of ZSTD. -/
theorem decode_fallback {p : Platform} {volumes : List UInt64}
    (hblocks : p.InvertsBlocks (rleEncode volumes)) (hne : volumes ≠ []) {level : Nat}
    (hlevel : 1 ≤ level) (hblock : p.zstdEncode (rleEncode volumes) = none) :
    decode p (encodeForLevel p volumes level) = [] := by
  simp [encodeForLevel, hne, hlevel, hblock, decode, CODE_LZ4, CODE_ZSTD, hblocks.rejects]

/-- Volumes come back exactly when the list is empty, the level asks for LZ4, or ZSTD
encoding succeeds. -/
theorem volume_column_roundtrip_iff (p : Platform) (hshort : p.RefusesShort)
    (volumes : List UInt64) (hlen : volumes.length < 2 ^ 32)
    (hblocks : p.InvertsBlocks (rleEncode volumes)) (level : Nat) :
    decode p (encodeForLevel p volumes level) = volumes ↔
      volumes = [] ∨ level = 0 ∨ (p.zstdEncode (rleEncode volumes)).isSome := by
  by_cases hne : volumes = []
  · subst hne
    simp [decode_empty hshort]
  cases hlevel : level with
  | zero => simp [decode_lz4 hlen hblocks hne]
  | succ n =>
    cases hblock : p.zstdEncode (rleEncode volumes) with
    | none => simp [decode_fallback hblocks hne (Nat.le_add_left 1 n) hblock, hne, eq_comm]
    | some block => simp [decode_zstd hlen hblocks hne (Nat.le_add_left 1 n) hblock]

theorem simple_refusesShort : Platform.simple.RefusesShort := by
  intro bs hbs
  refine if_neg fun h => ?_
  have hlen := congrArg List.length h
  simp only [Platform.literalBlock, List.length_append, List.length_reverse, length_encode] at hlen
  omega

theorem simple_invertsBlocks : Platform.simple.InvertsBlocks (rleEncode [7, 7, 9]) where
  lz4 := by decide +kernel
  zstd := by
    intro block h
    cases h
  rejects := rfl

theorem volume_column_roundtrip_lz4 :
    decode .simple (encodeForLevel .simple [7, 7, 9] 0) = [7, 7, 9] ↔
      ([7, 7, 9] : List UInt64) = [] ∨ 0 = 0 ∨
        (Platform.simple.zstdEncode (rleEncode [7, 7, 9])).isSome :=
  volume_column_roundtrip_iff .simple simple_refusesShort [7, 7, 9] (by decide)
    simple_invertsBlocks 0

/-- Where ZSTD encoding fails, the volumes are lost. -/
theorem volumes_lost_on_fallback :
    Platform.simple.InvertsBlocks (rleEncode [7, 7, 9]) ∧
      Platform.simple.zstdEncode (rleEncode [7, 7, 9]) = none ∧
      decode .simple (encodeForLevel .simple [7, 7, 9] 1) ≠ [7, 7, 9] :=
  ⟨simple_invertsBlocks, rfl, by decide +kernel⟩

end RleLz4

end Graphite
