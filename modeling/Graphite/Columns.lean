import Graphite.Delta
import Graphite.Platform

/-! The price and volume columns: double deltas under Gorilla XOR coding, and run
lengths under a block compressor. A decoder that reads past its data, or whose
`u32` subtraction goes below zero, panics. -/

namespace Graphite
open BigEndian

namespace Gorilla

def encodeLoop : UInt64 → List F64 → Bytes
  | _, [] => []
  | prev, val :: rest =>
    let cur := val.bits
    let xor := cur ^^^ prev
    let coded :=
      if xor = 0 then [0]
      else
        let leading := leadingZeros xor
        let trailing := trailingZeros xor
        let sigBits := 64 - leading - trailing
        if sigBits ≤ 48 then
          let shifted := xor >>> UInt64.ofNat trailing
          let nbytes := (sigBits + 7) / 8
          [1, UInt8.ofNat leading, UInt8.ofNat trailing] ++
            (BigEndian.encode 8 shifted.toNat).drop (8 - nbytes)
        else 2 :: BigEndian.encode 8 xor.toNat
    coded ++ encodeLoop cur rest

def encode : List F64 → Bytes
  | [] => [0, 0, 0, 0]
  | first :: rest =>
    BigEndian.encode 4 (first :: rest).length ++ BigEndian.encode 8 first.bits.toNat ++
      encodeLoop first.bits rest

/-- The decoder's loop; a value that is cut short, or an unknown control byte, ends it. -/
def decodeLoop (data : Bytes) : (n offset : Nat) → UInt64 → Option (List F64)
  | 0, _, _ => some []
  | n + 1, offset, prev =>
    match data[offset]? with
    | none => some []
    | some 0 => do
      let rest ← decodeLoop data n (offset + 1) prev
      return ⟨prev⟩ :: rest
    | some 1 =>
      if offset + 1 + 2 > data.length then some []
      else do
        let leading := (← data[offset + 1]?).toNat
        let trailing := (← data[offset + 2]?).toNat
        if leading + trailing > 64 then none
        let nbytes := (64 - leading - trailing + 7) / 8
        if offset + 3 + nbytes > data.length then return []
        let shifted := UInt64.ofNat (decode (← slice data (offset + 3) (offset + 3 + nbytes)))
        let xor := if trailing < 64 then shifted <<< UInt64.ofNat trailing else 0
        let cur := prev ^^^ xor
        let rest ← decodeLoop data n (offset + 3 + nbytes) cur
        return ⟨cur⟩ :: rest
    | some 2 =>
      if offset + 1 + 8 > data.length then some []
      else do
        let xor := UInt64.ofNat (decode (← slice data (offset + 1) (offset + 9)))
        let cur := prev ^^^ xor
        let rest ← decodeLoop data n (offset + 9) cur
        return ⟨cur⟩ :: rest
    | some _ => some []

def decode (data : Bytes) : Option (List F64) :=
  if data.length < 12 then some []
  else do
    let count := BigEndian.decode (← slice data 0 4)
    if count = 0 then some []
    else do
      let prev := UInt64.ofNat (BigEndian.decode (← slice data 4 12))
      let rest ← decodeLoop data (count - 1) 12 prev
      return ⟨prev⟩ :: rest

/-- `xs[i] - xs[i - 1]`, with `prev` in front of the list. -/
def differences (p : Platform) : F64 → List F64 → List F64
  | _, [] => []
  | prev, x :: xs => p.sub x prev :: differences p x xs

/-- `ys[i] = ys[i - 1] + xs[i]`, with `prev` in front of the list. -/
def sums (p : Platform) : F64 → List F64 → List F64
  | _, [] => []
  | prev, x :: xs => p.add prev x :: sums p (p.add prev x) xs

def computeDoubleDeltas (p : Platform) : List F64 → List F64
  | [] => []
  | first :: rest => first :: differences p first (differences p first rest)

def reconstructFromDoubleDeltas (p : Platform) : List F64 → List F64
  | [] => []
  | first :: rest => first :: sums p first (sums p first rest)

/-- Double-delta + Gorilla XOR encoding for price columns. -/
def encodeDoubleDelta (p : Platform) (values : List F64) : Bytes :=
  encode (computeDoubleDeltas p values)

def decodeDoubleDelta (p : Platform) (data : Bytes) : Option (List F64) :=
  (decode data).map (reconstructFromDoubleDeltas p)

end Gorilla

namespace RleLz4

def CODE_LZ4 : UInt8 := 0

def CODE_ZSTD : UInt8 := 1

/-- The encoder's loop; `fuel` is the number of volumes. -/
def rleRuns : (fuel : Nat) → List UInt64 → Bytes
  | 0, _ => []
  | _, [] => []
  | fuel + 1, val :: rest =>
    let runLen := 1 + (rest.takeWhile (· == val)).length
    encode 4 runLen ++ encode 8 val.toNat ++ rleRuns fuel (rest.drop (runLen - 1))

def rleEncode (volumes : List UInt64) : Bytes :=
  encode 4 volumes.length ++ rleRuns volumes.length volumes

/-- The decoder's loop, `missing` volumes short of the total; `fuel` bounds the runs. -/
def rleDecodeLoop (rle : Bytes) : (fuel offset missing : Nat) → List UInt64
  | 0, _, _ => []
  | _, _, 0 => []
  | fuel + 1, offset, missing + 1 =>
    match slice rle offset (offset + 4), slice rle (offset + 4) (offset + 12) with
    | some runLen, some val =>
      List.replicate (decode runLen) (UInt64.ofNat (decode val)) ++
        rleDecodeLoop rle fuel (offset + 12) (missing + 1 - decode runLen)
    | _, _ => []

def rleDecode (rle : Bytes) : List UInt64 :=
  rleDecodeLoop rle rle.length 4 (((slice rle 0 4).map decode).getD 0)

/-- Encode volumes; L1+ SSTables use ZSTD for better cold-tier compression. -/
def encodeForLevel (p : Platform) (volumes : List UInt64) (level : Nat) : Bytes :=
  if volumes = [] then [0, 0, 0, 0]
  else
    let rle := rleEncode volumes
    if 1 ≤ level then CODE_ZSTD :: (p.zstdEncode rle).getD (p.lz4Compress rle)
    else CODE_LZ4 :: p.lz4Compress rle

/-- Decode volume column regardless of LZ4 or ZSTD wrapper. -/
def decode (p : Platform) : Bytes → List UInt64
  | [] => []
  | code :: payload =>
    let rle :=
      if code = CODE_LZ4 then p.lz4Decompress payload
      else if code = CODE_ZSTD then p.zstdDecode payload
      else p.lz4Decompress (code :: payload)
    rleDecode (rle.getD [])

end RleLz4

end Graphite
