import Graphite.Types

/-! What the storage engine takes from the platform and from other packages:
floating-point arithmetic and the block compressors. -/

namespace Graphite
open BigEndian

structure Platform where
  /-- `bits.ceil() as usize` in `optimal_num_bits`, for a number of items. -/
  bloomBits : Nat → Nat
  /-- `k.round() as u32` in `optimal_num_hashes`, for a number of bits and of items. -/
  bloomHashes : Nat → Nat → Nat
  /-- `f64` subtraction and addition. -/
  sub : F64 → F64 → F64
  add : F64 → F64 → F64
  /-- `lz4_flex::compress_prepend_size` and `decompress_size_prepended`. -/
  lz4Compress : Bytes → Bytes
  lz4Decompress : Bytes → Option Bytes
  /-- `zstd::stream::encode_all` at level 3 and `decode_all`. -/
  zstdEncode : Bytes → Option Bytes
  zstdDecode : Bytes → Option Bytes

namespace Platform

/-- Subtraction where one operand is zero or both are equal. -/
def simpleSub (x y : F64) : F64 :=
  if y.bits = 0 then x else if x = y then ⟨0⟩ else ⟨y.bits ^^^ 0x8000000000000000⟩

/-- Addition where one operand is zero or they cancel. -/
def simpleAdd (x y : F64) : F64 :=
  if y.bits = 0 then x else if x.bits = 0 then y else ⟨0⟩

/-- An LZ4 block of literals only, behind its size in little-endian order. -/
def literalBlock (bs : Bytes) : Bytes :=
  (encode 4 bs.length).reverse ++
    (if bs.length < 15 then [UInt8.ofNat (16 * bs.length)]
      else 0xF0 :: (List.replicate ((bs.length - 15) / 255) 0xFF ++
        [UInt8.ofNat ((bs.length - 15) % 255)])) ++ bs

/-- A platform for columns of one price and for volumes LZ4 finds no match in. -/
def simple : Platform where
  bloomBits n := (n * 10857362047581296 + 10 ^ 17 - 1) / 10 ^ 17
  bloomHashes bits n := (4 * bits + n) / (2 * n)
  sub := simpleSub
  add := simpleAdd
  lz4Compress := literalBlock
  lz4Decompress bs :=
    let literals := bs.drop (bs.length - decode (bs.take 4).reverse)
    if literalBlock literals = bs then some literals else none
  zstdEncode _ := none
  zstdDecode _ := none

end Platform

end Graphite
