import Mathlib.Order.Basic
import Mathlib.Order.Lattice
import Mathlib.Tactic.SplitIfs
import Graphite.BigEndian

/-! Core types: ticks, composite keys and log records.
Fixed-width integers are Lean's own; a double is its bit pattern, since the
storage engine only moves, compares and serialises prices. -/

namespace Graphite
open BigEndian

abbrev TimestampNs := Int64

abbrev SymbolId := UInt16

/-- An IEEE 754 double, as `f64::to_bits` shows it. -/
structure F64 where
  bits : UInt64
  deriving DecidableEq, Repr, Inhabited

structure Tick where
  symbolId : SymbolId
  timestamp : TimestampNs
  open_ : F64
  high : F64
  low : F64
  close : F64
  volume : UInt64
  deriving DecidableEq, Repr, Inhabited

/-- Composite key; the order compares symbols first. -/
structure Key where
  symbolId : SymbolId
  timestamp : TimestampNs
  deriving DecidableEq, Repr, Inhabited

/-- `i64::to_be_bytes`. -/
def encodeI64 (t : Int64) : Bytes := BigEndian.encode 8 t.toUInt64.toNat

/-- `i64::from_be_bytes`. -/
def decodeI64 (bs : Bytes) : Int64 := Int64.ofNat (BigEndian.decode bs)

@[simp] theorem length_encodeI64 (t : Int64) : (encodeI64 t).length = 8 := by
  simp [encodeI64]

@[simp] theorem decodeI64_encodeI64 (t : Int64) : decodeI64 (encodeI64 t) = t := by
  have h : t.toUInt64.toNat < 256 ^ 8 := t.toUInt64.toNat_lt
  rw [decodeI64, encodeI64, decode_encode_of_lt h]
  change (UInt64.ofNat t.toUInt64.toNat).toInt64 = t
  simp

/-- `str::as_bytes`. -/
def asBytes (s : String) : Bytes := s.toUTF8.data.toList

/-- `&buf[lo..hi]`; a range outside the buffer is a panic. -/
def slice (buf : Bytes) (lo hi : Nat) : Option Bytes :=
  if lo ≤ hi ∧ hi ≤ buf.length then some ((buf.drop lo).take (hi - lo)) else none

theorem slice_append (as bs cs : Bytes) (lo hi : Nat) (hlo : as.length = lo)
    (hhi : lo + bs.length = hi) : slice (as ++ bs ++ cs) lo hi = some bs := by
  have hin : lo ≤ hi ∧ hi ≤ (as ++ bs ++ cs).length := by
    simp only [List.length_append]
    omega
  have hlen : bs.length = hi - lo := by omega
  rw [slice, if_pos hin, List.append_assoc, ← hlo, List.drop_left, hlo, ← hlen, List.take_left]

theorem slice_eq_some_iff (buf bs : Bytes) (lo hi : Nat) :
    slice buf lo hi = some bs ↔
      (lo ≤ hi ∧ hi ≤ buf.length) ∧ bs = (buf.drop lo).take (hi - lo) := by
  unfold slice
  split_ifs with h
  · simp [h, eq_comm]
  · simp [h]

/-- A range within a range. -/
theorem slice_slice {file buf : Bytes} {a b lo hi : Nat} (h : slice file a b = some buf)
    (hhi : a + hi ≤ b) : slice buf lo hi = slice file (a + lo) (a + hi) := by
  obtain ⟨⟨hab, hb⟩, rfl⟩ := (slice_eq_some_iff _ _ _ _).mp h
  have hlen : ((file.drop a).take (b - a)).length = b - a := by
    rw [List.length_take, List.length_drop]
    omega
  by_cases hle : lo ≤ hi
  · rw [slice, slice, if_pos ⟨hle, by omega⟩, if_pos ⟨by omega, by omega⟩, List.drop_take,
      List.drop_drop, List.take_take]
    congr 2
    omega
  · rw [slice, slice, if_neg (by omega), if_neg (by omega)]

namespace Key

/-- Ten bytes: the symbol id, then the timestamp, both big-endian. -/
def encode (k : Key) : Bytes :=
  BigEndian.encode 2 k.symbolId.toNat ++ encodeI64 k.timestamp

@[simp] theorem length_encode (k : Key) : k.encode.length = 10 := by
  simp [encode]

instance : LE Key where
  le a b := a.symbolId < b.symbolId ∨ a.symbolId = b.symbolId ∧ a.timestamp ≤ b.timestamp

instance : LT Key where
  lt a b := a.symbolId < b.symbolId ∨ a.symbolId = b.symbolId ∧ a.timestamp < b.timestamp

theorem le_def (a b : Key) :
    a ≤ b ↔ a.symbolId < b.symbolId ∨ a.symbolId = b.symbolId ∧ a.timestamp ≤ b.timestamp :=
  Iff.rfl

theorem lt_def (a b : Key) :
    a < b ↔ a.symbolId < b.symbolId ∨ a.symbolId = b.symbolId ∧ a.timestamp < b.timestamp :=
  Iff.rfl

instance (a b : Key) : Decidable (a ≤ b) :=
  decidable_of_iff _ (le_def a b).symm

instance (a b : Key) : Decidable (a < b) :=
  decidable_of_iff _ (lt_def a b).symm

instance : LinearOrder Key where
  le_refl a := by simp only [le_def]; grind
  le_trans a b c := by simp only [le_def]; grind
  le_antisymm a b := by
    cases a
    cases b
    simp only [le_def, Key.mk.injEq]
    grind
  le_total a b := by simp only [le_def]; grind
  lt_iff_le_not_ge a b := by simp only [le_def, lt_def]; grind
  toDecidableLE := inferInstance
  toDecidableEq := inferInstance
  toDecidableLT := inferInstance

end Key

def Tick.key (t : Tick) : Key := ⟨t.symbolId, t.timestamp⟩

/-- `Tick { symbol_id, ..tick }` -/
def Tick.withSymbol (t : Tick) (symbolId : SymbolId) : Tick := { t with symbolId }

/-- Write-ahead log record types. -/
inductive WalRecord where
  | insert (tick : Tick)
  | delete (key : Key)
  | checkpoint (sequence : UInt64)
  deriving DecidableEq, Repr

/-- A call that does not return normally either returns an error or panics. -/
inductive Stop (ε : Type) where
  | error (e : ε)
  | panic
  deriving DecidableEq, Repr

theorem bind_eq_ok {ε α β : Type} {x : Except ε α} {f : α → Except ε β} {b : β} :
    x >>= f = .ok b ↔ ∃ a, x = .ok a ∧ f a = .ok b := by
  cases x <;> simp [bind, Except.bind]

/-- `a + b` on `i64`; an overflow is a panic. -/
def checkedAdd (a b : Int64) : Option Int64 :=
  if -2 ^ 63 ≤ a.toInt + b.toInt ∧ a.toInt + b.toInt < 2 ^ 63 then some (a + b) else none

/-- `a - b` on `i64`; an overflow is a panic. -/
def checkedSub (a b : Int64) : Option Int64 :=
  if -2 ^ 63 ≤ a.toInt - b.toInt ∧ a.toInt - b.toInt < 2 ^ 63 then some (a - b) else none

theorem checkedAdd_eq_some_iff (a b c : Int64) :
    checkedAdd a b = some c ↔ c.toInt = a.toInt + b.toInt := by
  have hlo := Int64.le_toInt c
  have hhi := Int64.toInt_lt c
  unfold checkedAdd
  split_ifs with h
  · have hs : (a + b).toInt = a.toInt + b.toInt := by
      rw [Int64.toInt_add, Int.bmod_eq_of_le] <;> omega
    rw [Option.some_inj, ← Int64.toInt_inj, hs, eq_comm]
  · constructor
    · intro hc
      cases hc
    · intro hc
      omega

theorem checkedSub_eq_some_iff (a b c : Int64) :
    checkedSub a b = some c ↔ c.toInt = a.toInt - b.toInt := by
  have hlo := Int64.le_toInt c
  have hhi := Int64.toInt_lt c
  unfold checkedSub
  split_ifs with h
  · have hs : (a - b).toInt = a.toInt - b.toInt := by
      rw [Int64.toInt_sub, Int.bmod_eq_of_le] <;> omega
    rw [Option.some_inj, ← Int64.toInt_inj, hs, eq_comm]
  · constructor
    · intro hc
      cases hc
    · intro hc
      omega

/-- `u64::leading_zeros`. -/
def leadingZeros (x : UInt64) : Nat := if x = 0 then 64 else 63 - x.toNat.log2

/-- `u64::trailing_zeros`. -/
def trailingZeros (x : UInt64) : Nat :=
  ((List.range 64).find? fun i => x.toNat.testBit i).getD 64

def BLOCK_SIZE : Nat := 4096

def INDEX_INTERVAL : Nat := 16

def L0_MAX_TABLES : Nat := 4

def LEVEL_SIZE_RATIO : Nat := 10

end Graphite
