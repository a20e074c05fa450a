import Graphite.LsmCrash
import Graphite.LsmReplicated

/-! The files of a replica: its log, its tables and `replication.json` with the position it
has applied. A batch goes to the log first and its position to `replication.json` last,
which is written over in place. -/

namespace Graphite
open BigEndian KeyedRows LockProgram

/-- What is used of `serde_json`: the text of a state that holds a position, and the reader
of such texts, which takes no text that has been cut off. -/
structure StateFormat where
  toStringPretty : Nat → Bytes
  fromStr : Bytes → Option (Option Nat)
  roundTrip : ∀ sequence < 2 ^ 64, fromStr (toStringPretty sequence) = some (some sequence)
  cut : ∀ sequence, ∀ n < (toStringPretty sequence).length,
    fromStr ((toStringPretty sequence).take n) = none

namespace StateFormat

/-- `{\n  "last_primary_sequence": ` -/
def front : Bytes := asBytes "\x7b\n  \"last_primary_sequence\": "

def decimal (n : Nat) : Bytes := (Nat.toDigits 10 n).map fun ch => UInt8.ofNat ch.toNat

def ofDecimal (bs : Bytes) : Nat := Nat.ofDigitChars 10 (bs.map fun b => Char.ofNat b.toNat) 0

theorem toNat_of_mem_toDigits {n : Nat} {ch : Char} (h : ch ∈ Nat.toDigits 10 n) :
    48 ≤ ch.toNat ∧ ch.toNat ≤ 57 := by
  have hdigit := Nat.isDigit_of_mem_toDigits (by omega) (by omega) h
  rw [Char.isDigit_iff_toNat] at hdigit
  exact hdigit

theorem ofDecimal_decimal (n : Nat) : ofDecimal (decimal n) = n := by
  have hmap : (decimal n).map (fun b => Char.ofNat b.toNat) = Nat.toDigits 10 n := by
    rw [decimal, List.map_map]
    refine (List.map_congr_left fun ch hch => ?_).trans (List.map_id _)
    have hle := (toNat_of_mem_toDigits hch).2
    rw [Function.comp_apply, UInt8.toNat_ofNat', Nat.mod_eq_of_lt (by omega), Char.ofNat_toNat]
    rfl
  rw [ofDecimal, hmap, Nat.ofDigitChars_ten_toDigits]

/-- The text without its last byte, a closing brace. -/
def body (sequence : Nat) : Bytes := front ++ decimal sequence ++ [10]

theorem brace_not_mem_body (sequence : Nat) : (125 : UInt8) ∉ body sequence := by
  intro h
  rw [body, List.mem_append, List.mem_append] at h
  rcases h with (h | h) | h
  · revert h
    decide +kernel
  · obtain ⟨ch, hch, hbyte⟩ := List.mem_map.mp h
    have hle := (toNat_of_mem_toDigits hch).2
    have hnat := congrArg UInt8.toNat hbyte
    rw [UInt8.toNat_ofNat', Nat.mod_eq_of_lt (by omega)] at hnat
    have hbrace : (125 : UInt8).toNat = 125 := rfl
    omega
  · revert h
    decide

/-- The texts of `ReplicationState` with a position. -/
def json : StateFormat where
  toStringPretty sequence := body sequence ++ [125]
  fromStr text :=
    if text.getLast? = some 125 then
      some (some (ofDecimal (((text.drop front.length).dropLast).dropLast)))
    else none
  roundTrip sequence _ := by
    have hdrop : (body sequence ++ [125]).drop front.length = decimal sequence ++ [10] ++ [125] := by
      rw [body, List.append_assoc, List.append_assoc, List.drop_left, List.append_assoc]
    rw [if_pos List.getLast?_concat, hdrop, List.dropLast_concat, List.dropLast_concat,
      ofDecimal_decimal]
  cut sequence n hn := by
    rw [List.length_append, List.length_singleton] at hn
    rw [List.take_append_of_le_length (by omega), if_neg]
    intro hlast
    exact brace_not_mem_body sequence (List.mem_of_mem_take (List.mem_of_getLast? hlast))

end StateFormat

/-- `ReplicationTracker::open` on the contents of `replication.json`. -/
def StateFormat.openTracker (fmt : StateFormat) : Option Bytes → Option (Option Nat)
  | none => some none
  | some text => fmt.fromStr text

/-- The tree and the time, the table files, and `replication.json`. -/
abbrev ReplicaDisk := OnDisk × Option Bytes

inductive RestartError where
  | serde
  | lsm (e : Stop LsmError)
  deriving DecidableEq

namespace LsmTree

/-- `LsmTree::open` of a replica: the log, then the tracker, then the tables. -/
def openReplica (fmt : StateFormat) (p : Platform) (c : Codec) (flushThreshold : Nat)
    (walLog : Bytes) (files : List TableFile) (json : Option Bytes) :
    Except RestartError LsmTree := do
  let _ ← ((Wal.open c walLog).mapError (Stop.map .wal)).mapError .lsm
  match fmt.openTracker json with
  | none => throw .serde
  | some last => (openFiles p c flushThreshold .replica walLog files last).mapError .lsm

section Writing

def onState (f : Option Bytes → Option Bytes) : Op Lock ReplicaDisk (Stop LsmError) Unit :=
  attempt fun st => (.ok (), (st.1, f st.2))

/-- Truncate the file and write the first `n` bytes, which may stop after each of them. -/
def writeStateUpTo (text : Bytes) : (n : Nat) → Op Lock ReplicaDisk (Stop LsmError) Unit
  | 0 => onState fun _ => some []
  | n + 1 => do
    writeStateUpTo text n
    onState fun _ => some (text.take (n + 1))

/-- `std::fs::write`. A call that fails may have truncated the file and written the first
`left` bytes. -/
def writeState (env : Env) (left : Option Nat) (text : Bytes) :
    Op Lock ReplicaDisk (Stop LsmError) Unit := do
  let ok ← attempt fun st => (.ok (env.io st.1.1.2), (((st.1.1.1, st.1.1.2 + 1), st.1.2), st.2))
  match ok, left with
  | true, _ => writeStateUpTo text text.length
  | false, some n => do
    writeStateUpTo text (min n text.length)
    throw (.error (.replication .io))
  | false, none => throw (.error (.replication .io))

/-- `ReplicationTracker::advance` with its effect on the file. -/
def advanceState (fmt : StateFormat) (env : Env) (left : Option Nat) (sequence : Nat) :
    Op Lock ReplicaDisk (Stop LsmError) Unit := do
  let last ← gets fun st => st.1.1.1.lastPrimarySequence
  if sequence ≥ last.getD 0 then do
    attempt fun st => (.ok (), ((({ st.1.1.1 with lastPrimarySequence := some sequence },
      st.1.1.2), st.1.2), st.2))
    writeState env left (fmt.toStringPretty sequence)
  else return ()

/-- `flush_memtable` when the memtable is full, with its effects on the directory. -/
def flushFilesIfFull (p : Platform) (env : Env) (left : Option Nat) (memtableLen : Nat) :
    Op Lock OnDisk (Stop LsmError) Unit := do
  let threshold ← beside (gets fun st => st.1.flushThreshold)
  if memtableLen ≥ threshold then flushFiles p env left
  else return ()

/-- `apply_replication_batch` with its effects on the directory. -/
def applyFiles (fmt : StateFormat) (p : Platform) (c : Codec) (env : Env) (left : Option Nat)
    (entries : List ReplicationEntry) : Op Lock ReplicaDisk (Stop LsmError) Nat :=
  if entries = [] then return 0
  else do
    let role ← beside (beside (gets fun st => st.1.role))
    if role ≠ .replica then throw (.error (.replication .notReplica))
    else do
      let maxSeq := ((entries.map ReplicationEntry.sequence).max?).getD 0
      let memtableLen ← beside (beside (storeReplicated c env entries))
      beside (flushFilesIfFull p env left memtableLen)
      withGuard .replication .write (advanceState fmt env left maxSeq)
      return entries.length

/-- The same with the position in memory only. -/
def applyTables (p : Platform) (c : Codec) (env : Env) (left : Option Nat)
    (entries : List ReplicationEntry) : Op Lock OnDisk (Stop LsmError) Nat :=
  if entries = [] then return 0
  else do
    let role ← beside (gets fun st => st.1.role)
    if role ≠ .replica then throw (.error (.replication .notReplica))
    else do
      let maxSeq := ((entries.map ReplicationEntry.sequence).max?).getD 0
      let memtableLen ← beside (storeReplicated c env entries)
      flushFilesIfFull p env left memtableLen
      beside (withGuard .replication .write (attempt (advance env maxSeq)))
      return entries.length

end Writing

section Refinement

variable (fmt : StateFormat) (p : Platform) (c : Codec) (env : Env) (left : Option Nat)

theorem exec_writeStateUpTo (text : Bytes) (n : Nat) (held : Held Lock) (st : ReplicaDisk) :
    exec (writeStateUpTo text n) held st = .finished (.ok ()) held (st.1, some (text.take n)) := by
  induction n with
  | zero => rfl
  | succ n ih =>
    rw [writeStateUpTo, exec_bind_ok ih]
    rfl

/-- In memory it is `fileOp`. -/
theorem exec_writeState (text : Bytes) (held : Held Lock) (s : LsmTree) (time : Nat)
    (files : List TableFile) (json : Option Bytes) : ∃ json',
      exec (writeState env left text) held (((s, time), files), json) =
        .finished (fileOp env (.replication .io) (s, time)).1 held
          (((s, time + 1), files), json') := by
  have hop : exec (attempt fun st : ReplicaDisk =>
      ((.ok (env.io st.1.1.2) : Except (Stop LsmError) Bool),
        (((st.1.1.1, st.1.1.2 + 1), st.1.2), st.2))) held (((s, time), files), json) =
      .finished (.ok (env.io time)) held (((s, time + 1), files), json) := rfl
  rw [writeState, exec_bind_ok hop, fileOp]
  cases env.io time with
  | true =>
    dsimp only
    rw [exec_writeStateUpTo]
    exact ⟨_, rfl⟩
  | false =>
    cases left with
    | none => exact ⟨json, rfl⟩
    | some n =>
      dsimp only
      rw [exec_bind_ok (exec_writeStateUpTo _ _ _ _)]
      exact ⟨_, rfl⟩

theorem refines_advanceState (sequence : Nat) :
    Refines (advanceState fmt env left sequence) (beside (attempt (advance env sequence))) := by
  rintro held ⟨⟨s, time⟩, files⟩ json
  have hlast : exec (gets fun st : ReplicaDisk => st.1.1.1.lastPrimarySequence) held
      (((s, time), files), json) = .finished (.ok (ε := Stop LsmError) s.lastPrimarySequence) held
        (((s, time), files), json) := rfl
  rw [advanceState, exec_bind_ok hlast]
  have hbeside : exec (beside (attempt (advance env sequence))) held ((s, time), files) =
      .finished (advance env sequence (s, time)).1 held ((advance env sequence (s, time)).2, files) :=
    rfl
  rw [hbeside, advance, DiskM.current_bind]
  split_ifs
  · obtain ⟨json', h⟩ := exec_writeState env left (fmt.toStringPretty sequence) held
      { s with lastPrimarySequence := some sequence } time files json
    have hset : exec (attempt fun st : ReplicaDisk => ((.ok () : Except (Stop LsmError) Unit),
        ((({ st.1.1.1 with lastPrimarySequence := some sequence }, st.1.1.2), st.1.2), st.2))) held
          (((s, time), files), json) = .finished (.ok ()) held
            ((({ s with lastPrimarySequence := some sequence }, time), files), json) := rfl
    rw [exec_bind_ok hset, h]
    exact ⟨json', rfl⟩
  · exact ⟨json, rfl⟩

theorem refines_applyFiles (entries : List ReplicationEntry) :
    Refines (applyFiles fmt p c env left entries) (applyTables p c env left entries) := by
  rw [applyFiles, applyTables]
  split_ifs
  · exact refines_pure 0
  refine (refines_beside _).bind fun role => ?_
  split_ifs
  · exact refines_throw _
  refine (refines_beside _).bind fun memtableLen => (refines_beside _).bind fun _ => ?_
  exact ((refines_advanceState fmt env left _).withGuard .replication .write).bind fun _ =>
    refines_pure _

theorem refines_applyTables (entries : List ReplicationEntry) :
    Refines (applyTables p c env left entries) (applyReplicationBatch p c env entries) := by
  rw [applyTables, applyReplicationBatch]
  split_ifs
  · exact refines_pure 0
  refine (refines_beside _).bind fun role => ?_
  split_ifs
  · exact refines_throw _
  refine (refines_beside _).bind fun memtableLen => ?_
  refine Refines.bind (Refines.bind (refines_beside _) fun threshold => ?_) fun _ =>
    (refines_beside _).bind fun _ => refines_pure _
  split_ifs
  · exact refines_flushFiles p env left
  · exact refines_pure ()

end Refinement

end LsmTree

end Graphite
