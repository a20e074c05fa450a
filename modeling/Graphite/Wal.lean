import Graphite.FramedLog
import Graphite.Types

/-! The write-ahead log at byte level: framed records with a CRC32 of the payload.
A file is its byte string. A failing `write_all` leaves some prefix of its buffer in
the file; which writes fail, and after how many bytes, is an argument of the calls. -/

namespace Graphite
open BigEndian FramedLog

inductive WalError where
  | io
  | corrupt (offset : Nat) (reason : String)
  | serialize (message : String)
  deriving DecidableEq, Repr

/-- The functions of other packages the log calls: `serde_json::to_vec` and
`serde_json::from_slice` on log records, and the checksum of `crc32fast`. -/
structure Codec where
  toVec : WalRecord → Except String Bytes
  fromSlice : Bytes → Except String WalRecord
  crc32 : Bytes → UInt32

/-- The serialiser accepts the record, in less than four gigabytes, and the
deserialiser gives it back, as for records whose floats are finite. -/
def Codec.Inverts (c : Codec) (r : WalRecord) : Prop :=
  ∃ payload, c.toVec r = .ok payload ∧ c.fromSlice payload = .ok r ∧ payload.length < 2 ^ 32

structure Wal where
  file : Bytes
  offset : Nat
  sequence : Nat
  replayed : List WalRecord
  deriving DecidableEq, Repr

namespace Wal

def MAGIC : Nat := 0x47524154

def VERSION : Nat := 1

/-- magic + version + checksum + length + seq -/
def headerSize : Nat := 4 + 2 + 4 + 4 + 8

/-- The buffer of one record; the length field keeps the low 32 bits. -/
def encodeRecord (c : Codec) (sequence : Nat) (payload : Bytes) : Bytes :=
  encode 4 MAGIC ++ (encode 2 VERSION ++ (encode 4 (c.crc32 payload).toNat ++
    (encode 4 payload.length ++ (encode 8 sequence ++ payload))))

/-- How the writes of one call turn out: after how many bytes each `write_all` fails, if
it does, and whether `sync_all` succeeds. -/
structure Disk where
  fault : Nat → Option Nat
  synced : Bool

def Disk.sound : Disk := ⟨fun _ => none, true⟩

/-- Serialise a record and `write_all` its buffer in append mode; gives the buffer's size. -/
def writeRecord (c : Codec) (fault : Option Nat) (w : Wal) (record : WalRecord) :
    Except (Stop WalError) Nat × Wal :=
  match c.toVec record with
  | .error message => (.error (.error (.serialize message)), w)
  | .ok payload =>
    let buf := encodeRecord c w.sequence payload
    match fault with
    | none => (.ok buf.length, { w with file := w.file ++ buf })
    | some n => (.error (.error .io), { w with file := w.file ++ buf.take n })

/-- `self.offset += record_size; self.sequence += 1`; the sequence is a `u64`. -/
def advance (w : Wal) (recordSize : Nat) : Except (Stop WalError) Nat × Wal :=
  let w := { w with offset := w.offset + recordSize }
  if w.sequence + 1 < 2 ^ 64 then (.ok (w.sequence + 1), { w with sequence := w.sequence + 1 })
  else (.error .panic, w)

/-- Append a record and fsync. -/
def append (c : Codec) (disk : Disk) (w : Wal) (record : WalRecord) :
    Except (Stop WalError) Nat × Wal :=
  match writeRecord c (disk.fault 0) w record with
  | (.error e, w) => (.error e, w)
  | (.ok size, w) => if disk.synced then advance w size else (.error (.error .io), w)

/-- Append multiple records with a single fsync at the end. -/
def appendBatch (c : Codec) (disk : Disk) (w : Wal) :
    List WalRecord → Except (Stop WalError) Nat × Wal
  | [] => (if disk.synced then .ok w.sequence else .error (.error .io), w)
  | record :: records =>
    match writeRecord c (disk.fault 0) w record with
    | (.error e, w) => (.error e, w)
    | (.ok size, w) =>
      match advance w size with
      | (.error e, w) => (.error e, w)
      | (.ok _, w) => appendBatch c { disk with fault := fun i => disk.fault (i + 1) } w records

/-- `read_exact` on what is left of the file. -/
def readExact (n : Nat) (file : Bytes) : Except (Stop WalError) (Bytes × Bytes) :=
  if n ≤ file.length then .ok (file.take n, file.drop n) else .error (.error .io)

structure Frame where
  sequence : Nat
  payload : Bytes
  deriving DecidableEq, Repr

/-- `{magic:#x}` -/
def hex (n : Nat) : String := "0x" ++ String.ofList (Nat.toDigits 16 n)

/-- One record of the log, up to its checksum. Only a magic that cannot be read
ends the log (`none`); every later field that is cut short is an error. -/
def readFrame (c : Codec) (offset : Nat) (file : Bytes) :
    Except (Stop WalError) (Option (Frame × Bytes)) :=
  match readExact 4 file with
  | .error _ => .ok none
  | .ok (magicBuf, file) => do
    if decode magicBuf ≠ MAGIC then
      throw (.error (.corrupt offset ("bad magic: " ++ hex (decode magicBuf))))
    let (versionBuf, file) ← readExact 2 file
    if decode versionBuf ≠ VERSION then
      throw (.error (.corrupt offset ("unsupported version: " ++ toString (decode versionBuf))))
    let (checksumBuf, file) ← readExact 4 file
    let (lenBuf, file) ← readExact 4 file
    let (seqBuf, file) ← readExact 8 file
    let (payload, file) ← readExact (decode lenBuf) file
    if (c.crc32 payload).toNat ≠ decode checksumBuf then
      throw (.error (.corrupt offset "checksum mismatch"))
    return some (⟨decode seqBuf, payload⟩, file)

/-- The loop of `replay`: records with the sequence numbers of their headers; the number
of the next record is computed at once, and overflows at the last `u64`. Every record
takes bytes off the file, so one more than the file's length is enough fuel. -/
def replayLoop (c : Codec) :
    (fuel offset : Nat) → Bytes → Except (Stop WalError) (List (Nat × WalRecord))
  | 0, _, _ => .ok []
  | fuel + 1, offset, file => do
    match ← readFrame c offset file with
    | none => return []
    | some (frame, file) =>
      match c.fromSlice frame.payload with
      | .error message => throw (.error (.corrupt offset message))
      | .ok record =>
        if 2 ^ 64 ≤ frame.sequence + 1 then throw .panic
        let rest ← replayLoop c fuel (offset + headerSize + frame.payload.length) file
        return (frame.sequence, record) :: rest

/-- Replay WAL from beginning for crash recovery. -/
def replay (c : Codec) (w : Wal) : Except (Stop WalError) (List WalRecord × Wal) := do
  let records ← replayLoop c (w.file.length + 1) 0 w.file
  let sequence := (records.getLast?.map fun r => r.1 + 1).getD w.sequence
  return (records.map Prod.snd, { w with sequence })

/-- `Wal::open` on a file with this content; a missing file is created empty. -/
def «open» (c : Codec) (file : Bytes) : Except (Stop WalError) Wal := do
  let (replayed, w) ← replay c ⟨file, file.length, 0, []⟩
  return { w with replayed }

/-- `set_len(0)` and `sync_all`, each of which may fail. -/
def truncate (cut synced : Bool) (w : Wal) : Except (Stop WalError) Unit × Wal :=
  if !cut then (.error (.error .io), w)
  else if !synced then (.error (.error .io), { w with file := [] })
  else (.ok (), { w with file := [], offset := 0 })

/-- The loop of `read_for_replication`: it stops at the limit, skips records up to
`after` without decoding them, and counts the offset on before it decodes. -/
def readLoop (c : Codec) (afterSequence : Option Nat) :
    (fuel limit offset : Nat) → Bytes → Except (Stop WalError) (List (Nat × WalRecord))
  | 0, _, _, _ => .ok []
  | _, 0, _, _ => .ok []
  | fuel + 1, limit + 1, offset, file => do
    match ← readFrame c offset file with
    | none => return []
    | some (frame, file) =>
      let offset := offset + headerSize + frame.payload.length
      if afterSequence.all (· < frame.sequence) then
        match c.fromSlice frame.payload with
        | .error message => throw (.error (.corrupt offset message))
        | .ok record =>
          let rest ← readLoop c afterSequence fuel limit offset file
          return (frame.sequence, record) :: rest
      else readLoop c afterSequence fuel (limit + 1) offset file

/-- Read WAL records for replication, from the start without `afterSequence`. -/
def readForReplication (c : Codec) (w : Wal) (afterSequence : Option Nat) (limit : Nat) :
    Except (Stop WalError) (List (Nat × WalRecord)) :=
  readLoop c afterSequence (w.file.length + 1) limit 0 w.file

theorem readExact_eq_ok_iff (n : Nat) (file bs rest : Bytes) :
    readExact n file = .ok (bs, rest) ↔ bs.length = n ∧ file = bs ++ rest := by
  unfold readExact
  split_ifs with h
  · simp only [Except.ok.injEq, Prod.mk.injEq]
    constructor
    · rintro ⟨rfl, rfl⟩
      exact ⟨by rw [List.length_take]; omega, (List.take_append_drop n file).symm⟩
    · rintro ⟨rfl, rfl⟩
      exact ⟨List.take_left, List.drop_left⟩
  · simp only [false_iff, not_and]
    rintro hn rfl
    rw [List.length_append] at h
    omega

theorem readExact_append (bs rest : Bytes) {n : Nat} (h : bs.length = n) :
    readExact n (bs ++ rest) = .ok (bs, rest) :=
  (readExact_eq_ok_iff _ _ _ _).mpr ⟨h, rfl⟩

theorem readExact_short {n : Nat} {file : Bytes} (h : file.length < n) :
    readExact n file = .error (.error .io) := by
  rw [readExact, if_neg (by omega)]

@[simp] theorem length_encodeRecord (c : Codec) (sequence : Nat) (payload : Bytes) :
    (encodeRecord c sequence payload).length = headerSize + payload.length := by
  simp [encodeRecord, headerSize]
  omega

/-- A whole record is read back, and the bytes after it are left alone. -/
theorem readFrame_encodeRecord (c : Codec) (offset sequence : Nat) (payload rest : Bytes)
    (hlen : payload.length < 2 ^ 32) :
    readFrame c offset (encodeRecord c sequence payload ++ rest) =
      .ok (some (⟨sequence % 256 ^ 8, payload⟩, rest)) := by
  have hcrc : (c.crc32 payload).toNat < 256 ^ 4 := (c.crc32 payload).toNat_lt
  have hlen' : payload.length < 256 ^ 4 := hlen
  have hmagic : decode (encode 4 MAGIC) = MAGIC := by decide
  have hversion : decode (encode 2 VERSION) = VERSION := by decide
  simp only [encodeRecord, List.append_assoc, readFrame, readExact_append _ _ (length_encode _ _),
    hmagic, hversion, ne_eq, not_true_eq_false, if_false, bind, Except.bind, pure, Except.pure,
    decode_encode_of_lt hlen', readExact_append payload rest rfl, decode_encode_of_lt hcrc,
    decode_encode 8]

/-- What a record that is read consists of. -/
theorem readFrame_eq_some {c : Codec} {offset : Nat} {file : Bytes} {f : Frame} {rest : Bytes}
    (h : readFrame c offset file = .ok (some (f, rest))) :
    ∃ magicBuf middle lenBuf seqBuf, magicBuf.length = 4 ∧ middle.length = 6 ∧
      lenBuf.length = 4 ∧ seqBuf.length = 8 ∧ decode magicBuf = MAGIC ∧
      decode lenBuf = f.payload.length ∧ decode seqBuf = f.sequence ∧
      file = magicBuf ++ (middle ++ (lenBuf ++ (seqBuf ++ (f.payload ++ rest)))) := by
  unfold readFrame at h
  cases h1 : readExact 4 file with
  | error e => simp [h1] at h
  | ok p1 =>
    obtain ⟨magicBuf, file1⟩ := p1
    obtain ⟨l1, rfl⟩ := (readExact_eq_ok_iff _ _ _ _).mp h1
    simp only [h1, bind, Except.bind, pure, Except.pure] at h
    split_ifs at h with hmagic
    cases h2 : readExact 2 file1 with
    | error e => simp [h2] at h
    | ok p2 =>
      obtain ⟨versionBuf, file2⟩ := p2
      obtain ⟨l2, rfl⟩ := (readExact_eq_ok_iff _ _ _ _).mp h2
      simp only [h2] at h
      split_ifs at h with hversion
      cases h3 : readExact 4 file2 with
      | error e => simp [h3] at h
      | ok p3 =>
        obtain ⟨checksumBuf, file3⟩ := p3
        obtain ⟨l3, rfl⟩ := (readExact_eq_ok_iff _ _ _ _).mp h3
        simp only [h3] at h
        cases h4 : readExact 4 file3 with
        | error e => simp [h4] at h
        | ok p4 =>
          obtain ⟨lenBuf, file4⟩ := p4
          obtain ⟨l4, rfl⟩ := (readExact_eq_ok_iff _ _ _ _).mp h4
          simp only [h4] at h
          cases h5 : readExact 8 file4 with
          | error e => simp [h5] at h
          | ok p5 =>
            obtain ⟨seqBuf, file5⟩ := p5
            obtain ⟨l5, rfl⟩ := (readExact_eq_ok_iff _ _ _ _).mp h5
            simp only [h5] at h
            cases h6 : readExact (decode lenBuf) file5 with
            | error e => simp [h6] at h
            | ok p6 =>
              obtain ⟨payload, file6⟩ := p6
              obtain ⟨l6, rfl⟩ := (readExact_eq_ok_iff _ _ _ _).mp h6
              simp only [h6] at h
              split_ifs at h with hcrc
              simp only [Except.ok.injEq, Option.some.injEq, Prod.mk.injEq] at h
              obtain ⟨rfl, rfl⟩ := h
              refine ⟨magicBuf, versionBuf ++ checksumBuf, lenBuf, seqBuf, l1, by simp [l2, l3],
                l4, l5, not_not.mp hmagic, l6.symm, rfl, by simp⟩

/-- The bytes of a record with a sequence number, nothing when it does not serialise. -/
def frameOf (c : Codec) (entry : WalRecord × Nat) : Bytes :=
  match c.toVec entry.1 with
  | .ok payload => encodeRecord c entry.2 payload
  | .error _ => []

/-- The bytes of consecutive records, numbered from `first` on. -/
def logBytes (c : Codec) (first : Nat) (records : List WalRecord) : Bytes :=
  (records.zipIdx first).flatMap (frameOf c)

/-- The size of a record in the file, header included. -/
def recordSize (c : Codec) (record : WalRecord) : Nat := (frameOf c (record, 0)).length

theorem length_frameOf (c : Codec) (record : WalRecord) (i : Nat) :
    (frameOf c (record, i)).length = recordSize c record := by
  unfold recordSize frameOf
  cases c.toVec record <;> simp

theorem logBytes_cons (c : Codec) (first : Nat) (r : WalRecord) (rs : List WalRecord) :
    logBytes c first (r :: rs) = frameOf c (r, first) ++ logBytes c (first + 1) rs := rfl

theorem logBytes_append (c : Codec) (first : Nat) (rs more : List WalRecord) :
    logBytes c first (rs ++ more) =
      logBytes c first rs ++ logBytes c (first + rs.length) more := by
  rw [logBytes, List.zipIdx_append, List.flatMap_append]
  rfl

theorem length_logBytes (c : Codec) (first : Nat) (rs : List WalRecord) :
    (logBytes c first rs).length = (rs.map (recordSize c)).sum := by
  induction rs generalizing first with
  | nil => rfl
  | cons r rs ih =>
    rw [logBytes_cons, List.length_append, length_frameOf, ih, List.map_cons, List.sum_cons]

/-- The log with records written behind it. -/
def extend (c : Codec) (w : Wal) (records : List WalRecord) : Wal :=
  { w with
    file := w.file ++ logBytes c w.sequence records
    offset := w.offset + (records.map (recordSize c)).sum
    sequence := w.sequence + records.length }

@[simp] theorem extend_nil (c : Codec) (w : Wal) : extend c w [] = w := by
  simp [extend, logBytes]

theorem extend_append (c : Codec) (w : Wal) (rs more : List WalRecord) :
    extend c w (rs ++ more) = extend c (extend c w rs) more := by
  simp only [extend, logBytes_append, List.append_assoc, List.map_append, List.sum_append,
    List.length_append, Nat.add_assoc]

/-- A record that is written and counted extends the log by itself. -/
theorem advance_writeRecord {c : Codec} {fault : Option Nat} {w w₁ w' : Wal} {r : WalRecord}
    {size n : Nat} (hwrite : writeRecord c fault w r = (.ok size, w₁))
    (hadvance : advance w₁ size = (.ok n, w')) :
    w' = extend c w [r] ∧ n = w'.sequence ∧ n < 2 ^ 64 := by
  unfold writeRecord at hwrite
  cases hto : c.toVec r with
  | error message => simp [hto] at hwrite
  | ok payload =>
    cases fault with
    | some m => simp [hto] at hwrite
    | none =>
      simp only [hto, Prod.mk.injEq, Except.ok.injEq] at hwrite
      obtain ⟨rfl, rfl⟩ := hwrite
      simp only [advance] at hadvance
      split_ifs at hadvance with hbound
      · simp only [Prod.mk.injEq, Except.ok.injEq] at hadvance
        obtain ⟨rfl, rfl⟩ := hadvance
        refine ⟨?_, rfl, hbound⟩
        simp [extend, logBytes, recordSize, frameOf, hto]
      · simp at hadvance

/-- What an append that returns has done. -/
theorem append_eq_ok {c : Codec} {disk : Disk} {w w' : Wal} {r : WalRecord} {n : Nat}
    (h : append c disk w r = (.ok n, w')) :
    w' = extend c w [r] ∧ n = w'.sequence ∧ n < 2 ^ 64 := by
  unfold append at h
  cases hwrite : writeRecord c (disk.fault 0) w r with
  | mk result w₁ =>
    cases result with
    | error e => simp [hwrite] at h
    | ok size =>
      rw [hwrite] at h
      dsimp only at h
      split_ifs at h
      · exact advance_writeRecord hwrite h
      · simp at h

theorem appendBatch_eq_ok {c : Codec} {disk : Disk} {w w' : Wal} {rs : List WalRecord} {n : Nat}
    (h : appendBatch c disk w rs = (.ok n, w')) :
    w' = extend c w rs ∧ n = w'.sequence ∧ (rs = [] ∨ n < 2 ^ 64) := by
  induction rs generalizing disk w with
  | nil =>
    simp only [appendBatch, Prod.mk.injEq] at h
    obtain ⟨hn, rfl⟩ := h
    split_ifs at hn
    exact ⟨(extend_nil c w).symm, (Except.ok.inj hn).symm, Or.inl rfl⟩
  | cons r rs ih =>
    unfold appendBatch at h
    cases hwrite : writeRecord c (disk.fault 0) w r with
    | mk result w₁ =>
      cases result with
      | error e => simp [hwrite] at h
      | ok size =>
        cases hadvance : advance w₁ size with
        | mk result w₂ =>
          cases result with
          | error e => simp [hwrite, hadvance] at h
          | ok m =>
            simp only [hwrite, hadvance] at h
            obtain ⟨h₂, hm, hbound⟩ := advance_writeRecord hwrite hadvance
            obtain ⟨h', hn, hlast⟩ := ih h
            refine ⟨?_, hn, Or.inr ?_⟩
            · rw [h', h₂, ← extend_append, List.singleton_append]
            · rcases hlast with rfl | hlast
              · rw [hn, h', extend_nil, ← hm]
                exact hbound
              · exact hlast

/-- An inverted record occupies a whole frame. -/
theorem frame_of_inverts {c : Codec} {r : WalRecord} (h : c.Inverts r) :
    ∃ payload, payload.length < 2 ^ 32 ∧ c.fromSlice payload = .ok r ∧
      ∀ i, frameOf c (r, i) = encodeRecord c i payload := by
  obtain ⟨payload, hto, hfrom, hlen⟩ := h
  exact ⟨payload, hlen, hfrom, fun i => by rw [frameOf, hto]⟩

/-- Whole frames at the front of the file are replayed, whatever comes after them. -/
theorem replayLoop_logBytes (c : Codec) (rs : List WalRecord) (hrs : ∀ r ∈ rs, c.Inverts r)
    (first fuel offset : Nat) (rest : Bytes) (hfirst : rs = [] ∨ first + rs.length < 2 ^ 64)
    (hfuel : (logBytes c first rs ++ rest).length < fuel) :
    ∃ fuel' offset', rest.length < fuel' ∧
      replayLoop c fuel offset (logBytes c first rs ++ rest) =
        (replayLoop c fuel' offset' rest).map
          ((rs.zipIdx first).map (fun e => (e.2, e.1)) ++ ·) := by
  induction rs generalizing first fuel offset with
  | nil =>
    refine ⟨fuel, offset, by simpa [logBytes] using hfuel, ?_⟩
    cases h : replayLoop c fuel offset rest <;> simp [logBytes, h, Except.map]
  | cons r rs ih =>
    obtain ⟨payload, hlen, hfrom, hframe⟩ := frame_of_inverts (hrs r (by simp))
    rw [logBytes_cons, hframe, List.append_assoc] at hfuel ⊢
    have hbound : first + (rs.length + 1) < 2 ^ 64 := by simpa using hfirst
    have hmod : first % 256 ^ 8 = first := Nat.mod_eq_of_lt (by omega)
    cases fuel with
    | zero => simp at hfuel
    | succ fuel =>
      have hrest : (logBytes c (first + 1) rs ++ rest).length < fuel := by
        simp only [List.length_append, length_encodeRecord, headerSize] at hfuel ⊢
        omega
      obtain ⟨fuel', offset', hfuel', hloop⟩ := ih (fun x hx => hrs x (by simp [hx])) (first + 1)
        fuel (offset + headerSize + payload.length) (by omega) hrest
      refine ⟨fuel', offset', hfuel', ?_⟩
      rw [replayLoop, readFrame_encodeRecord c offset first payload _ hlen, hmod]
      simp only [bind, Except.bind, hfrom, hloop, pure, Except.pure,
        if_neg (by omega : ¬ 2 ^ 64 ≤ first + 1)]
      cases replayLoop c fuel' offset' rest <;> rfl

theorem readFrame_short (c : Codec) (offset : Nat) {file : Bytes} (h : file.length < 4) :
    readFrame c offset file = .ok none := by
  rw [readFrame, readExact_short h]

theorem readFrame_eq_none_iff (c : Codec) (offset : Nat) (file : Bytes) :
    readFrame c offset file = .ok none ↔ file.length < 4 := by
  refine ⟨fun h => ?_, readFrame_short c offset⟩
  by_contra hlen
  simp only [readFrame, readExact, if_pos (Nat.not_lt.mp hlen), bind, Except.bind, pure,
    Except.pure] at h
  split_ifs at h
  repeat' split at h
  all_goals simp at h

/-- At the end of the file, and on up to three bytes of a torn magic, the replay stops. -/
theorem replayLoop_short (c : Codec) {fuel offset : Nat} {rest : Bytes} (h : rest.length < 4) :
    replayLoop c fuel offset rest = .ok [] := by
  cases fuel with
  | zero => rfl
  | succ fuel =>
    rw [replayLoop, readFrame_short c offset h]
    rfl

/-- A torn record whose magic is whole is an error, whichever field the cut falls in. -/
theorem readFrame_torn (c : Codec) (offset sequence : Nat) (payload tail : Bytes)
    (hlen : payload.length < 2 ^ 32) (htail : tail <+: encodeRecord c sequence payload)
    (hshort : tail.length < (encodeRecord c sequence payload).length) (h4 : 4 ≤ tail.length) :
    ∃ e, readFrame c offset tail = .error e := by
  cases h : readFrame c offset tail with
  | error e => exact ⟨e, rfl⟩
  | ok found =>
    exfalso
    cases found with
    | none => exact absurd ((readFrame_eq_none_iff c offset tail).mp h) (Nat.not_lt.mpr h4)
    | some p =>
      obtain ⟨f, rest⟩ := p
      obtain ⟨magicBuf, middle, lenBuf, seqBuf, l1, l2, l3, l4, -, hpayload, -, rfl⟩ :=
        readFrame_eq_some h
      obtain ⟨more, hmore⟩ := htail
      rw [length_encodeRecord, headerSize] at hshort
      have hfields : magicBuf = encode 4 MAGIC ∧
          middle = encode 2 VERSION ++ encode 4 (c.crc32 payload).toNat ∧
          lenBuf = encode 4 payload.length := by
        simp only [encodeRecord, List.append_assoc] at hmore
        obtain ⟨e1, hmore⟩ := List.append_inj hmore (by simp [l1])
        rw [← List.append_assoc (encode 2 VERSION)] at hmore
        obtain ⟨e2, hmore⟩ := List.append_inj hmore (by simp [l2])
        exact ⟨e1, e2, (List.append_inj hmore (by simp [l3])).1⟩
      rw [hfields.2.2, decode_encode_of_lt hlen] at hpayload
      simp only [List.length_append, l1, l2, l3, l4, ← hpayload] at hshort
      omega

/-- One to three bytes in front of a whole record are a bad magic. -/
theorem readFrame_fragment (c : Codec) (offset sequence : Nat) (payload tail rest : Bytes)
    (hpos : tail ≠ []) (h4 : tail.length < 4) :
    ∃ e, readFrame c offset (tail ++ (encodeRecord c sequence payload ++ rest)) = .error e := by
  have hmagic : encode 4 MAGIC = [0x47, 0x52, 0x41, 0x54] := by decide
  obtain ⟨magicBuf, rest', h1, hbad⟩ : ∃ magicBuf rest',
      readExact 4 (tail ++ (encodeRecord c sequence payload ++ rest)) = .ok (magicBuf, rest') ∧
        decode magicBuf ≠ MAGIC := by
    rw [encodeRecord, hmagic]
    match tail, hpos, h4 with
    | [a], _, _ =>
      refine ⟨[a, 0x47, 0x52, 0x41], _, readExact_append [a, 0x47, 0x52, 0x41] _ rfl, ?_⟩
      simp [decode, MAGIC]
      omega
    | [a, b], _, _ =>
      refine ⟨[a, b, 0x47, 0x52], _, readExact_append [a, b, 0x47, 0x52] _ rfl, ?_⟩
      simp [decode, MAGIC]
      omega
    | [a, b, d], _, _ =>
      refine ⟨[a, b, d, 0x47], _, readExact_append [a, b, d, 0x47] _ rfl, ?_⟩
      simp [decode, MAGIC]
      omega
  refine ⟨.error (.corrupt offset ("bad magic: " ++ hex (decode magicBuf))), ?_⟩
  rw [readFrame, h1]
  simp only [if_pos hbad, bind, Except.bind, throw, throwThe, MonadExceptOf.throw]

theorem replayLoop_error {c : Codec} {fuel offset : Nat} {file : Bytes} {e : Stop WalError}
    (h : readFrame c offset file = .error e) (hfuel : file.length < fuel) :
    replayLoop c fuel offset file = .error e := by
  cases fuel with
  | zero => omega
  | succ fuel =>
    rw [replayLoop, h]
    rfl

end Wal

end Graphite
