import Graphite.BitFlip
import Graphite.WalReplay

/-! Single bits flipped in a log. The checksum of a record covers its payload only; the
readers compare the magic, the version and the checksum, and take the sequence number as
it stands. -/

namespace Graphite

/-- Flipping a bit of a payload changes its checksum. -/
def Codec.DetectsFlips (c : Codec) : Prop :=
  ∀ (payload : BigEndian.Bytes) (pos bit : Nat), pos < payload.length → bit < 8 →
    c.crc32 (BitFlip.flipBit payload pos bit) ≠ c.crc32 payload

namespace Wal
open BigEndian BitFlip

inductive Field where
  | magic
  | version
  | checksum
  | length
  | sequence
  | payload
  deriving DecidableEq, Repr

/-- The field that the byte `j` of a record belongs to. -/
def fieldAt (j : Nat) : Field :=
  if j < 4 then .magic
  else if j < 6 then .version
  else if j < 10 then .checksum
  else if j < 14 then .length
  else if j < 22 then .sequence
  else .payload

/-- What a reader that succeeds finds in a file. -/
inductive Scans (c : Codec) : Bytes → List (Nat × WalRecord) → Prop
  | done {file : Bytes} (h : file.length < 4) : Scans c file []
  | more {file rest : Bytes} {frame : Frame} {record : WalRecord} {found : List (Nat × WalRecord)}
    (hframe : readFrame c 0 file = .ok (some (frame, rest)))
    (hrecord : c.fromSlice frame.payload = .ok record) (h : Scans c rest found) :
    Scans c file ((frame.sequence, record) :: found)

/-- A frame whose fields have their lengths is read up to the first field that is wrong. -/
theorem readFrame_fields (c : Codec) (offset : Nat)
    {magicBuf versionBuf checksumBuf lenBuf seqBuf payload : Bytes} (hmagic : magicBuf.length = 4)
    (hversion : versionBuf.length = 2) (hchecksum : checksumBuf.length = 4)
    (hlen : lenBuf.length = 4) (hseq : seqBuf.length = 8) (hpayload : decode lenBuf = payload.length)
    (rest : Bytes) :
    readFrame c offset
        (magicBuf ++ (versionBuf ++ (checksumBuf ++ (lenBuf ++ (seqBuf ++ (payload ++ rest)))))) =
      if decode magicBuf ≠ MAGIC then
        .error (.error (.corrupt offset ("bad magic: " ++ hex (decode magicBuf))))
      else if decode versionBuf ≠ VERSION then
        .error (.error (.corrupt offset ("unsupported version: " ++ toString (decode versionBuf))))
      else if (c.crc32 payload).toNat ≠ decode checksumBuf then
        .error (.error (.corrupt offset "checksum mismatch"))
      else .ok (some (⟨decode seqBuf, payload⟩, rest)) := by
  simp only [readFrame, readExact_append _ _ hmagic, readExact_append _ _ hversion,
    readExact_append _ _ hchecksum, readExact_append _ _ hlen, readExact_append _ _ hseq, hpayload,
    readExact_append payload rest rfl, bind, Except.bind, pure, Except.pure, throw, throwThe,
    MonadExceptOf.throw]

theorem decode_magic : decode (encode 4 MAGIC) = MAGIC := by decide

theorem decode_version : decode (encode 2 VERSION) = VERSION := by decide

/-- A flip outside the length and the sequence number is detected. -/
theorem readFrame_flip_error {c : Codec} (hcrc : c.DetectsFlips) (offset sequence : Nat)
    {payload : Bytes} (hlen : payload.length < 2 ^ 32) {j bit : Nat}
    (hj : j < (encodeRecord c sequence payload).length) (hbit : bit < 8)
    (hlength : fieldAt j ≠ .length) (hsequence : fieldAt j ≠ .sequence) (rest : Bytes) :
    ∃ e, readFrame c offset (flipBit (encodeRecord c sequence payload) j bit ++ rest) =
      .error e := by
  have hcrc4 : (c.crc32 payload).toNat < 256 ^ 4 := (c.crc32 payload).toNat_lt
  have hlen4 : decode (encode 4 payload.length) = payload.length := decode_encode_of_lt hlen
  rw [length_encodeRecord, headerSize] at hj
  unfold encodeRecord
  by_cases h4 : j < 4
  · have hflip : decode (flipBit (encode 4 MAGIC) j bit) ≠ decode (encode 4 MAGIC) :=
      decode_flipBit_ne (by simpa using h4) hbit
    rw [decode_magic] at hflip
    rw [flipBit_append_left (by simpa using h4)]
    simp only [List.append_assoc]
    rw [readFrame_fields c offset (by simp) (by simp) (by simp) (by simp) (by simp) hlen4,
      if_pos hflip]
    exact ⟨_, rfl⟩
  by_cases h6 : j < 6
  · have hflip : decode (flipBit (encode 2 VERSION) (j - 4) bit) ≠ decode (encode 2 VERSION) :=
      decode_flipBit_ne (by simp; omega) hbit
    rw [decode_version] at hflip
    rw [flipBit_append_right (by simp; omega), length_encode,
      flipBit_append_left (by simp; omega)]
    simp only [List.append_assoc]
    rw [readFrame_fields c offset (by simp) (by simp) (by simp) (by simp) (by simp) hlen4,
      if_neg (not_not.mpr decode_magic), if_pos hflip]
    exact ⟨_, rfl⟩
  by_cases h10 : j < 10
  · have hflip : decode (flipBit (encode 4 (c.crc32 payload).toNat) (j - 4 - 2) bit) ≠
        decode (encode 4 (c.crc32 payload).toNat) := decode_flipBit_ne (by simp; omega) hbit
    rw [decode_encode_of_lt hcrc4] at hflip
    rw [flipBit_append_right (by simp; omega), length_encode,
      flipBit_append_right (by simp; omega), length_encode, flipBit_append_left (by simp; omega)]
    simp only [List.append_assoc]
    rw [readFrame_fields c offset (by simp) (by simp) (by simp) (by simp) (by simp) hlen4,
      if_neg (not_not.mpr decode_magic), if_neg (not_not.mpr decode_version), if_pos hflip.symm]
    exact ⟨_, rfl⟩
  have h22 : 22 ≤ j := by
    unfold fieldAt at hlength hsequence
    rw [if_neg h4, if_neg h6, if_neg h10] at hlength hsequence
    by_contra hlt
    by_cases h14 : j < 14
    · exact hlength (if_pos h14)
    · rw [if_neg h14, if_pos (by omega)] at hsequence
      exact hsequence rfl
  have hflip : (c.crc32 (flipBit payload (j - 4 - 2 - 4 - 4 - 8) bit)).toNat ≠
      decode (encode 4 (c.crc32 payload).toNat) := by
    rw [decode_encode_of_lt hcrc4]
    exact fun h => hcrc payload (j - 4 - 2 - 4 - 4 - 8) bit (by omega) hbit (UInt32.toNat_inj.mp h)
  rw [flipBit_append_right (by simp; omega), length_encode, flipBit_append_right (by simp; omega),
    length_encode, flipBit_append_right (by simp; omega), length_encode,
    flipBit_append_right (by simp; omega), length_encode, flipBit_append_right (by simp; omega),
    length_encode]
  simp only [List.append_assoc]
  rw [readFrame_fields c offset (by simp) (by simp) (by simp) (by simp) (by simp)
    (by rw [hlen4, length_flipBit]), if_neg (not_not.mpr decode_magic),
    if_neg (not_not.mpr decode_version), if_pos hflip]
  exact ⟨_, rfl⟩

/-- A flip in the sequence number gives the record under another number. -/
theorem readFrame_flip_sequence (c : Codec) (offset : Nat) {sequence : Nat}
    (hseq : sequence < 2 ^ 64) {payload : Bytes} (hlen : payload.length < 2 ^ 32) {j bit : Nat}
    (hbit : bit < 8) (hfield : fieldAt j = .sequence) (rest : Bytes) :
    ∃ sequence', sequence' ≠ sequence ∧
      readFrame c offset (flipBit (encodeRecord c sequence payload) j bit ++ rest) =
        .ok (some (⟨sequence', payload⟩, rest)) := by
  have hcrc4 : (c.crc32 payload).toNat < 256 ^ 4 := (c.crc32 payload).toNat_lt
  have hseq8 : sequence < 256 ^ 8 := hseq
  have hlen4 : decode (encode 4 payload.length) = payload.length := decode_encode_of_lt hlen
  obtain ⟨h14, h22⟩ : 14 ≤ j ∧ j < 22 := by
    unfold fieldAt at hfield
    split_ifs at hfield with h1 h2 h3 h4 h5
    exact ⟨Nat.not_lt.mp h4, h5⟩
  have hflip : decode (flipBit (encode 8 sequence) (j - 4 - 2 - 4 - 4) bit) ≠
      decode (encode 8 sequence) := decode_flipBit_ne (by simp; omega) hbit
  rw [decode_encode_of_lt hseq8] at hflip
  refine ⟨_, hflip, ?_⟩
  unfold encodeRecord
  rw [flipBit_append_right (by simp; omega), length_encode, flipBit_append_right (by simp; omega),
    length_encode, flipBit_append_right (by simp; omega), length_encode,
    flipBit_append_right (by simp; omega), length_encode, flipBit_append_left (by simp; omega)]
  simp only [List.append_assoc]
  rw [readFrame_fields c offset (by simp) (by simp) (by simp) (by simp) (by simp) hlen4,
    if_neg (not_not.mpr decode_magic), if_neg (not_not.mpr decode_version),
    if_neg (not_not.mpr (decode_encode_of_lt hcrc4).symm)]

/-- The offset only shows in the errors. -/
theorem readFrame_eq_ok_of_offset {c : Codec} {offset : Nat} {file : Bytes}
    {found : Option (Frame × Bytes)} (h : readFrame c offset file = .ok found) (offset' : Nat) :
    readFrame c offset' file = .ok found := by
  simp only [readFrame, bind, Except.bind, pure, Except.pure, throw, throwThe,
    MonadExceptOf.throw] at h ⊢
  repeat' split at h
  all_goals simp_all

theorem length_of_readFrame {c : Codec} {offset : Nat} {file rest : Bytes} {frame : Frame}
    (h : readFrame c offset file = .ok (some (frame, rest))) : rest.length < file.length := by
  obtain ⟨magicBuf, middle, lenBuf, seqBuf, l1, -, -, -, -, -, -, rfl⟩ := readFrame_eq_some h
  simp only [List.length_append]
  omega

theorem scans_short_iff {c : Codec} {file : Bytes} (h : file.length < 4)
    (found : List (Nat × WalRecord)) : Scans c file found ↔ found = [] := by
  constructor
  · intro hscans
    cases hscans with
    | done => rfl
    | more hframe =>
      rw [readFrame_short c 0 h] at hframe
      cases hframe
  · rintro rfl
    exact .done h

theorem scans_some_iff {c : Codec} {offset : Nat} {file rest : Bytes} {frame : Frame}
    (h : readFrame c offset file = .ok (some (frame, rest))) (found : List (Nat × WalRecord)) :
    Scans c file found ↔ ∃ record more, c.fromSlice frame.payload = .ok record ∧
      Scans c rest more ∧ found = (frame.sequence, record) :: more := by
  have h0 := readFrame_eq_ok_of_offset h 0
  constructor
  · intro hscans
    cases hscans with
    | done hlen =>
      rw [readFrame_short c 0 hlen] at h0
      cases h0
    | @more _ _ _ record more hframe hrecord hrest =>
      rw [h0] at hframe
      cases hframe
      exact ⟨record, more, hrecord, hrest, rfl⟩
  · rintro ⟨record, more, hrecord, hrest, rfl⟩
    exact .more h0 hrecord hrest

theorem not_scans_of_error {c : Codec} {offset : Nat} {file : Bytes} {e : Stop WalError}
    (h : readFrame c offset file = .error e) (found : List (Nat × WalRecord)) :
    ¬ Scans c file found := by
  intro hscans
  cases hscans with
  | done hlen =>
    rw [readFrame_short c offset hlen] at h
    cases h
  | more hframe =>
    rw [readFrame_eq_ok_of_offset hframe offset] at h
    cases h

/-- A replay that succeeds has scanned the file. -/
theorem scans_of_replayLoop {c : Codec} {fuel offset : Nat} {file : Bytes}
    {found : List (Nat × WalRecord)} (h : replayLoop c fuel offset file = .ok found)
    (hfuel : file.length < fuel) : Scans c file found := by
  induction fuel generalizing offset file found with
  | zero => omega
  | succ fuel ih =>
    rw [replayLoop] at h
    obtain ⟨frame, hframe, h⟩ := bind_eq_ok.mp h
    cases frame with
    | none =>
      cases h
      exact .done ((readFrame_eq_none_iff c offset file).mp hframe)
    | some p =>
      obtain ⟨frame, rest⟩ := p
      have hrest := length_of_readFrame hframe
      cases hrecord : c.fromSlice frame.payload with
      | error message => simp [hrecord] at h
      | ok record =>
        simp only [hrecord] at h
        split_ifs at h
        · cases h
        · obtain ⟨-, -, h⟩ := bind_eq_ok.mp h
          obtain ⟨more, hmore, h⟩ := bind_eq_ok.mp h
          cases h
          exact .more (readFrame_eq_ok_of_offset hframe 0) hrecord (ih hmore (by omega))

/-- The replication reader without bounds succeeds exactly on what it scans. -/
theorem readLoop_eq_ok_iff {c : Codec} {fuel limit : Nat} {file : Bytes}
    (hfuel : file.length < fuel) (hlimit : fuel ≤ limit) (offset : Nat)
    (found : List (Nat × WalRecord)) :
    readLoop c none fuel limit offset file = .ok found ↔ Scans c file found := by
  induction fuel generalizing limit file offset found with
  | zero => omega
  | succ fuel ih =>
    obtain ⟨limit, rfl⟩ := Nat.exists_eq_succ_of_ne_zero (by omega : limit ≠ 0)
    rw [readLoop]
    cases hframe : readFrame c offset file with
    | error e =>
      refine iff_of_false (fun h => ?_) (not_scans_of_error hframe found)
      cases h
    | ok p =>
      cases p with
      | none =>
        rw [scans_short_iff ((readFrame_eq_none_iff c offset file).mp hframe)]
        simp [bind, Except.bind, pure, Except.pure, eq_comm]
      | some p =>
        obtain ⟨frame, rest⟩ := p
        have hrest := length_of_readFrame hframe
        rw [scans_some_iff hframe]
        cases hrecord : c.fromSlice frame.payload with
        | error message =>
          simp [bind, Except.bind, hrecord, throw, throwThe, MonadExceptOf.throw]
        | ok record =>
          have hiff (more : List (Nat × WalRecord)) :=
            ih (by omega : rest.length < fuel) (by omega : fuel ≤ limit)
              (offset + headerSize + frame.payload.length) more
          cases hloop : readLoop c none fuel limit (offset + headerSize + frame.payload.length)
              rest with
          | error e =>
            have hnone (more : List (Nat × WalRecord)) : ¬ Scans c rest more := by
              rw [← hiff, hloop]
              exact fun h => by cases h
            simp [bind, Except.bind, hrecord, hloop, hnone]
          | ok more =>
            have hone (more' : List (Nat × WalRecord)) : Scans c rest more' ↔ more = more' := by
              rw [← hiff, hloop, Except.ok.injEq]
            simp [bind, Except.bind, hrecord, hloop, hone, pure, Except.pure, eq_comm]

/-- Records with the sequence numbers a log gives them. -/
def numbered (first : Nat) (rs : List WalRecord) : List (Nat × WalRecord) :=
  (rs.zipIdx first).map fun e => (e.2, e.1)

/-- Records that were appended are scanned one by one, up to the first that serde refuses. -/
theorem scans_logBytes_append_iff {c : Codec} {rs : List WalRecord} (hrs : ∀ r ∈ rs, c.Serde r)
    (first : Nat) (hfirst : first + rs.length ≤ 2 ^ 64) (rest : Bytes)
    (found : List (Nat × WalRecord)) :
    Scans c (logBytes c first rs ++ rest) found ↔
      (∀ r ∈ rs, r.Finite) ∧ ∃ more, Scans c rest more ∧ found = numbered first rs ++ more := by
  induction rs generalizing first found with
  | nil => simp [logBytes, numbered]
  | cons r rs ih =>
    have hr := hrs r List.mem_cons_self
    obtain ⟨payload, hto, hlen⟩ := hr.accepts
    have hframe : frameOf c (r, first) = encodeRecord c first payload := by rw [frameOf, hto]
    have hmod : first % 256 ^ 8 = first := by
      rw [List.length_cons] at hfirst
      exact Nat.mod_eq_of_lt (by omega)
    have hread := readFrame_encodeRecord c 0 first payload (logBytes c (first + 1) rs ++ rest) hlen
    rw [hmod] at hread
    have htail := ih (fun x hx => hrs x (List.mem_cons_of_mem r hx)) (first + 1)
      (by rw [List.length_cons] at hfirst; omega)
    rw [logBytes_cons, hframe, List.append_assoc, scans_some_iff hread, List.forall_mem_cons]
    simp only [hr.fromSlice_iff hto, htail]
    constructor
    · rintro ⟨record, more, ⟨hfinite, rfl⟩, ⟨hrest, more', hmore, rfl⟩, rfl⟩
      exact ⟨⟨hfinite, hrest⟩, more', hmore, rfl⟩
    · rintro ⟨⟨hfinite, hrest⟩, more, hmore, rfl⟩
      exact ⟨r, _, ⟨hfinite, rfl⟩, ⟨hrest, more, hmore, rfl⟩, rfl⟩

/-- Both readers of the file return an error or exactly these records, under the numbers
the log has given them. -/
structure Undamaged (c : Codec) (rs : List WalRecord) (limit : Nat) (file : Bytes) : Prop where
  replay : ∀ w, Wal.open c file = .ok w → w.replayed = rs ∧ w.sequence = rs.length
  replication : ∀ w found, w.file = file → readForReplication c w none limit = .ok found →
    found = numbered 0 rs

theorem map_snd_numbered (first : Nat) (rs : List WalRecord) :
    (numbered first rs).map Prod.snd = rs := by
  simp [numbered, Function.comp_def]

theorem next_numbered (rs : List WalRecord) :
    (((numbered 0 rs).getLast?.map fun r => r.1 + 1).getD 0) = rs.length := by
  cases rs using List.reverseRecOn with
  | nil => rfl
  | append_singleton rs r => simp [numbered, List.zipIdx_append]

/-- A file that can only be scanned as the original log is. -/
theorem undamaged_of_scans {c : Codec} {rs : List WalRecord} {limit : Nat} {file : Bytes}
    (hlimit : file.length < limit)
    (h : ∀ found, Scans c file found → found = numbered 0 rs) : Undamaged c rs limit file where
  replay w hopen := by
    cases hloop : replayLoop c (file.length + 1) 0 file with
    | error e =>
      rw [open_error hloop] at hopen
      cases hopen
    | ok found =>
      obtain rfl := h found (scans_of_replayLoop hloop (Nat.lt_succ_self _))
      rw [open_of_replayLoop hloop] at hopen
      cases hopen
      exact ⟨map_snd_numbered 0 rs, next_numbered rs⟩
  replication w found hfile hread := by
    subst hfile
    exact h found ((readLoop_eq_ok_iff (Nat.lt_succ_self _) hlimit 0 found).mp hread)

theorem flipBit_logBytes {c : Codec} {r : WalRecord} {payload : Bytes}
    (hto : c.toVec r = .ok payload) (front back : List WalRecord) {j : Nat}
    (hj : j < recordSize c r) (bit : Nat) :
    flipBit (logBytes c 0 (front ++ r :: back)) ((logBytes c 0 front).length + j) bit =
      logBytes c 0 front ++ (flipBit (encodeRecord c front.length payload) j bit ++
        logBytes c (front.length + 1) back) := by
  have hframe : frameOf c (r, front.length) = encodeRecord c front.length payload := by
    rw [frameOf, hto]
  rw [← length_frameOf c r front.length, hframe] at hj
  rw [logBytes_append, Nat.zero_add, logBytes_cons, hframe,
    flipBit_append_right (Nat.le_add_right _ _), Nat.add_sub_cancel_left, flipBit_append_left hj]

/-- A log in which a sequence number is damaged is scanned under that number. -/
theorem scans_flip_sequence_iff {c : Codec} {front back : List WalRecord} {r : WalRecord}
    (hserde : ∀ x ∈ front ++ r :: back, c.Serde x) (hlen : (front ++ r :: back).length < 2 ^ 64)
    {j bit : Nat} (hj : j < recordSize c r) (hbit : bit < 8) (hfield : fieldAt j = .sequence) :
    ∃ sequence', sequence' ≠ front.length ∧ ∀ found,
      (Scans c (flipBit (logBytes c 0 (front ++ r :: back)) ((logBytes c 0 front).length + j) bit)
          found ↔
        (∀ x ∈ front ++ r :: back, x.Finite) ∧
          found = numbered 0 front ++ (sequence', r) :: numbered (front.length + 1) back) := by
  obtain ⟨hfront, hr, hback⟩ : (∀ x ∈ front, c.Serde x) ∧ c.Serde r ∧ ∀ x ∈ back, c.Serde x := by
    simpa [forall_and, or_imp] using hserde
  obtain ⟨payload, hto, hsmall⟩ := hr.accepts
  rw [List.length_append, List.length_cons] at hlen
  obtain ⟨sequence', hne, hread⟩ := readFrame_flip_sequence c 0
    (by omega : front.length < 2 ^ 64) hsmall hbit hfield (logBytes c (front.length + 1) back)
  have hrest (more : List (Nat × WalRecord)) := scans_logBytes_append_iff hback (front.length + 1)
    (by omega) [] more
  simp only [List.append_nil, scans_short_iff (by decide : ([] : Bytes).length < 4),
    exists_eq_left] at hrest
  refine ⟨sequence', hne, fun found => ?_⟩
  rw [flipBit_logBytes hto front back hj, scans_logBytes_append_iff hfront 0 (by omega),
    List.forall_mem_append, List.forall_mem_cons]
  simp only [scans_some_iff hread, hrest, hr.fromSlice_iff hto]
  constructor
  · rintro ⟨hfirst, more, ⟨record, more', ⟨hfinite, rfl⟩, ⟨hlast, rfl⟩, rfl⟩, rfl⟩
    exact ⟨⟨hfirst, hfinite, hlast⟩, rfl⟩
  · rintro ⟨⟨hfirst, hfinite, hlast⟩, rfl⟩
    exact ⟨hfirst, _, ⟨r, _, ⟨hfinite, rfl⟩, ⟨hlast, rfl⟩, rfl⟩, rfl⟩

/-- One flipped bit outside the length fields: the readers notice it, or read what was
written, exactly when it is not in a sequence number, or the log cannot be read anyhow. -/
theorem undamaged_flip_iff {c : Codec} (hcrc : c.DetectsFlips) {front back : List WalRecord}
    {r : WalRecord} (hserde : ∀ x ∈ front ++ r :: back, c.Serde x)
    (hlen : (front ++ r :: back).length < 2 ^ 64) {j bit : Nat} (hj : j < recordSize c r)
    (hbit : bit < 8) (hfield : fieldAt j ≠ .length) {limit : Nat}
    (hlimit : (logBytes c 0 (front ++ r :: back)).length < limit) :
    Undamaged c (front ++ r :: back) limit
        (flipBit (logBytes c 0 (front ++ r :: back)) ((logBytes c 0 front).length + j) bit) ↔
      fieldAt j ≠ .sequence ∨ ∃ x ∈ front ++ r :: back, ¬ x.Finite := by
  rw [← length_flipBit _ ((logBytes c 0 front).length + j) bit] at hlimit
  by_cases hsequence : fieldAt j = .sequence
  · obtain ⟨sequence', hne, hscans⟩ := scans_flip_sequence_iff hserde hlen hj hbit hsequence
    by_cases hfinite : ∀ x ∈ front ++ r :: back, x.Finite
    · refine iff_of_false ?_ ?_
      · intro h
        have hread := (readLoop_eq_ok_iff (Nat.lt_succ_self _) hlimit 0 _).mpr
          ((hscans _).mpr ⟨hfinite, rfl⟩)
        have heq := h.replication ⟨_, 0, 0, []⟩ _ rfl hread
        have hnumbered : numbered 0 (front ++ r :: back) =
            numbered 0 front ++ (front.length, r) :: numbered (front.length + 1) back := by
          simp [numbered, List.zipIdx_append]
        rw [hnumbered, List.append_cancel_left_eq, List.cons.injEq, Prod.mk.injEq] at heq
        exact hne heq.1.1
      · rintro (h | ⟨x, hx, hnot⟩)
        · exact h hsequence
        · exact hnot (hfinite x hx)
    · refine iff_of_true (undamaged_of_scans hlimit fun found hfound => ?_)
        (Or.inr (by simpa only [not_forall, exists_prop] using hfinite))
      exact absurd ((hscans found).mp hfound).1 hfinite
  · refine iff_of_true (undamaged_of_scans hlimit fun found hfound => ?_) (Or.inl hsequence)
    obtain ⟨payload, hto, hsmall⟩ := (hserde r (by simp)).accepts
    rw [flipBit_logBytes hto front back hj, scans_logBytes_append_iff
      (fun x hx => hserde x (by simp [hx])) 0 (by simp at hlen ⊢; omega)] at hfound
    obtain ⟨-, more, hmore, -⟩ := hfound
    have hj' : j < (encodeRecord c front.length payload).length := by
      rwa [← length_frameOf c r front.length, frameOf, hto] at hj
    obtain ⟨e, he⟩ := readFrame_flip_error hcrc 0 front.length hsmall hj' hbit hfield hsequence
      (logBytes c (front.length + 1) back)
    exact absurd hmore (not_scans_of_error he more)

/-- A damaged record of a log of successful appends is noticed by both readers, or read as
it was written, exactly when the flipped bit is not in its sequence number, or the log
cannot be read anyhow. -/
theorem bit_flip_noticed_iff (c : Codec) (hcrc : c.DetectsFlips) (calls : List Call)
    (hserde : ∀ r ∈ recordsOf calls, c.Serde r) (w : Wal)
    (hrun : runCalls c calls fresh = some w) (i : Nat) (r : WalRecord)
    (hi : (recordsOf calls)[i]? = some r) (j bit : Nat) (hj : j < recordSize c r) (hbit : bit < 8)
    (hfield : fieldAt j ≠ .length) (limit : Nat) (hlimit : w.file.length < limit) :
    Undamaged c (recordsOf calls) limit
        (flipBit w.file ((logBytes c 0 ((recordsOf calls).take i)).length + j) bit) ↔
      fieldAt j ≠ .sequence ∨ ∃ x ∈ recordsOf calls, ¬ x.Finite := by
  obtain ⟨rfl, hbound⟩ := runCalls_eq_some hrun
  obtain ⟨hlt, rfl⟩ := List.getElem?_eq_some_iff.mp hi
  have hlen : (recordsOf calls).length < 2 ^ 64 := by
    rcases hbound with hnil | hlt'
    · rw [hnil]
      exact Nat.two_pow_pos 64
    · simpa [extend, fresh] using hlt'
  have hsplit : recordsOf calls =
      (recordsOf calls).take i ++ (recordsOf calls)[i] :: (recordsOf calls).drop (i + 1) := by
    rw [List.getElem_cons_drop, List.take_append_drop]
  have hflip := undamaged_flip_iff hcrc (hsplit ▸ hserde) (hsplit ▸ hlen) hj hbit hfield
    (hsplit ▸ hlimit)
  rw [← hsplit] at hflip
  exact hflip

/-- One bit of the division by the polynomial. -/
def crcBit (crc : UInt32) : UInt32 :=
  if crc &&& 1 = 1 then (crc >>> 1) ^^^ 0xEDB88320 else crc >>> 1

def crcByte (crc : UInt32) (b : UInt8) : UInt32 := crcBit^[8] (crc ^^^ b.toUInt32)

theorem crc32_eq_foldl (bs : Bytes) : crc32 bs = bs.foldl crcByte 0xFFFFFFFF ^^^ 0xFFFFFFFF := rfl

theorem toNat_and_one (x : UInt32) : x &&& 1 = 1 ↔ x.toNat % 2 = 1 := by
  rw [← UInt32.toNat_inj, UInt32.toNat_and]
  simp [Nat.and_one_is_mod]

theorem toNat_shiftRight_one (x : UInt32) : (x >>> 1).toNat = x.toNat / 2 := by
  simp [Nat.shiftRight_succ]

/-- The top bit of the result tells which branch was taken. -/
theorem crcBit_injective : Function.Injective crcBit := by
  have hpoly (x y : UInt32) : (x >>> 1) ^^^ (0xEDB88320 : UInt32) ≠ y >>> 1 := by
    intro h
    have hbit := congrArg (fun z : UInt32 => z.toNat.testBit 31) h
    have hx : (x.toNat / 2).testBit 31 = false :=
      Nat.testBit_lt_two_pow (by have := x.toNat_lt; omega)
    have hy : (y.toNat / 2).testBit 31 = false :=
      Nat.testBit_lt_two_pow (by have := y.toNat_lt; omega)
    simp only [UInt32.toNat_xor, toNat_shiftRight_one, Nat.testBit_xor, hx, hy] at hbit
    exact absurd hbit (by decide)
  intro x y h
  unfold crcBit at h
  have hhalf : (x >>> 1) = (y >>> 1) → x.toNat / 2 = y.toNat / 2 := by
    intro hshift
    have := congrArg UInt32.toNat hshift
    rwa [toNat_shiftRight_one, toNat_shiftRight_one] at this
  have hx := toNat_and_one x
  have hy := toNat_and_one y
  split_ifs at h with h1 h2 h2
  · have := hhalf (UInt32.xor_left_inj _ |>.mp h)
    exact UInt32.toNat_inj.mp (by grind)
  · exact absurd h (hpoly x y)
  · exact absurd h.symm (hpoly y x)
  · have := hhalf h
    exact UInt32.toNat_inj.mp (by grind)

theorem crcByte_injective_crc (b : UInt8) : Function.Injective fun crc => crcByte crc b := by
  intro x y h
  exact (UInt32.xor_left_inj _).mp (crcBit_injective.iterate 8 h)

theorem crcByte_injective_byte (crc : UInt32) : Function.Injective (crcByte crc) := by
  intro x y h
  have hxor := (UInt32.xor_right_inj _).mp (crcBit_injective.iterate 8 h)
  have := congrArg UInt32.toNat hxor
  simpa [← UInt8.toNat_inj] using this

/-- Bytes that differ in one place lead to different remainders. -/
theorem foldl_crcByte_ne {bs : Bytes} {pos bit : Nat} (hpos : pos < bs.length) (hbit : bit < 8)
    (crc : UInt32) : (flipBit bs pos bit).foldl crcByte crc ≠ bs.foldl crcByte crc := by
  have hkeep (bs : Bytes) : Function.Injective fun crc => bs.foldl crcByte crc := by
    induction bs with
    | nil => exact fun x y h => h
    | cons b bs ih => exact fun x y h => crcByte_injective_crc b (ih h)
  induction bs generalizing pos crc with
  | nil => simp at hpos
  | cons b bs ih =>
    cases pos with
    | zero =>
      intro h
      exact xor_shift_ne b hbit (crcByte_injective_byte crc (hkeep bs h))
    | succ pos => exact ih (Nat.lt_of_succ_lt_succ hpos) (crcByte crc b)

theorem checkpointCodec_detectsFlips : checkpointCodec.DetectsFlips := by
  intro payload pos bit hpos hbit h
  have h' : crc32 (flipBit payload pos bit) = crc32 payload := h
  rw [crc32_eq_foldl, crc32_eq_foldl, UInt32.xor_left_inj] at h'
  exact foldl_crcByte_ne hpos hbit _ h'

theorem checkpointCodec_serde : checkpointCodec.Serde (.checkpoint 7) :=
  ⟨fun _ => checkpointCodec_inverts, fun h => absurd trivial h⟩

/-- A flip in the payload of the second of two checkpoints. -/
theorem bit_flip_noticed_second_checkpoint :
    Undamaged checkpointCodec [.checkpoint 7, .checkpoint 7] 1000
        (flipBit (logBytes checkpointCodec 0 [.checkpoint 7, .checkpoint 7])
          ((logBytes checkpointCodec 0 [.checkpoint 7]).length + 30) 4) ↔
      fieldAt 30 ≠ .sequence ∨
        ∃ x ∈ [WalRecord.checkpoint 7, .checkpoint 7], ¬ x.Finite :=
  bit_flip_noticed_iff checkpointCodec checkpointCodec_detectsFlips
    [.append (.checkpoint 7), .appendBatch [.checkpoint 7]]
    (by simpa [recordsOf, Call.records] using checkpointCodec_serde)
    ⟨logBytes checkpointCodec 0 [.checkpoint 7, .checkpoint 7], 102, 2, []⟩ (by decide +kernel)
    1 (.checkpoint 7) rfl 30 4 (by decide) (by decide) (by decide) 1000 (by decide)

/-- The last bit of the sequence number of the only record: replication reads the record
under number one, and the reopened log goes on from there. -/
theorem flipped_sequence_goes_unnoticed :
    ∃ w, runCalls checkpointCodec [.append (.checkpoint 7)] fresh = some w ∧
      readForReplication checkpointCodec { w with file := flipBit w.file 21 0 } none 1000 =
        .ok [(1, .checkpoint 7)] ∧
      ¬ Undamaged checkpointCodec [.checkpoint 7] 1000 (flipBit w.file 21 0) := by
  have hread : readForReplication checkpointCodec
      ⟨flipBit (logBytes checkpointCodec 0 [.checkpoint 7]) 21 0, 51, 1, []⟩ none 1000 =
        .ok [(1, .checkpoint 7)] := by decide +kernel
  refine ⟨⟨logBytes checkpointCodec 0 [.checkpoint 7], 51, 1, []⟩, by decide +kernel, hread, ?_⟩
  intro h
  exact absurd (h.replication _ _ rfl hread) (by decide)

end Wal

end Graphite
