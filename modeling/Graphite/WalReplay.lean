import Graphite.WalRecovery

/-! What the log accepts and what it can replay. Whatever `serde_json::to_vec` turns into
text is appended; a record counts on replay only when `from_slice` gives it back. -/

namespace Graphite

/-- The exponent is not the one of infinities and NaNs. -/
def F64.Finite (x : F64) : Prop := (x.bits >>> 52) &&& 0x7FF ≠ 0x7FF

instance (x : F64) : Decidable x.Finite := inferInstanceAs (Decidable (_ ≠ _))

def Tick.Finite (t : Tick) : Prop :=
  t.open_.Finite ∧ t.high.Finite ∧ t.low.Finite ∧ t.close.Finite

instance (t : Tick) : Decidable t.Finite := inferInstanceAs (Decidable (_ ∧ _ ∧ _ ∧ _))

def WalRecord.Finite : WalRecord → Prop
  | insert tick => tick.Finite
  | delete _ => True
  | checkpoint _ => True

instance (r : WalRecord) : Decidable r.Finite :=
  match r with
  | .insert tick => inferInstanceAs (Decidable tick.Finite)
  | .delete _ => inferInstanceAs (Decidable True)
  | .checkpoint _ => inferInstanceAs (Decidable True)

/-- The serialiser accepts the record, in less than four gigabytes. -/
def Codec.Accepts (c : Codec) (r : WalRecord) : Prop :=
  ∃ payload, c.toVec r = .ok payload ∧ payload.length < 2 ^ 32

/-- Every text the serialiser gives is shorter than four gigabytes. -/
def Codec.Small (c : Codec) : Prop :=
  ∀ r payload, c.toVec r = .ok payload → payload.length < 2 ^ 32

/-- How serde treats a record: it inverts itself when the floats are finite, and writes
other floats as `null`, which it refuses to read as a float. -/
structure Codec.Serde (c : Codec) (r : WalRecord) : Prop where
  finite : r.Finite → c.Inverts r
  nonFinite : ¬ r.Finite → ∃ payload message, c.toVec r = .ok payload ∧
    payload.length < 2 ^ 32 ∧ c.fromSlice payload = .error message

theorem Codec.Inverts.accepts {c : Codec} {r : WalRecord} (h : c.Inverts r) : c.Accepts r := by
  obtain ⟨payload, hto, -, hlen⟩ := h
  exact ⟨payload, hto, hlen⟩

theorem Codec.Serde.accepts {c : Codec} {r : WalRecord} (h : c.Serde r) : c.Accepts r := by
  by_cases hr : r.Finite
  · exact (h.finite hr).accepts
  · obtain ⟨payload, message, hto, hlen, -⟩ := h.nonFinite hr
    exact ⟨payload, hto, hlen⟩

theorem Codec.Serde.inverts_iff {c : Codec} {r : WalRecord} (h : c.Serde r) :
    c.Inverts r ↔ r.Finite := by
  refine ⟨fun hinv => ?_, h.finite⟩
  by_contra hr
  obtain ⟨payload, message, hto, -, hfrom⟩ := h.nonFinite hr
  obtain ⟨payload', hto', hfrom', -⟩ := hinv
  rw [hto] at hto'
  cases hto'
  rw [hfrom] at hfrom'
  cases hfrom'

/-- The text of a record is read back as that record, or not at all. -/
theorem Codec.Serde.fromSlice_iff {c : Codec} {r : WalRecord} (h : c.Serde r)
    {payload : BigEndian.Bytes} (hto : c.toVec r = .ok payload) (record : WalRecord) :
    c.fromSlice payload = .ok record ↔ r.Finite ∧ record = r := by
  by_cases hr : r.Finite
  · obtain ⟨payload', hto', hfrom, -⟩ := h.finite hr
    rw [hto] at hto'
    cases hto'
    rw [hfrom, Except.ok.injEq]
    exact ⟨fun heq => ⟨hr, heq.symm⟩, fun heq => heq.2.symm⟩
  · obtain ⟨payload', message, hto', -, hfrom⟩ := h.nonFinite hr
    rw [hto] at hto'
    cases hto'
    rw [hfrom]
    exact iff_of_false (fun heq => by cases heq) fun heq => hr heq.1

namespace Wal

/-- Opening a file with this content succeeds and replays these records. -/
def Replays (c : Codec) (file : BigEndian.Bytes) (rs : List WalRecord) : Prop :=
  ∃ w, Wal.open c file = .ok w ∧ w.replayed = rs

/-- The loop of the replay reads these records off the file. -/
def LoopReads (c : Codec) (fuel offset : Nat) (file : BigEndian.Bytes) (rs : List WalRecord) :
    Prop :=
  ∃ found, replayLoop c fuel offset file = .ok found ∧ found.map Prod.snd = rs

theorem replays_iff_loopReads (c : Codec) (file : BigEndian.Bytes) (rs : List WalRecord) :
    Replays c file rs ↔ LoopReads c (file.length + 1) 0 file rs := by
  cases hloop : replayLoop c (file.length + 1) 0 file with
  | error e =>
    refine iff_of_false ?_ ?_
    · rintro ⟨w, hopen, -⟩
      rw [open_error hloop] at hopen
      cases hopen
    · rintro ⟨found, hfound, -⟩
      rw [hloop] at hfound
      cases hfound
  | ok found =>
    constructor
    · rintro ⟨w, hopen, hreplayed⟩
      rw [open_of_replayLoop hloop] at hopen
      cases hopen
      exact ⟨found, hloop, hreplayed⟩
    · rintro ⟨found', hfound, hmap⟩
      rw [hloop] at hfound
      cases hfound
      exact ⟨_, open_of_replayLoop hloop, hmap⟩

/-- Behind whole records that are read back the loop goes on with the rest of the file. -/
theorem replays_logBytes_append {c : Codec} {rs : List WalRecord} (hrs : ∀ r ∈ rs, c.Inverts r)
    (hlen : rs.length < 2 ^ 64) (rest : BigEndian.Bytes) :
    ∃ fuel offset, rest.length < fuel ∧ ∀ more,
      (Replays c (logBytes c 0 rs ++ rest) (rs ++ more) ↔ LoopReads c fuel offset rest more) := by
  obtain ⟨fuel, offset, hfuel, hloop⟩ := replayLoop_logBytes c rs hrs 0
    ((logBytes c 0 rs ++ rest).length + 1) 0 rest (by omega) (Nat.lt_succ_self _)
  refine ⟨fuel, offset, hfuel, fun more => ?_⟩
  have hmap : ((rs.zipIdx 0).map fun e => (e.2, e.1)).map Prod.snd = rs := by
    simp [Function.comp_def]
  rw [replays_iff_loopReads, LoopReads, hloop, LoopReads]
  cases replayLoop c fuel offset rest with
  | error e => simp [Except.map]
  | ok found =>
    simp only [Except.map, Except.ok.injEq, exists_eq_left', List.map_append, hmap,
      List.append_right_inj]

/-- The loop reads nothing off a file exactly when the file ends within a magic. -/
theorem loopReads_nil_iff (c : Codec) {fuel offset : Nat} {file : BigEndian.Bytes}
    (hfuel : file.length < fuel) : LoopReads c fuel offset file [] ↔ file.length < 4 := by
  constructor
  · rintro ⟨found, hfound, hnil⟩
    obtain rfl : found = [] := List.map_eq_nil_iff.mp hnil
    by_contra hlen
    obtain ⟨fuel, rfl⟩ := Nat.exists_eq_succ_of_ne_zero (by omega : fuel ≠ 0)
    rw [replayLoop] at hfound
    obtain ⟨frame, hframe, hfound⟩ := bind_eq_ok.mp hfound
    cases frame with
    | none => exact hlen ((readFrame_eq_none_iff c offset file).mp hframe)
    | some p =>
      obtain ⟨frame, rest⟩ := p
      dsimp only at hfound
      cases hrecord : c.fromSlice frame.payload with
      | error message => simp [hrecord] at hfound
      | ok record =>
        simp only [hrecord] at hfound
        split_ifs at hfound
        · cases hfound
        · obtain ⟨-, -, hfound⟩ := bind_eq_ok.mp hfound
          obtain ⟨more, -, hfound⟩ := bind_eq_ok.mp hfound
          cases hfound
  · intro hlen
    exact ⟨[], replayLoop_short c hlen, rfl⟩

/-- One record that was accepted, read back by the loop. -/
theorem loopReads_cons_iff {c : Codec} {r : WalRecord} {payload : BigEndian.Bytes}
    (hto : c.toVec r = .ok payload) (hlen : payload.length < 2 ^ 32) {first : Nat}
    (hfirst : first + 1 < 2 ^ 64) (fuel offset : Nat) (rest : BigEndian.Bytes)
    (rs : List WalRecord) :
    LoopReads c (fuel + 1) offset (frameOf c (r, first) ++ rest) (r :: rs) ↔
      c.fromSlice payload = .ok r ∧
        LoopReads c fuel (offset + headerSize + payload.length) rest rs := by
  have hframe : frameOf c (r, first) = encodeRecord c first payload := by rw [frameOf, hto]
  have hmod : first % 256 ^ 8 = first := Nat.mod_eq_of_lt (by omega)
  rw [LoopReads, hframe, replayLoop, readFrame_encodeRecord c offset first payload rest hlen, hmod]
  cases hfrom : c.fromSlice payload with
  | error message => simp [bind, Except.bind, hfrom, throw, throwThe, MonadExceptOf.throw]
  | ok r' =>
    simp only [bind, Except.bind, hfrom, if_neg (by omega : ¬ 2 ^ 64 ≤ first + 1), pure,
      Except.pure, LoopReads]
    cases replayLoop c fuel (offset + headerSize + payload.length) rest with
    | error e => simp
    | ok found => simp

/-- Records that were accepted are read back exactly when serde inverts itself on them. -/
theorem loopReads_logBytes_iff {c : Codec} {rs : List WalRecord} (hrs : ∀ r ∈ rs, c.Accepts r)
    {first : Nat} (hfirst : rs = [] ∨ first + rs.length < 2 ^ 64) {fuel offset : Nat}
    (hfuel : (logBytes c first rs).length < fuel) :
    LoopReads c fuel offset (logBytes c first rs) rs ↔ ∀ r ∈ rs, c.Inverts r := by
  induction rs generalizing first fuel offset with
  | nil => exact iff_of_true ((loopReads_nil_iff c hfuel).mpr (by simp [logBytes])) (by simp)
  | cons r rs ih =>
    obtain ⟨payload, hto, hlen⟩ := hrs r List.mem_cons_self
    have hbound : first + (rs.length + 1) < 2 ^ 64 := by simpa using hfirst
    obtain ⟨fuel, rfl⟩ := Nat.exists_eq_succ_of_ne_zero (by omega : fuel ≠ 0)
    rw [logBytes_cons, List.length_append, length_frameOf] at hfuel
    have hsize : 0 < recordSize c r := by
      rw [recordSize, frameOf, hto, length_encodeRecord, headerSize]
      omega
    rw [logBytes_cons, loopReads_cons_iff hto hlen (by omega),
      ih (fun x hx => hrs x (List.mem_cons_of_mem r hx)) (by omega) (by omega),
      List.forall_mem_cons]
    refine and_congr_left fun _ => ?_
    constructor
    · intro hfrom
      exact ⟨payload, hto, hfrom, hlen⟩
    · rintro ⟨payload', hto', hfrom, -⟩
      rw [hto] at hto'
      cases hto'
      exact hfrom

/-- The calls' writes to the log all succeed. -/
structure Disk.Clear (disk : Disk) (writes : Nat) : Prop where
  written : ∀ i, i < writes → disk.fault i = none
  synced : disk.synced = true

theorem Disk.clear_sound (writes : Nat) : Disk.sound.Clear writes := ⟨fun _ _ => rfl, rfl⟩

theorem append_of_accepts {c : Codec} {disk : Disk} {r : WalRecord} (h : c.Accepts r)
    (hdisk : disk.Clear 1) (w : Wal) (hseq : w.sequence + 1 < 2 ^ 64) :
    append c disk w r = (.ok (w.sequence + 1), extend c w [r]) := by
  obtain ⟨payload, hto, -⟩ := h
  simp only [append, writeRecord, hdisk.written 0 Nat.one_pos, advance, hto, if_pos hseq,
    if_pos hdisk.synced]
  simp [extend, logBytes, recordSize, frameOf, hto]

theorem appendBatch_of_accepts {c : Codec} {disk : Disk} {rs : List WalRecord}
    (h : ∀ r ∈ rs, c.Accepts r) (hdisk : disk.Clear rs.length) (w : Wal)
    (hseq : rs = [] ∨ w.sequence + rs.length < 2 ^ 64) :
    appendBatch c disk w rs = (.ok (w.sequence + rs.length), extend c w rs) := by
  induction rs generalizing disk w with
  | nil => simp [appendBatch, hdisk.synced]
  | cons r rs ih =>
    obtain ⟨payload, hto, -⟩ := h r List.mem_cons_self
    have hbound : w.sequence + (rs.length + 1) < 2 ^ 64 := by simpa using hseq
    have hone : extend c w [r] =
        { w with
          file := w.file ++ encodeRecord c w.sequence payload
          offset := w.offset + (encodeRecord c w.sequence payload).length
          sequence := w.sequence + 1 } := by
      simp [extend, logBytes, recordSize, frameOf, hto]
    have htail : (⟨fun i => disk.fault (i + 1), disk.synced⟩ : Disk).Clear rs.length :=
      ⟨fun i hi => hdisk.written (i + 1) (Nat.succ_lt_succ hi), hdisk.synced⟩
    have hrest := ih (fun x hx => h x (List.mem_cons_of_mem r hx)) htail (extend c w [r])
      (Or.inr (by rw [hone]; dsimp only; omega))
    have hstep : appendBatch c disk w (r :: rs) =
        appendBatch c ⟨fun i => disk.fault (i + 1), disk.synced⟩ (extend c w [r]) rs := by
      simp only [appendBatch, writeRecord, hto, hdisk.written 0 (Nat.succ_pos _), advance,
        if_pos (by omega : w.sequence + 1 < 2 ^ 64), hone]
    have hcount : (extend c w [r]).sequence + rs.length = w.sequence + (r :: rs).length := by
      rw [hone, List.length_cons]
      dsimp only
      omega
    rw [hstep, hrest, hcount, ← extend_append, List.singleton_append]

/-- A call on a disk that may fail. -/
def Call.runOn (c : Codec) (disk : Disk) (w : Wal) : Call → Except (Stop WalError) Nat × Wal
  | .append record => Wal.append c disk w record
  | .appendBatch records => Wal.appendBatch c disk w records

theorem Call.run_eq_runOn (c : Codec) (w : Wal) (call : Call) :
    call.run c w = call.runOn c .sound w := by
  cases call <;> rfl

theorem call_runOn_of_accepts {c : Codec} {call : Call} (h : ∀ r ∈ call.records, c.Accepts r)
    {disk : Disk} (hdisk : disk.Clear call.records.length) (w : Wal)
    (hseq : call.records = [] ∨ w.sequence + call.records.length < 2 ^ 64) :
    call.runOn c disk w = (.ok (w.sequence + call.records.length), extend c w call.records) := by
  cases call with
  | append r =>
    have hbound : w.sequence + 1 < 2 ^ 64 := by simpa [Call.records] using hseq
    exact append_of_accepts (h r (by simp [Call.records])) hdisk w hbound
  | appendBatch rs => exact appendBatch_of_accepts h hdisk w hseq

/-- Records that are accepted are all appended while the sequence numbers last. -/
theorem runCalls_of_accepts {c : Codec} {calls : List Call}
    (h : ∀ r ∈ recordsOf calls, c.Accepts r) (w : Wal)
    (hseq : w.sequence + (recordsOf calls).length < 2 ^ 64) :
    runCalls c calls w = some (extend c w (recordsOf calls)) := by
  induction calls generalizing w with
  | nil => rw [runCalls, recordsOf, List.flatMap_nil, extend_nil]
  | cons call calls ih =>
    have hrecords : recordsOf (call :: calls) = call.records ++ recordsOf calls := rfl
    rw [hrecords, List.length_append] at hseq
    rw [hrecords] at h
    have hcall := call_runOn_of_accepts (fun r hr => h r (List.mem_append_left _ hr))
      (Disk.clear_sound call.records.length) w (Or.inr (by omega))
    rw [← Call.run_eq_runOn] at hcall
    rw [runCalls, hcall, hrecords, extend_append]
    refine ih (fun r hr => h r (List.mem_append_right _ hr)) _ ?_
    rw [extend]
    dsimp only
    omega

/-- A log of appends that all returned `Ok` replays exactly when every float in it is
finite. -/
theorem accepted_records_replay_iff (c : Codec) (calls : List Call)
    (hserde : ∀ r ∈ recordsOf calls, c.Serde r) (w : Wal)
    (hrun : runCalls c calls fresh = some w) :
    Replays c w.file (recordsOf calls) ↔ ∀ r ∈ recordsOf calls, r.Finite := by
  obtain ⟨rfl, hbound⟩ := runCalls_eq_some hrun
  have hfirst : recordsOf calls = [] ∨ 0 + (recordsOf calls).length < 2 ^ 64 := by
    simpa [extend, fresh] using hbound
  have hread : Replays c (extend c fresh (recordsOf calls)).file (recordsOf calls) ↔
      ∀ r ∈ recordsOf calls, c.Inverts r := by
    rw [replays_iff_loopReads]
    exact loopReads_logBytes_iff (fun r hr => (hserde r hr).accepts) hfirst (Nat.lt_succ_self _)
  rw [hread]
  exact forall₂_congr fun r hr => (hserde r hr).inverts_iff

/-- A tick with zero prices, but for the close. -/
def closeTick (close : F64) : Tick := ⟨0, 5, ⟨0⟩, ⟨0⟩, ⟨0⟩, close, 1⟩

def nan : F64 := ⟨0x7FF8000000000000⟩

/-- The text serde writes for the insert of such a tick, with zero or with NaN in it. -/
def closeText (close : String) : BigEndian.Bytes :=
  asBytes ("\x7b\"Insert\":\x7b\"symbol_id\":0,\"timestamp\":5,\"open\":0.0,\"high\":0.0," ++
    "\"low\":0.0,\"close\":" ++ close ++ ",\"volume\":1\x7d\x7d")

def nullMessage : String := "invalid type: null, expected f64 at line 1 column 83"

/-- A codec for these two inserts. -/
def closeCodec : Codec where
  toVec record :=
    if record = .insert (closeTick ⟨0⟩) then .ok (closeText "0.0")
    else if record = .insert (closeTick nan) then .ok (closeText "null")
    else .error "unsupported"
  fromSlice bs :=
    if bs = closeText "0.0" then .ok (.insert (closeTick ⟨0⟩))
    else .error nullMessage
  crc32 := crc32

theorem closeCodec_serde {close : F64} (h : close = ⟨0⟩ ∨ close = nan) :
    closeCodec.Serde (.insert (closeTick close)) := by
  rcases h with rfl | rfl
  · refine ⟨fun _ => ⟨closeText "0.0", rfl, by decide +kernel, by decide +kernel⟩, fun h => ?_⟩
    exact absurd (by decide) h
  · have hrefused : closeCodec.fromSlice (closeText "null") = .error nullMessage := by
      have hne : closeText "null" ≠ closeText "0.0" := by decide +kernel
      simp only [closeCodec, if_neg hne]
    refine ⟨fun h => absurd h (by decide), fun _ => ?_⟩
    exact ⟨closeText "null", nullMessage, rfl, by decide +kernel, hrefused⟩

/-- Two ticks with finite prices, one in a batch. -/
theorem accepted_records_replay_two_ticks :
    Replays closeCodec
        (extend closeCodec fresh [.insert (closeTick ⟨0⟩), .insert (closeTick ⟨0⟩)]).file
        [.insert (closeTick ⟨0⟩), .insert (closeTick ⟨0⟩)] ↔
      ∀ r ∈ [WalRecord.insert (closeTick ⟨0⟩), .insert (closeTick ⟨0⟩)], r.Finite :=
  have hserde : ∀ r ∈ recordsOf [.append (.insert (closeTick ⟨0⟩)),
      .appendBatch [.insert (closeTick ⟨0⟩)]], closeCodec.Serde r := by
    simpa [recordsOf, Call.records] using closeCodec_serde (Or.inl rfl)
  accepted_records_replay_iff closeCodec _ hserde _
    (runCalls_of_accepts (fun r hr => (hserde r hr).accepts) fresh (by decide))

/-- A tick with NaN in it is appended and cannot be replayed. -/
theorem nan_tick_is_not_replayed :
    ∃ w, runCalls closeCodec [.append (.insert (closeTick nan))] fresh = some w ∧
      ¬ Replays closeCodec w.file [.insert (closeTick nan)] := by
  have hserde := closeCodec_serde (Or.inr rfl)
  have haccepts : ∀ r ∈ recordsOf [.append (.insert (closeTick nan))], closeCodec.Accepts r := by
    simpa [recordsOf, Call.records] using hserde.accepts
  refine ⟨_, runCalls_of_accepts haccepts fresh (by decide), ?_⟩
  rw [replays_iff_loopReads]
  intro hreplays
  have hinverts := (loopReads_logBytes_iff haccepts (Or.inr (by decide))
    (Nat.lt_succ_self _)).mp hreplays
  exact absurd (hserde.inverts_iff.mp (hinverts _ List.mem_cons_self)) (by decide)

end Wal

end Graphite
