import Graphite.Wal

/-! Crash recovery of the write-ahead log: runs of appends on a log, the prefixes of
its file that a crash leaves, and what opening such a prefix gives back. -/

namespace Graphite.Wal
open BigEndian FramedLog

/-- The two ways to write to a log. -/
inductive Call where
  | append (record : WalRecord)
  | appendBatch (records : List WalRecord)

def Call.records : Call → List WalRecord
  | .append record => [record]
  | .appendBatch records => records

/-- A call whose writes all succeed. -/
def Call.run (c : Codec) (w : Wal) : Call → Except (Stop WalError) Nat × Wal
  | .append record => Wal.append c .sound w record
  | .appendBatch records => Wal.appendBatch c .sound w records

def recordsOf (calls : List Call) : List WalRecord := calls.flatMap Call.records

/-- The log after a run of successful calls. -/
def runCalls (c : Codec) : List Call → Wal → Option Wal
  | [], w => some w
  | call :: calls, w =>
    match call.run c w with
    | (.ok _, w) => runCalls c calls w
    | (.error _, _) => none

/-- A log just created. -/
def fresh : Wal := ⟨[], 0, 0, []⟩

/-- The records that lie wholly inside the first `n` bytes of the log. -/
def wholeRecords (c : Codec) (records : List WalRecord) (n : Nat) : List WalRecord :=
  (wholeFrames (frameOf c) (records.zipIdx 0) n).map Prod.fst

/-- Opening the prefix replays exactly its whole records, and a second opening after
further successful appends replays these followed by the new ones. -/
def Recovers (c : Codec) (records : List WalRecord) (cut : Bytes) : Prop :=
  ∃ w, Wal.open c cut = .ok w ∧ w.replayed = wholeRecords c records cut.length ∧
    ∀ more w', (∀ r ∈ recordsOf more, c.Inverts r) → runCalls c more w = some w' →
      ∃ w₂, Wal.open c w'.file = .ok w₂ ∧ w₂.replayed = w.replayed ++ recordsOf more

/-- The first `n` bytes of the log are the bytes of its first records. -/
def OnBoundary (c : Codec) (records : List WalRecord) (n : Nat) : Prop :=
  ∃ k ≤ records.length, n = ((records.take k).map (recordSize c)).sum

/-- An append with the log short of its last sequence number. -/
theorem append_of_inverts {c : Codec} {r : WalRecord} (h : c.Inverts r) (w : Wal)
    (hseq : w.sequence + 1 < 2 ^ 64) :
    append c .sound w r = (.ok (w.sequence + 1), extend c w [r]) := by
  obtain ⟨payload, hto, -, -⟩ := h
  simp only [append, writeRecord, Disk.sound, advance, hto, if_pos hseq, if_true]
  simp [extend, logBytes, recordSize, frameOf, hto]

theorem call_run_eq_ok {c : Codec} {call : Call} {w w' : Wal} {n : Nat}
    (h : call.run c w = (.ok n, w')) :
    w' = extend c w call.records ∧ (call.records = [] ∨ w'.sequence < 2 ^ 64) := by
  cases call with
  | append record =>
    obtain ⟨hw, hn, hbound⟩ := append_eq_ok h
    rw [hn] at hbound
    exact ⟨hw, Or.inr hbound⟩
  | appendBatch records =>
    obtain ⟨hw, hn, hbound⟩ := appendBatch_eq_ok h
    rw [hn] at hbound
    exact ⟨hw, hbound⟩

/-- A run of successful calls writes their records one behind the other. -/
theorem runCalls_eq_some {c : Codec} {calls : List Call} {w w' : Wal}
    (h : runCalls c calls w = some w') :
    w' = extend c w (recordsOf calls) ∧ (recordsOf calls = [] ∨ w'.sequence < 2 ^ 64) := by
  induction calls generalizing w with
  | nil =>
    obtain rfl : w = w' := Option.some.inj h
    exact ⟨(extend_nil c w).symm, Or.inl rfl⟩
  | cons call calls ih =>
    unfold runCalls at h
    have hrecords : recordsOf (call :: calls) = call.records ++ recordsOf calls := rfl
    cases hcall : call.run c w with
    | mk result w₁ =>
      cases result with
      | error e => simp [hcall] at h
      | ok n =>
        rw [hcall] at h
        obtain ⟨h₁, hbound⟩ := call_run_eq_ok hcall
        obtain ⟨h', hbound'⟩ := ih h
        rw [hrecords]
        refine ⟨by rw [h', h₁, extend_append], ?_⟩
        rcases hbound' with hnil | hlt
        · rw [hnil, List.append_nil]
          rw [hnil, extend_nil] at h'
          rw [h']
          exact hbound
        · exact Or.inr hlt

theorem replay_eq (w : Wal) (records : List (Nat × WalRecord)) (c : Codec)
    (h : replayLoop c (w.file.length + 1) 0 w.file = .ok records) :
    replay c w = .ok (records.map Prod.snd,
      { w with sequence := (records.getLast?.map fun r => r.1 + 1).getD w.sequence }) := by
  simp only [replay, h, bind, Except.bind, pure, Except.pure]

theorem open_of_replayLoop {c : Codec} {file : Bytes} {records : List (Nat × WalRecord)}
    (h : replayLoop c (file.length + 1) 0 file = .ok records) :
    Wal.open c file = .ok ⟨file, file.length, (records.getLast?.map fun r => r.1 + 1).getD 0,
      records.map Prod.snd⟩ := by
  rw [Wal.open, replay_eq ⟨file, file.length, 0, []⟩ records c h]
  rfl

theorem open_error {c : Codec} {file : Bytes} {e : Stop WalError}
    (h : replayLoop c (file.length + 1) 0 file = .error e) : Wal.open c file = .error e := by
  simp [Wal.open, replay, h, bind, Except.bind]

/-- Opening whole records, with up to three bytes behind them, replays the records. -/
theorem open_logBytes {c : Codec} {rs : List WalRecord} (hrs : ∀ r ∈ rs, c.Inverts r)
    (hlen : rs.length < 2 ^ 64) (tail : Bytes) (htail : tail.length < 4) :
    Wal.open c (logBytes c 0 rs ++ tail) =
      .ok ⟨logBytes c 0 rs ++ tail, (logBytes c 0 rs ++ tail).length, rs.length, rs⟩ := by
  obtain ⟨fuel, offset, -, hloop⟩ := replayLoop_logBytes c rs hrs 0
    ((logBytes c 0 rs ++ tail).length + 1) 0 tail (by omega) (Nat.lt_succ_self _)
  rw [replayLoop_short c htail] at hloop
  rw [open_of_replayLoop hloop]
  cases rs using List.reverseRecOn with
  | nil => rfl
  | append_singleton rs r => simp [Function.comp_def, List.zipIdx_append]

/-- Opening two runs of records written one behind the other replays both. -/
theorem open_logBytes_append {c : Codec} {rs more : List WalRecord}
    (hrs : ∀ r ∈ rs, c.Inverts r) (hmore : ∀ r ∈ more, c.Inverts r)
    (hbound : more = [] ∨ rs.length + more.length < 2 ^ 64) (hlen : rs.length < 2 ^ 64) :
    ∃ w, Wal.open c (logBytes c 0 rs ++ logBytes c rs.length more) = .ok w ∧
      w.replayed = rs ++ more := by
  have hall : ∀ r ∈ rs ++ more, c.Inverts r := by
    intro r hr
    rcases List.mem_append.mp hr with h | h
    · exact hrs r h
    · exact hmore r h
  have hlength : (rs ++ more).length < 2 ^ 64 := by
    rw [List.length_append]
    rcases hbound with rfl | h
    · exact hlen
    · exact h
  have hopen := open_logBytes hall hlength [] (by simp)
  rw [List.append_nil, logBytes_append, Nat.zero_add] at hopen
  exact ⟨_, hopen, rfl⟩

/-- A tail that the frame reader refuses makes the whole log unreadable. -/
theorem open_unreadable {c : Codec} {rs : List WalRecord} (hrs : ∀ r ∈ rs, c.Inverts r)
    (hlen : rs.length < 2 ^ 64) {tail : Bytes}
    (htail : ∀ offset, ∃ e, readFrame c offset tail = .error e) :
    ∃ e, Wal.open c (logBytes c 0 rs ++ tail) = .error e := by
  obtain ⟨fuel, offset, hfuel, hloop⟩ := replayLoop_logBytes c rs hrs 0
    ((logBytes c 0 rs ++ tail).length + 1) 0 tail (by omega) (Nat.lt_succ_self _)
  obtain ⟨e, he⟩ := htail offset
  rw [replayLoop_error he hfuel] at hloop
  exact ⟨e, open_error hloop⟩

theorem wholeRecords_of_split (c : Codec) (done todo : List WalRecord) (n : Nat)
    (h : ∀ r ∈ todo.head?, n < recordSize c r) :
    wholeRecords c (done ++ todo) ((logBytes c 0 done).length + n) = done := by
  rw [wholeRecords, List.zipIdx_append, logBytes, wholeFrames_append, wholeFrames_torn]
  · simp
  · intro e he
    cases todo with
    | nil => simp at he
    | cons r todo =>
      obtain rfl : e = (r, 0 + done.length) := by simpa [eq_comm] using he
      rw [length_frameOf]
      exact h r (by simp)

theorem recordSize_pos {c : Codec} {r : WalRecord} (h : c.Inverts r) : 0 < recordSize c r := by
  obtain ⟨payload, -, -, hframe⟩ := frame_of_inverts h
  rw [recordSize, hframe, length_encodeRecord, headerSize]
  omega

/-- A cut between two records. -/
theorem recovers_of_boundary {c : Codec} {done todo : List WalRecord}
    (hinv : ∀ r ∈ done ++ todo, c.Inverts r) (hlen : (done ++ todo).length < 2 ^ 64) :
    Recovers c (done ++ todo) (logBytes c 0 done) := by
  have hdone : ∀ r ∈ done, c.Inverts r := fun r hr => hinv r (by simp [hr])
  rw [List.length_append] at hlen
  have hopen := open_logBytes hdone (by omega) [] (by simp)
  rw [List.append_nil] at hopen
  refine ⟨_, hopen, ?_, fun more w' hmore hrun => ?_⟩
  · refine (wholeRecords_of_split c done todo 0 fun r hr => ?_).symm
    exact recordSize_pos (hinv r (List.mem_append_right _ (List.mem_of_mem_head? hr)))
  · obtain ⟨rfl, hbound⟩ := runCalls_eq_some hrun
    exact open_logBytes_append hdone hmore hbound (by omega)

/-- A cut inside a record. -/
theorem not_recovers_of_torn {c : Codec} {done rest : List WalRecord} {r : WalRecord} {i : Nat}
    (hinv : ∀ x ∈ done ++ r :: rest, c.Inverts x) (hlen : (done ++ r :: rest).length < 2 ^ 64)
    {tail : Bytes} (hpos : tail ≠ []) (htail : tail <+: frameOf c (r, i))
    (hshort : tail.length < (frameOf c (r, i)).length) :
    ¬ Recovers c (done ++ r :: rest) (logBytes c 0 done ++ tail) := by
  have hdone : ∀ x ∈ done, c.Inverts x := fun x hx => hinv x (by simp [hx])
  have hr : c.Inverts r := hinv r (by simp)
  rw [List.length_append, List.length_cons] at hlen
  obtain ⟨payload, hpayload, -, hframe⟩ := frame_of_inverts hr
  rw [hframe] at htail hshort
  rintro ⟨w, hopen, -, hmore⟩
  by_cases h4 : 4 ≤ tail.length
  · obtain ⟨e, he⟩ := open_unreadable hdone (by omega) fun offset =>
      readFrame_torn c offset i payload tail hpayload htail hshort h4
    rw [he] at hopen
    cases hopen
  · rw [open_logBytes hdone (by omega) tail (by omega)] at hopen
    -- one more record behind the fragment
    cases Except.ok.inj hopen
    have hone : ∀ x ∈ recordsOf [Call.append r], c.Inverts x := by
      simpa [recordsOf, Call.records] using hr
    obtain ⟨w₂, hopen₂, -⟩ := hmore [Call.append r] _ hone (by
      rw [runCalls, Call.run, append_of_inverts hr _ (by dsimp only; omega)]
      rfl)
    obtain ⟨e, he⟩ := open_unreadable hdone (by omega) fun offset =>
      readFrame_fragment c offset done.length payload tail [] hpos (by omega)
    have hbytes : logBytes c done.length [r] = encodeRecord c done.length payload ++ [] := by
      simp [logBytes, hframe]
    rw [extend, hbytes, List.append_assoc, he] at hopen₂
    cases hopen₂

/-- A prefix of a log recovers exactly when it ends between two records. -/
theorem recovers_iff_onBoundary {c : Codec} {rs : List WalRecord} (hinv : ∀ r ∈ rs, c.Inverts r)
    (hlen : rs.length < 2 ^ 64) {cut : Bytes} (hcut : cut <+: logBytes c 0 rs) :
    Recovers c rs cut ↔ OnBoundary c rs cut.length := by
  obtain ⟨done, todo, tail, hsplit, rfl, htail⟩ := prefix_split (frameOf c) (rs.zipIdx 0) cut hcut
  obtain ⟨hrs, hdone, htodo⟩ : rs = rs.take done.length ++ rs.drop done.length ∧
      done = (rs.take done.length).zipIdx 0 ∧
      todo = (rs.drop done.length).zipIdx (0 + done.length) := by
    have hlen : done.length ≤ rs.length := by
      have := congrArg List.length hsplit
      rw [List.length_zipIdx, List.length_append] at this
      omega
    refine ⟨(List.take_append_drop _ _).symm, ?_⟩
    have h : (rs.take done.length ++ rs.drop done.length).zipIdx 0 = done ++ todo := by
      rw [List.take_append_drop, hsplit]
    rw [List.zipIdx_append] at h
    obtain ⟨h1, h2⟩ := List.append_inj h (by rw [List.length_zipIdx, List.length_take]; omega)
    rw [List.length_take, Nat.min_eq_left hlen] at h2
    exact ⟨h1.symm, h2.symm⟩
  set k := done.length with hk
  have hbytes : done.flatMap (frameOf c) = logBytes c 0 (rs.take k) := by rw [hdone, logBytes]
  rw [hbytes]
  by_cases hnil : tail = []
  · have hrec : Recovers c (rs.take k ++ rs.drop k) (logBytes c 0 (rs.take k)) :=
      recovers_of_boundary (by rwa [List.take_append_drop]) (by rwa [List.take_append_drop])
    rw [List.take_append_drop] at hrec
    rw [hnil, List.append_nil]
    refine ⟨fun _ => ⟨min k rs.length, Nat.min_le_right _ _, ?_⟩, fun _ => hrec⟩
    rw [length_logBytes, List.take_eq_take_min]
  · obtain ⟨x, more, hx, hgrown, hshort⟩ := htail.resolve_left hnil
    rw [htodo] at hx
    cases hdrop : rs.drop k with
    | nil => simp [hdrop] at hx
    | cons r rest =>
      rw [hdrop, List.zipIdx_cons, List.cons.injEq] at hx
      rw [← hx.1] at hgrown hshort
      have hrs' : rs = rs.take k ++ r :: rest := by rw [← hdrop, List.take_append_drop]
      have hnot : ¬ Recovers c (rs.take k ++ r :: rest) (logBytes c 0 (rs.take k) ++ tail) :=
        not_recovers_of_torn (by rwa [← hrs']) (by rwa [← hrs']) hnil hgrown hshort
      rw [← hrs'] at hnot
      refine ⟨fun h => absurd h hnot, ?_⟩
      rintro ⟨j, hj, hsum⟩
      exfalso
      have hpos : 0 < tail.length := List.length_pos_iff.mpr hnil
      rw [length_frameOf] at hshort
      rw [List.length_append, length_logBytes] at hsum
      rcases Nat.lt_or_ge k j with hkj | hkj
      · have hgrown' : (rs.take k ++ [r]) <+: rs.take j := by
          have h1 : rs.take (k + 1) <+: rs.take j := List.take_prefix_take_left (by omega)
          have hk' : (rs.take k).length = k := by
            have := congrArg List.length hrs'
            rw [List.length_append, List.length_cons] at this
            rw [List.length_take] at this ⊢
            omega
          have h2 : rs.take (k + 1) = rs.take k ++ [r] := by
            conv_lhs => rw [hrs', List.take_append, hk']
            simp [hk']
          rwa [h2] at h1
        obtain ⟨q, hq⟩ := hgrown'
        rw [← hq] at hsum
        simp only [List.map_append, List.sum_append, List.map_cons, List.map_nil, List.sum_cons,
          List.sum_nil] at hsum
        omega
      · obtain ⟨q, hq⟩ : rs.take j <+: rs.take k := List.take_prefix_take_left (by omega)
        rw [← hq, List.map_append, List.sum_append] at hsum
        omega

/-- A crash leaves some prefix of the file of a run of appends. Recovery from it does
what it should exactly when the prefix ends between two records. -/
theorem crash_recovery_iff (c : Codec) (calls : List Call)
    (hinv : ∀ r ∈ recordsOf calls, c.Inverts r) (w : Wal)
    (hrun : runCalls c calls fresh = some w) (cut : Bytes) (hcut : cut <+: w.file) :
    Recovers c (recordsOf calls) cut ↔ OnBoundary c (recordsOf calls) cut.length := by
  obtain ⟨rfl, hbound⟩ := runCalls_eq_some hrun
  have hlen : (recordsOf calls).length < 2 ^ 64 := by
    rcases hbound with hnil | hlt
    · rw [hnil]
      exact Nat.two_pow_pos 64
    · simpa [extend, fresh] using hlt
  exact recovers_iff_onBoundary hinv hlen hcut

/-- The reflected CRC-32 with polynomial `0xEDB88320`. -/
def crc32 (bs : Bytes) : UInt32 :=
  let step (crc : UInt32) : UInt32 :=
    if crc &&& 1 = 1 then (crc >>> 1) ^^^ 0xEDB88320 else crc >>> 1
  bs.foldl (fun crc b => step^[8] (crc ^^^ b.toUInt32)) 0xFFFFFFFF ^^^ 0xFFFFFFFF

/-- The text serde writes for the checkpoint with sequence number seven. -/
def checkpointText : Bytes :=
  "\x7b\"Checkpoint\":\x7b\"sequence\":7\x7d\x7d".toUTF8.data.toList

/-- A codec that knows one record, under the text and checksum it has in a log. -/
def checkpointCodec : Codec where
  toVec record := if record = .checkpoint 7 then .ok checkpointText else .error "unsupported"
  fromSlice bs := if bs = checkpointText then .ok (.checkpoint 7) else .error "expected value"
  crc32 := crc32

example : crc32 "123456789".toUTF8.data.toList = 0xCBF43926 := by decide +kernel

theorem checkpointCodec_inverts : checkpointCodec.Inverts (.checkpoint 7) :=
  ⟨checkpointText, by decide +kernel, by decide, by decide⟩

/-- A cut after the first of two records. -/
theorem crash_recovery_two_checkpoints :
    Recovers checkpointCodec [.checkpoint 7, .checkpoint 7]
        (logBytes checkpointCodec 0 [.checkpoint 7]) ↔
      OnBoundary checkpointCodec [.checkpoint 7, .checkpoint 7]
        (logBytes checkpointCodec 0 [.checkpoint 7]).length :=
  crash_recovery_iff checkpointCodec [.append (.checkpoint 7), .appendBatch [.checkpoint 7]]
    (by simpa [recordsOf, Call.records] using checkpointCodec_inverts)
    ⟨logBytes checkpointCodec 0 [.checkpoint 7, .checkpoint 7], 102, 2, []⟩ (by decide +kernel)
    (logBytes checkpointCodec 0 [.checkpoint 7]) (by decide +kernel)

/-- A crash after five bytes of the first record leaves a log that does not open. -/
theorem crash_recovery_fails_in_header :
    ∃ w, runCalls checkpointCodec [.append (.checkpoint 7)] fresh = some w ∧
      Wal.open checkpointCodec (w.file.take 5) = .error (.error .io) ∧
      ¬ Recovers checkpointCodec [.checkpoint 7] (w.file.take 5) := by
  have hopen : Wal.open checkpointCodec
      ((logBytes checkpointCodec 0 [.checkpoint 7]).take 5) = .error (.error .io) := by decide +kernel
  refine ⟨⟨logBytes checkpointCodec 0 [.checkpoint 7], 51, 1, []⟩, by decide +kernel, hopen, ?_⟩
  rintro ⟨w, h, -⟩
  rw [hopen] at h
  cases h

end Graphite.Wal
