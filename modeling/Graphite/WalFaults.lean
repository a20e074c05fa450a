import Graphite.GuardedRuns
import Graphite.WalReplay

/-! Appends that fail. A `write_all` may stop after any prefix of its buffer, and the call
then returns an error while the log stays open for the next call. What a failed call has
written stays in the file. -/

namespace Graphite.Wal
open BigEndian GuardedRuns

/-- A log that is open, and the records of the calls that returned `Ok` so far. -/
structure Session where
  wal : Wal
  acknowledged : List WalRecord
  deriving DecidableEq

namespace Session

def fresh : Session := ⟨Wal.fresh, []⟩

/-- The next call, and what the disk does during it. -/
def step (c : Codec) (s : Session) (e : Disk × Call) : Session :=
  match e.2.runOn c e.1 s.wal with
  | (.ok _, w) => ⟨w, s.acknowledged ++ e.2.records⟩
  | (.error _, w) => ⟨w, s.acknowledged⟩

/-- Opening the file again replays the acknowledged records and nothing else. -/
def Usable (c : Codec) (s : Session) : Prop := Replays c s.wal.file s.acknowledged

end Session

/-- The bytes in the file behind the records that the log counts. -/
def leftover (w : Wal) : Nat := w.file.length - w.offset

/-- The calls that leave the log as it should be: all records get written behind whole
records and can be read back, or nothing is written, or so little that the file ends
within a magic. -/
inductive Harmless (c : Codec) (w : Wal) (e : Disk × Call) : Prop
  | written (hclean : leftover w = 0) (hinv : ∀ r ∈ e.2.records, c.Inverts r)
    (hdisk : e.1.Clear e.2.records.length) (hseq : w.sequence + e.2.records.length < 2 ^ 64)
  | empty (h : e.2.records = [])
  | refused {r : WalRecord} {rs : List WalRecord} {message : String}
    (h : e.2.records = r :: rs) (hto : c.toVec r = .error message)
  | cut {r : WalRecord} {rs : List WalRecord} {n : Nat} (h : e.2.records = r :: rs)
    (hfault : e.1.fault 0 = some n) (hshort : leftover w + n < 4)

/-- A call whose first record does not serialise has written nothing. -/
theorem call_runOn_refused {c : Codec} {call : Call} {r : WalRecord} {rs : List WalRecord}
    {message : String} (h : call.records = r :: rs) (hto : c.toVec r = .error message)
    (disk : Disk) (w : Wal) : call.runOn c disk w = (.error (.error (.serialize message)), w) := by
  cases call with
  | append record =>
    cases h
    simp only [Call.runOn, append, writeRecord, hto]
  | appendBatch records =>
    obtain rfl : records = r :: rs := h
    simp only [Call.runOn, appendBatch, writeRecord, hto]

/-- A call whose first write fails leaves the front of that record. -/
theorem call_runOn_cut {c : Codec} {call : Call} {r : WalRecord} {rs : List WalRecord}
    {payload : Bytes} (h : call.records = r :: rs) (hto : c.toVec r = .ok payload) {disk : Disk}
    {n : Nat} (hfault : disk.fault 0 = some n) (w : Wal) :
    call.runOn c disk w = (.error (.error .io),
      { w with file := w.file ++ (encodeRecord c w.sequence payload).take n }) := by
  cases call with
  | append record =>
    cases h
    simp only [Call.runOn, append, writeRecord, hto, hfault]
  | appendBatch records =>
    obtain rfl : records = r :: rs := h
    simp only [Call.runOn, appendBatch, writeRecord, hto, hfault]

theorem advance_file (w : Wal) (size : Nat) : (advance w size).2.file = w.file := by
  unfold advance
  dsimp only
  split_ifs <;> rfl

theorem prefix_writeRecord (c : Codec) (fault : Option Nat) (w : Wal) (r : WalRecord) :
    w.file <+: (writeRecord c fault w r).2.file := by
  unfold writeRecord
  cases c.toVec r with
  | error message => exact List.prefix_refl _
  | ok payload => cases fault <;> exact List.prefix_append _ _

/-- A batch only adds to the file. -/
theorem prefix_appendBatch (c : Codec) (disk : Disk) (w : Wal) (rs : List WalRecord) :
    w.file <+: (appendBatch c disk w rs).2.file := by
  induction rs generalizing disk w with
  | nil => exact List.prefix_refl _
  | cons r rs ih =>
    have hwrite := prefix_writeRecord c (disk.fault 0) w r
    unfold appendBatch
    cases hfirst : writeRecord c (disk.fault 0) w r with
    | mk result w₁ =>
      rw [hfirst] at hwrite
      cases result with
      | error e => exact hwrite
      | ok size =>
        have hfile := advance_file w₁ size
        cases hadvance : advance w₁ size with
        | mk result w₂ =>
          rw [hadvance] at hfile
          cases result with
          | error e =>
            simp only [hadvance]
            rw [hfile]
            exact hwrite
          | ok n =>
            simp only [hadvance]
            rw [← hfile] at hwrite
            exact hwrite.trans (ih _ w₂)

/-- A first record that is written stays in the file however the call ends. -/
theorem call_runOn_first {c : Codec} {call : Call} {r : WalRecord} {rs : List WalRecord}
    {payload : Bytes} (h : call.records = r :: rs) (hto : c.toVec r = .ok payload) {disk : Disk}
    (hfault : disk.fault 0 = none) (w : Wal) :
    w.file ++ encodeRecord c w.sequence payload <+: (call.runOn c disk w).2.file := by
  have hwrite : writeRecord c none w r = (.ok (encodeRecord c w.sequence payload).length,
      { w with file := w.file ++ encodeRecord c w.sequence payload }) := by
    simp only [writeRecord, hto]
  have hfile := advance_file { w with file := w.file ++ encodeRecord c w.sequence payload }
    (encodeRecord c w.sequence payload).length
  cases call with
  | append record =>
    cases h
    simp only [Call.runOn, append, hfault, hwrite]
    split_ifs
    · exact ⟨[], (List.append_nil _).trans hfile.symm⟩
    · exact List.prefix_refl _
  | appendBatch records =>
    obtain rfl : records = r :: rs := h
    simp only [Call.runOn, appendBatch, hfault, hwrite]
    cases hadvance : advance { w with file := w.file ++ encodeRecord c w.sequence payload }
        (encodeRecord c w.sequence payload).length with
    | mk result w₂ =>
      rw [hadvance] at hfile
      cases result with
      | error e => exact ⟨[], (List.append_nil _).trans hfile.symm⟩
      | ok n =>
        have hrest := prefix_appendBatch c ⟨fun i => disk.fault (i + 1), disk.synced⟩ w₂ rs
        dsimp only at hfile ⊢
        rw [hfile] at hrest
        exact hrest

theorem writeRecord_eq_ok {c : Codec} {fault : Option Nat} {w w' : Wal} {r : WalRecord}
    {size : Nat} (h : writeRecord c fault w r = (.ok size, w')) :
    fault = none ∧ ∃ payload, c.toVec r = .ok payload := by
  unfold writeRecord at h
  cases hto : c.toVec r with
  | error message => simp [hto] at h
  | ok payload =>
    cases fault with
    | none => exact ⟨rfl, payload, rfl⟩
    | some n => simp [hto] at h

theorem clear_of_appendBatch {c : Codec} {disk : Disk} {w w' : Wal} {rs : List WalRecord} {n : Nat}
    (h : appendBatch c disk w rs = (.ok n, w')) :
    disk.Clear rs.length ∧ ∀ r ∈ rs, ∃ payload, c.toVec r = .ok payload := by
  induction rs generalizing disk w with
  | nil =>
    unfold appendBatch at h
    cases hsynced : disk.synced with
    | false => simp [hsynced] at h
    | true => exact ⟨⟨fun i hi => absurd hi (Nat.not_lt_zero i), hsynced⟩, by simp⟩
  | cons r rs ih =>
    unfold appendBatch at h
    cases hwrite : writeRecord c (disk.fault 0) w r with
    | mk result w₁ =>
      cases result with
      | error e => simp [hwrite] at h
      | ok size =>
        cases hadvance : advance w₁ size with
        | mk result w₂ =>
          cases result with
          | error e => simp [hwrite, hadvance] at h
          | ok m =>
            simp only [hwrite, hadvance] at h
            obtain ⟨hfault, hto⟩ := writeRecord_eq_ok hwrite
            obtain ⟨hclear, hrest⟩ := ih h
            refine ⟨⟨fun i hi => ?_, hclear.synced⟩, List.forall_mem_cons.mpr ⟨hto, hrest⟩⟩
            cases i with
            | zero => exact hfault
            | succ i => exact hclear.written i (Nat.lt_of_succ_lt_succ hi)

/-- What a call that returns `Ok` has done, and what the disk has done during it. -/
theorem call_runOn_eq_ok {c : Codec} {call : Call} {disk : Disk} {w w' : Wal} {n : Nat}
    (h : call.runOn c disk w = (.ok n, w')) :
    w' = extend c w call.records ∧ (call.records = [] ∨ w'.sequence < 2 ^ 64) ∧
      disk.Clear call.records.length ∧ ∀ r ∈ call.records, ∃ payload, c.toVec r = .ok payload := by
  cases call with
  | append r =>
    obtain ⟨hw, hn, hbound⟩ := append_eq_ok h
    rw [hn] at hbound
    have hbatch : appendBatch c disk w [r] = (.ok n, w') := by
      unfold Call.runOn append at h
      cases hwrite : writeRecord c (disk.fault 0) w r with
      | mk result w₁ =>
        cases result with
        | error e => simp [hwrite] at h
        | ok size =>
          simp only [hwrite] at h
          split_ifs at h with hsynced
          · have hseq : w'.sequence = n := hn.symm
            simp [appendBatch, hwrite, h, hsynced, hseq]
          · simp at h
    obtain ⟨hclear, hto⟩ := clear_of_appendBatch hbatch
    exact ⟨hw, Or.inr hbound, hclear, hto⟩
  | appendBatch rs =>
    obtain ⟨hw, hn, hbound⟩ := appendBatch_eq_ok h
    rw [hn] at hbound
    obtain ⟨hclear, hto⟩ := clear_of_appendBatch h
    exact ⟨hw, hbound, hclear, hto⟩

/-- The acknowledged records stand at the front of the file, each can be read back, and at
most three bytes come after them. -/
structure InOrder (c : Codec) (s : Session) (tail : Bytes) : Prop where
  inverts : ∀ r ∈ s.acknowledged, c.Inverts r
  bounded : s.acknowledged.length < 2 ^ 64
  sequence : s.wal.sequence = s.acknowledged.length
  offset : s.wal.offset = (logBytes c 0 s.acknowledged).length
  file : s.wal.file = logBytes c 0 s.acknowledged ++ tail
  short : tail.length < 4

namespace InOrder

variable {c : Codec} {s : Session} {tail : Bytes}

theorem leftover_eq (h : InOrder c s tail) : leftover s.wal = tail.length := by
  rw [leftover, h.file, h.offset, List.length_append]
  omega

theorem usable (h : InOrder c s tail) : s.Usable c := by
  have hopen := open_logBytes h.inverts h.bounded tail h.short
  rw [← h.file] at hopen
  exact ⟨_, hopen, rfl⟩

/-- Bytes that no acknowledged record accounts for are harmless up to three in all. -/
theorem usable_iff_short (h : InOrder c s tail) {w : Wal} {added : Bytes}
    (hw : w.file = s.wal.file ++ added) :
    Session.Usable c ⟨w, s.acknowledged⟩ ↔ (tail ++ added).length < 4 := by
  obtain ⟨fuel, offset, hfuel, hiff⟩ :=
    replays_logBytes_append h.inverts h.bounded (tail ++ added)
  have hreplays := hiff []
  rw [List.append_nil, loopReads_nil_iff c hfuel, ← List.append_assoc, ← h.file, ← hw] at hreplays
  exact hreplays

/-- A failed call that has written no more than that. -/
theorem failed (h : InOrder c s tail) {added : Bytes} (hshort : (tail ++ added).length < 4) :
    InOrder c ⟨{ s.wal with file := s.wal.file ++ added }, s.acknowledged⟩ (tail ++ added) where
  inverts := h.inverts
  bounded := h.bounded
  sequence := h.sequence
  offset := h.offset
  file := by
    dsimp only
    rw [h.file, List.append_assoc]
  short := hshort

/-- Records written behind a clean log. -/
theorem extended (h : InOrder c s []) {rs : List WalRecord} (hrs : ∀ r ∈ rs, c.Inverts r)
    (hseq : s.wal.sequence + rs.length < 2 ^ 64) :
    InOrder c ⟨extend c s.wal rs, s.acknowledged ++ rs⟩ [] where
  inverts := List.forall_mem_append.mpr ⟨h.inverts, hrs⟩
  bounded := by
    rw [List.length_append, ← h.sequence]
    exact hseq
  sequence := by
    rw [List.length_append, ← h.sequence]
    rfl
  offset := by
    rw [logBytes_append, List.length_append, ← h.offset, length_logBytes]
    rfl
  file := by
    rw [List.append_nil, logBytes_append, Nat.zero_add, ← h.sequence]
    simp only [extend, h.file, List.append_nil]
  short := h.short

/-- A harmless call keeps the log in order. -/
theorem step (h : InOrder c s tail) {e : Disk × Call} (he : Harmless c s.wal e) :
    ∃ tail', InOrder c (s.step c e) tail' := by
  cases he with
  | written hclean hinv hdisk hseq =>
    obtain rfl : tail = [] := by
      rw [h.leftover_eq] at hclean
      exact List.length_eq_zero_iff.mp hclean
    have hrun := call_runOn_of_accepts (fun r hr => (hinv r hr).accepts) hdisk s.wal (Or.inr hseq)
    refine ⟨[], ?_⟩
    rw [Session.step, hrun]
    exact h.extended hinv hseq
  | empty hnil =>
    obtain ⟨disk, call⟩ := e
    cases call with
    | append r => cases hnil
    | appendBatch rs =>
      obtain rfl : rs = [] := hnil
      refine ⟨tail, ?_⟩
      unfold Session.step Call.runOn appendBatch
      cases disk.synced with
      | true => simpa [Call.records] using h
      | false => exact h
  | refused hrecords hto =>
    refine ⟨tail, ?_⟩
    rw [Session.step, call_runOn_refused hrecords hto]
    exact h
  | @cut r rs n hrecords hfault hshort =>
    cases hto : c.toVec r with
    | error message =>
      refine ⟨tail, ?_⟩
      rw [Session.step, call_runOn_refused hrecords hto]
      exact h
    | ok payload =>
      rw [h.leftover_eq] at hshort
      refine ⟨tail ++ (encodeRecord c s.wal.sequence payload).take n, ?_⟩
      rw [Session.step, call_runOn_cut hrecords hto hfault]
      refine h.failed ?_
      rw [List.length_append, List.length_take]
      omega

/-- Any other call makes the log lose or gain records, or become unreadable. -/
theorem not_usable_step (h : InOrder c s tail) (hsmall : c.Small) {e : Disk × Call}
    (he : ¬ Harmless c s.wal e) : ¬ (s.step c e).Usable c := by
  obtain ⟨disk, call⟩ := e
  obtain ⟨r, rs, hrecords⟩ : ∃ r rs, call.records = r :: rs :=
    List.exists_cons_of_ne_nil fun hnil => he (.empty hnil)
  cases hto : c.toVec r with
  | error message => exact absurd (.refused hrecords hto) he
  | ok payload =>
    have hlong : 4 ≤ (encodeRecord c s.wal.sequence payload).length := by
      rw [length_encodeRecord, headerSize]
      omega
    cases hfault : disk.fault 0 with
    | some n =>
      have hleft : ¬ leftover s.wal + n < 4 := fun hshort => he (.cut hrecords hfault hshort)
      rw [h.leftover_eq] at hleft
      rw [Session.step, call_runOn_cut hrecords hto hfault]
      refine mt (h.usable_iff_short rfl).mp ?_
      rw [List.length_append, List.length_take]
      omega
    | none =>
      obtain ⟨more, hmore⟩ := call_runOn_first hrecords hto hfault s.wal
      unfold Session.step
      cases hrun : call.runOn c disk s.wal with
      | mk result w =>
        rw [hrun] at hmore
        cases result with
        | error e =>
          rw [List.append_assoc] at hmore
          refine mt (h.usable_iff_short hmore.symm).mp ?_
          simp only [List.length_append]
          omega
        | ok n =>
          obtain ⟨rfl, hbound, hclear, htexts⟩ := call_runOn_eq_ok hrun
          have haccepts : ∀ x ∈ call.records, c.Accepts x := by
            intro x hx
            obtain ⟨text, htext⟩ := htexts x hx
            exact ⟨text, htext, hsmall x text htext⟩
          have hseq : s.wal.sequence + call.records.length < 2 ^ 64 :=
            hbound.resolve_left (by rw [hrecords]; exact List.cons_ne_nil r rs)
          obtain ⟨fuel, offset, hfuel, hiff⟩ := replays_logBytes_append h.inverts h.bounded
            (tail ++ logBytes c s.wal.sequence call.records)
          have hreads := hiff call.records
          rw [← List.append_assoc, ← h.file] at hreads
          refine mt hreads.mp ?_
          by_cases hnil : tail = []
          · subst hnil
            rw [List.nil_append] at hfuel ⊢
            rw [loopReads_logBytes_iff haccepts (Or.inr hseq) hfuel]
            intro hinv
            exact he (.written (h.leftover_eq.trans rfl) hinv hclear hseq)
          · rintro ⟨found, hfound, -⟩
            obtain ⟨e, he'⟩ := readFrame_fragment c offset s.wal.sequence payload tail
              (logBytes c (s.wal.sequence + 1) rs) hnil h.short
            rw [hrecords, logBytes_cons, frameOf, hto] at hfound hfuel
            rw [replayLoop_error he' hfuel] at hfound
            cases hfound

end InOrder

/-- A log that stays open over failing calls can be reopened, with the records of the
successful calls and no others, at every point of a run exactly when every call of the
run is harmless. -/
theorem failed_appends_iff (c : Codec) (hsmall : c.Small) (calls : List (Disk × Call)) :
    Always (Session.step c) (Session.Usable c) Session.fresh calls ↔
      Guarded (Session.step c) (fun s e => Harmless c s.wal e) Session.fresh calls := by
  have hfresh : InOrder c Session.fresh [] := by
    constructor <;> simp [Session.fresh, Wal.fresh, logBytes]
  apply always_iff_guarded fun s => ∃ tail, InOrder c s tail
  · rintro s ⟨tail, h⟩
    exact h.usable
  · rintro s e ⟨tail, h⟩ he
    exact h.step he
  · rintro s e ⟨tail, h⟩ he
    exact h.not_usable_step hsmall he
  · exact ⟨[], hfresh⟩

theorem checkpointCodec_small : checkpointCodec.Small := by
  intro r payload hto
  simp only [checkpointCodec] at hto
  split_ifs at hto
  cases hto
  decide

/-- A failing write of three bytes, then a batch that does not write anything. -/
theorem failed_appends_three_bytes :
    Always (Session.step checkpointCodec) (Session.Usable checkpointCodec) Session.fresh
        [(⟨fun _ => some 3, true⟩, .append (.checkpoint 7)), (.sound, .appendBatch [])] ↔
      Guarded (Session.step checkpointCodec) (fun s e => Harmless checkpointCodec s.wal e)
        Session.fresh
        [(⟨fun _ => some 3, true⟩, .append (.checkpoint 7)), (.sound, .appendBatch [])] :=
  failed_appends_iff checkpointCodec checkpointCodec_small _

/-- After a write that fails in the fifth byte, a successful append ends up behind the
fragment, and the log does not open. -/
theorem failed_append_spoils_log :
    (Session.fresh.step checkpointCodec
        (⟨fun _ => some 5, true⟩, .append (.checkpoint 7))).acknowledged = [] ∧
      ¬ Always (Session.step checkpointCodec) (Session.Usable checkpointCodec) Session.fresh
        [(⟨fun _ => some 5, true⟩, .append (.checkpoint 7)), (.sound, .append (.checkpoint 7))] := by
  refine ⟨by decide +kernel, fun h => ?_⟩
  obtain ⟨w, hopen, -⟩ := h _ (List.prefix_refl _)
  have herror : Wal.open checkpointCodec (run (Session.step checkpointCodec) Session.fresh
      [(⟨fun _ => some 5, true⟩, .append (.checkpoint 7)),
        (.sound, .append (.checkpoint 7))]).wal.file =
      .error (.error (.corrupt 0 "unsupported version: 71")) := by decide +kernel
  rw [herror] at hopen
  cases hopen

end Graphite.Wal
