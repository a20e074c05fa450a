import Graphite.WalFaults

/-! The sequence numbers of a log over its whole life, with truncations and restarts. The
counter is kept in memory; `open` takes it from the last record of the file, so that it
starts again at zero when the records are gone. -/

namespace Graphite.Wal
open BigEndian GuardedRuns

/-- The handle, unless the last `open` has failed, and the numbers of the records that have
been written whole, in the order of the writes. -/
structure Life where
  wal : Wal
  opened : Bool
  numbers : List Nat
  deriving DecidableEq

inductive Event where
  | call (disk : Disk) (call : Call)
  | truncate (cut synced : Bool)
  | reopen

/-- The numbers that go into the file with whole records. -/
def numbersWritten (c : Codec) (fault : Nat → Option Nat) (sequence : Nat) :
    List WalRecord → List Nat
  | [] => []
  | r :: rs =>
    match c.toVec r, fault 0 with
    | .error _, _ => []
    | .ok _, none => sequence ::
      if sequence + 1 < 2 ^ 64 then numbersWritten c (fun i => fault (i + 1)) (sequence + 1) rs
      else []
    | .ok payload, some n => if (encodeRecord c sequence payload).length ≤ n then [sequence] else []

/-- No write that fails has put its whole buffer into the file, and the counter does not
overflow. -/
def countsWritten (c : Codec) (fault : Nat → Option Nat) (sequence : Nat) :
    List WalRecord → Bool
  | [] => true
  | r :: rs =>
    match c.toVec r, fault 0 with
    | .error _, _ => true
    | .ok _, none => sequence + 1 < 2 ^ 64 &&
        countsWritten c (fun i => fault (i + 1)) (sequence + 1) rs
    | .ok payload, some n => n < (encodeRecord c sequence payload).length

/-- The call counts every record that it leaves whole in the file. -/
def Call.counts (c : Codec) (disk : Disk) (w : Wal) : Call → Bool
  | append record => countsWritten c disk.fault w.sequence [record] &&
      (numbersWritten c disk.fault w.sequence [record] = [] || disk.synced)
  | appendBatch records => countsWritten c disk.fault w.sequence records

/-- What a batch counts are the numbers that it has written. -/
theorem appendBatch_numbers {c : Codec} {disk : Disk} {w : Wal} {rs : List WalRecord}
    (h : countsWritten c disk.fault w.sequence rs = true) :
    ∃ m, numbersWritten c disk.fault w.sequence rs = List.range' w.sequence m ∧
      (appendBatch c disk w rs).2.sequence = w.sequence + m := by
  induction rs generalizing disk w with
  | nil => exact ⟨0, rfl, rfl⟩
  | cons r rs ih =>
    rw [countsWritten] at h
    rw [numbersWritten, appendBatch, writeRecord]
    cases hto : c.toVec r with
    | error message => exact ⟨0, rfl, rfl⟩
    | ok payload =>
      cases hfault : disk.fault 0 with
      | some n =>
        simp only [hto, hfault, decide_eq_true_eq] at h
        refine ⟨0, ?_, rfl⟩
        dsimp only
        rw [if_neg (Nat.not_le.mpr h)]
        rfl
      | none =>
        simp only [hto, hfault, Bool.and_eq_true, decide_eq_true_eq] at h
        obtain ⟨hbound, hrest⟩ := h
        simp only [advance, hbound, if_true]
        obtain ⟨m, hnumbers, hsequence⟩ := @ih ⟨fun i => disk.fault (i + 1), disk.synced⟩
          ⟨w.file ++ encodeRecord c w.sequence payload,
            w.offset + (encodeRecord c w.sequence payload).length, w.sequence + 1, w.replayed⟩ hrest
        refine ⟨m + 1, ?_, ?_⟩
        · rw [List.range'_succ, ← hnumbers]
        · rw [hsequence, Nat.add_assoc, Nat.add_comm 1 m]

theorem append_numbers {c : Codec} {disk : Disk} {w : Wal} {r : WalRecord}
    (h : countsWritten c disk.fault w.sequence [r] = true)
    (hsynced : numbersWritten c disk.fault w.sequence [r] = [] ∨ disk.synced = true) :
    ∃ m, numbersWritten c disk.fault w.sequence [r] = List.range' w.sequence m ∧
      (append c disk w r).2.sequence = w.sequence + m := by
  rw [countsWritten] at h
  rw [numbersWritten] at hsynced ⊢
  rw [append, writeRecord]
  cases hto : c.toVec r with
  | error message => exact ⟨0, rfl, rfl⟩
  | ok payload =>
    cases hfault : disk.fault 0 with
    | some n =>
      simp only [hto, hfault, decide_eq_true_eq] at h
      refine ⟨0, ?_, rfl⟩
      dsimp only
      rw [if_neg (Nat.not_le.mpr h)]
      rfl
    | none =>
      simp only [hto, hfault, Bool.and_eq_true, decide_eq_true_eq, List.cons_ne_nil,
        false_or] at h hsynced
      refine ⟨1, ?_, ?_⟩
      · simp [numbersWritten]
      · simp only [hsynced, if_true, advance, h.1]

theorem call_numbers {c : Codec} {disk : Disk} {w : Wal} {call : Call}
    (h : call.counts c disk w = true) :
    ∃ m, numbersWritten c disk.fault w.sequence call.records = List.range' w.sequence m ∧
      (call.runOn c disk w).2.sequence = w.sequence + m := by
  cases call with
  | append record =>
    simp only [Call.counts, Bool.and_eq_true, Bool.or_eq_true, decide_eq_true_eq] at h
    exact append_numbers h.1 h.2
  | appendBatch records => exact appendBatch_numbers h

namespace Life

def fresh : Life := ⟨Wal.fresh, true, []⟩

def step (c : Codec) (life : Life) : Event → Life
  | .call disk call =>
    if life.opened then
      ⟨(call.runOn c disk life.wal).2, true,
        life.numbers ++ numbersWritten c disk.fault life.wal.sequence call.records⟩
    else life
  | .truncate cut synced =>
    if life.opened then { life with wal := (truncate cut synced life.wal).2 } else life
  | .reopen =>
    match Wal.open c life.wal.file with
    | .ok wal => { life with wal, opened := true }
    | .error _ => { life with opened := false }

/-- Calls count what they write, and the file is opened again only while the last record in
it is the last one that was written. -/
def keepsCount (c : Codec) (life : Life) : Event → Bool
  | .call disk call => !life.opened || call.counts c disk life.wal
  | .truncate _ _ => true
  | .reopen =>
    match replayLoop c (life.wal.file.length + 1) 0 life.wal.file with
    | .ok found => (found.map Prod.fst).getLast? = life.numbers.getLast?
    | .error _ => true

/-- No number is used twice, and the counter of an open log is above them all. -/
structure Inv (life : Life) : Prop where
  increasing : life.numbers.Pairwise (· < ·)
  counter : life.opened = true → ∀ n ∈ life.numbers, n < life.wal.sequence

theorem sequence_truncate (cut synced : Bool) (w : Wal) :
    (truncate cut synced w).2.sequence = w.sequence := by
  unfold truncate
  split_ifs <;> rfl

/-- The counter that `open` finds is above the number of the last record. -/
theorem lt_sequence_open {c : Codec} {file : Bytes} {found : List (Nat × WalRecord)} {wal : Wal}
    {numbers : List Nat} (hloop : replayLoop c (file.length + 1) 0 file = .ok found)
    (hopen : Wal.open c file = .ok wal) (hnumbers : numbers.Pairwise (· < ·))
    (hlast : (found.map Prod.fst).getLast? = numbers.getLast?) :
    ∀ n ∈ numbers, n < wal.sequence := by
  rw [open_of_replayLoop hloop] at hopen
  cases hopen
  intro n hn
  obtain ⟨front, last, rfl⟩ := (List.eq_nil_or_concat' numbers).resolve_left (List.ne_nil_of_mem hn)
  rw [List.getLast?_append_of_ne_nil _ (List.cons_ne_nil _ _), List.getLast?_singleton,
    List.getLast?_map, Option.map_eq_some_iff] at hlast
  obtain ⟨r, hr, rfl⟩ := hlast
  rw [hr, Option.map_some, Option.getD_some, Nat.lt_succ_iff]
  rcases List.mem_append.mp hn with hn | hn
  · exact ((List.pairwise_append.mp hnumbers).2.2 n hn r.1 (List.mem_singleton_self _)).le
  · exact (List.mem_singleton.mp hn).le

theorem inv_step (c : Codec) (life : Life) (e : Event) (h : Inv life)
    (hkeep : keepsCount c life e = true) : Inv (step c life e) := by
  cases e with
  | call disk call =>
    rw [step]
    split_ifs with hopened
    · simp only [keepsCount, hopened, Bool.not_true, Bool.false_or] at hkeep
      obtain ⟨m, hnumbers, hsequence⟩ := call_numbers hkeep
      rw [hnumbers]
      refine ⟨List.pairwise_append.mpr ⟨h.increasing, List.pairwise_lt_range', ?_⟩, fun _ n hn => ?_⟩
      · intro n hn k hk
        exact (h.counter hopened n hn).trans_le (List.mem_range'_1.mp hk).1
      · dsimp only
        rw [hsequence]
        rcases List.mem_append.mp hn with hn | hn
        · exact (h.counter hopened n hn).trans_le (Nat.le_add_right _ _)
        · exact (List.mem_range'_1.mp hn).2
    · exact h
  | truncate cut synced =>
    rw [step]
    split_ifs with hopened
    · refine ⟨h.increasing, fun _ n hn => ?_⟩
      dsimp only
      rw [sequence_truncate]
      exact h.counter hopened n hn
    · exact h
  | reopen =>
    rw [keepsCount] at hkeep
    rw [step]
    cases hloop : replayLoop c (life.wal.file.length + 1) 0 life.wal.file with
    | error e =>
      rw [open_error hloop]
      exact ⟨h.increasing, fun hopened => absurd hopened Bool.false_ne_true⟩
    | ok found =>
      rw [hloop] at hkeep
      cases hopen : Wal.open c life.wal.file with
      | error e => exact ⟨h.increasing, fun hopened => absurd hopened Bool.false_ne_true⟩
      | ok wal => exact ⟨h.increasing, fun _ => lt_sequence_open hloop hopen h.increasing
        (of_decide_eq_true hkeep)⟩

/-- Sequence numbers grow over the whole life of a log whose steps keep the count. -/
theorem numbers_increasing (c : Codec) (events : List Event)
    (h : Guarded (step c) (fun life e => keepsCount c life e = true) fresh events) :
    Always (step c) (fun life => life.numbers.Pairwise (· < ·)) fresh events :=
  always_of_guarded Inv (fun _ => Inv.increasing) (inv_step c) ⟨List.Pairwise.nil, fun _ => List.forall_mem_nil _⟩ h

/-- A restart on a log that still has its record, then a truncation. -/
theorem numbers_increasing_restart :
    Always (step checkpointCodec) (fun life => life.numbers.Pairwise (· < ·)) fresh
      [.call .sound (.append (.checkpoint 7)), .reopen,
        .call .sound (.appendBatch [.checkpoint 7, .checkpoint 7]), .truncate true true,
        .call .sound (.append (.checkpoint 7))] :=
  numbers_increasing checkpointCodec _ (by decide +kernel)

/-- A restart on a truncated log gives the numbers out again. -/
theorem truncated_log_reuses_number :
    ¬ Always (step checkpointCodec) (fun life => life.numbers.Pairwise (· < ·)) fresh
      [.call .sound (.append (.checkpoint 7)), .truncate true true, .reopen,
        .call .sound (.append (.checkpoint 7))] := by
  intro h
  have hlast := h _ (List.prefix_refl _)
  revert hlast
  decide +kernel

end Life

end Graphite.Wal
