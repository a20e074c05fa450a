import Graphite.SortedPages
import Graphite.WalDamage

/-! Pages of the log for replicas. On a log that replays, `read_for_replication` gives the
entries behind a number, up to its limit; pulled one after the other its pages tile the
log. The two readers part only at the last sequence number, where replay overflows. -/

namespace Graphite.Wal
open BigEndian

/-- A record whose header carries this number is met on the way through the file. -/
inductive HeaderIn (c : Codec) : Bytes → Nat → Prop
  | here {file rest : Bytes} {frame : Frame}
    (hframe : readFrame c 0 file = .ok (some (frame, rest))) : HeaderIn c file frame.sequence
  | later {file rest : Bytes} {frame : Frame} {sequence : Nat}
    (hframe : readFrame c 0 file = .ok (some (frame, rest))) (h : HeaderIn c rest sequence) :
    HeaderIn c file sequence

/-- Consecutive pulls with these limits, each behind the last number received. -/
def pulls (c : Codec) (w : Wal) :
    List Nat → Option Nat → Except (Stop WalError) (List (Nat × WalRecord))
  | [], _ => .ok []
  | limit :: limits, afterSequence => do
    let page ← readForReplication c w afterSequence limit
    let rest ← pulls c w limits ((page.getLast?.map Prod.fst).or afterSequence)
    return page ++ rest

theorem sequence_lt_of_readFrame {c : Codec} {offset : Nat} {file rest : Bytes} {frame : Frame}
    (h : readFrame c offset file = .ok (some (frame, rest))) : frame.sequence < 2 ^ 64 := by
  obtain ⟨-, -, -, seqBuf, -, -, -, hlen, -, -, hseq, -⟩ := readFrame_eq_some h
  have hlt := decode_lt seqBuf
  rwa [hlen, hseq] at hlt

theorem lt_of_headerIn {c : Codec} {file : Bytes} {sequence : Nat}
    (h : HeaderIn c file sequence) : sequence < 2 ^ 64 := by
  induction h with
  | here hframe => exact sequence_lt_of_readFrame hframe
  | later _ _ ih => exact ih

/-- What is scanned carries numbers of headers in the file. -/
theorem headerIn_of_scans {c : Codec} {file : Bytes} {found : List (Nat × WalRecord)}
    (h : Scans c file found) : ∀ e ∈ found, HeaderIn c file e.1 := by
  induction h with
  | done => simp
  | more hframe _ _ ih =>
    rw [List.forall_mem_cons]
    exact ⟨.here hframe, fun e he => .later hframe (ih e he)⟩

theorem mem_of_headerIn {c : Codec} {file : Bytes} {sequence : Nat}
    (h : HeaderIn c file sequence) {found : List (Nat × WalRecord)} (hscans : Scans c file found) :
    sequence ∈ found.map Prod.fst := by
  induction h generalizing found with
  | here hframe =>
    obtain ⟨record, more, -, -, rfl⟩ := (scans_some_iff hframe found).mp hscans
    exact List.mem_cons_self
  | later hframe _ ih =>
    obtain ⟨record, more, -, hmore, rfl⟩ := (scans_some_iff hframe found).mp hscans
    exact List.mem_cons_of_mem _ (ih hmore)

/-- A page of a log that can be scanned: the entries behind the number, up to the limit. -/
theorem readLoop_of_scans {c : Codec} {file : Bytes} {found : List (Nat × WalRecord)}
    (h : Scans c file found) (afterSequence : Option Nat) {fuel : Nat} (hfuel : file.length < fuel)
    (limit offset : Nat) :
    readLoop c afterSequence fuel limit offset file =
      .ok (SortedPages.page Prod.fst found afterSequence limit) := by
  induction h generalizing fuel limit offset with
  | @done file hshort =>
    obtain ⟨fuel, rfl⟩ := Nat.exists_eq_succ_of_ne_zero (by omega : fuel ≠ 0)
    cases limit with
    | zero => rfl
    | succ limit =>
      rw [readLoop, readFrame_short c offset hshort]
      rfl
  | @more file rest frame record found hframe hrecord h ih =>
    obtain ⟨fuel, rfl⟩ := Nat.exists_eq_succ_of_ne_zero (by omega : fuel ≠ 0)
    have hrest := length_of_readFrame hframe
    cases limit with
    | zero => rfl
    | succ limit =>
      rw [readLoop, readFrame_eq_ok_of_offset hframe offset]
      simp only [bind, Except.bind, hrecord]
      split_ifs with hpast
      · rw [ih (by omega)]
        simp [pure, Except.pure, SortedPages.page, SortedPages.beyond, hpast]
      · rw [ih (by omega)]
        simp [SortedPages.page, SortedPages.beyond, hpast]

theorem readForReplication_of_scans {c : Codec} {w : Wal} {found : List (Nat × WalRecord)}
    (h : Scans c w.file found) (afterSequence : Option Nat) (limit : Nat) :
    readForReplication c w afterSequence limit =
      .ok (SortedPages.page Prod.fst found afterSequence limit) :=
  readLoop_of_scans h afterSequence (Nat.lt_succ_self _) limit 0

theorem pulls_of_scans {c : Codec} {w : Wal} {found : List (Nat × WalRecord)}
    (h : Scans c w.file found) (limits : List Nat) (afterSequence : Option Nat) :
    pulls c w limits afterSequence =
      .ok (SortedPages.pages Prod.fst found limits afterSequence) := by
  induction limits generalizing afterSequence with
  | nil => rfl
  | cons limit limits ih =>
    rw [pulls, readForReplication_of_scans h]
    simp only [bind, Except.bind]
    rw [ih]
    rfl

/-- Replay decodes what can be scanned, as long as it can count on. -/
theorem replayLoop_of_scans {c : Codec} {file : Bytes} {found : List (Nat × WalRecord)}
    (h : Scans c file found) (hmax : ∀ e ∈ found, e.1 + 1 < 2 ^ 64) {fuel : Nat}
    (hfuel : file.length < fuel) (offset : Nat) :
    replayLoop c fuel offset file = .ok found := by
  induction h generalizing fuel offset with
  | @done file hshort =>
    obtain ⟨fuel, rfl⟩ := Nat.exists_eq_succ_of_ne_zero (by omega : fuel ≠ 0)
    rw [replayLoop, readFrame_short c offset hshort]
    rfl
  | @more file rest frame record found hframe hrecord h ih =>
    obtain ⟨fuel, rfl⟩ := Nat.exists_eq_succ_of_ne_zero (by omega : fuel ≠ 0)
    have hrest := length_of_readFrame hframe
    rw [List.forall_mem_cons] at hmax
    rw [replayLoop, readFrame_eq_ok_of_offset hframe offset]
    simp only [bind, Except.bind, hrecord, if_neg (Nat.not_le.mpr hmax.1)]
    rw [ih hmax.2 (by omega)]
    rfl

/-- A replay that succeeds has decoded what can be scanned. -/
theorem scans_of_replay {c : Codec} {w w' : Wal} {records : List WalRecord}
    (h : replay c w = .ok (records, w')) :
    ∃ found, Scans c w.file found ∧ found.map Prod.snd = records := by
  obtain ⟨found, hloop, hrest⟩ := bind_eq_ok.mp h
  cases hrest
  exact ⟨found, scans_of_replayLoop hloop (Nat.lt_succ_self _), rfl⟩

theorem replay_eq_ok_iff {c : Codec} {w : Wal} (hmax : ¬ HeaderIn c w.file (2 ^ 64 - 1))
    (records : List WalRecord) :
    (∃ w', replay c w = .ok (records, w')) ↔
      ∃ found, Scans c w.file found ∧ found.map Prod.snd = records := by
  constructor
  · rintro ⟨w', hreplay⟩
    exact scans_of_replay hreplay
  · rintro ⟨found, hscans, rfl⟩
    have hcount : ∀ e ∈ found, e.1 + 1 < 2 ^ 64 := by
      intro e he
      have hheader := headerIn_of_scans hscans e he
      have hlt := lt_of_headerIn hheader
      have hne : e.1 ≠ 2 ^ 64 - 1 := fun heq => hmax (heq ▸ hheader)
      omega
    exact ⟨_, replay_eq w found c (replayLoop_of_scans hscans hcount (Nat.lt_succ_self _) 0)⟩

/-- On every log that replays to records with increasing numbers, each page holds the first
entries behind its number and pulls enumerate the records once; where no header has the last
number, the reader without bounds accepts the same files as replay and finds the same records. -/
theorem replication_pages_tile (c : Codec) (w : Wal) :
    (∀ records w', replay c w = .ok (records, w') →
      ∃ found, Scans c w.file found ∧ found.map Prod.snd = records ∧
        ((found.map Prod.fst).Pairwise (· < ·) →
          (∀ afterSequence limit, readForReplication c w afterSequence limit =
            .ok ((found.filter fun e => afterSequence.all (· < e.1)).take limit)) ∧
          (∀ limits afterSequence, pulls c w limits afterSequence =
            .ok ((found.filter fun e => afterSequence.all (· < e.1)).take limits.sum)) ∧
          ∀ limits, (∀ limit ∈ limits, 1 ≤ limit) → found.length ≤ limits.length →
            pulls c w limits none = .ok found)) ∧
    (¬ HeaderIn c w.file (2 ^ 64 - 1) → ∀ limit, w.file.length < limit → ∀ records,
      (∃ w', replay c w = .ok (records, w')) ↔
        ∃ found, readForReplication c w none limit = .ok found ∧
          found.map Prod.snd = records) := by
  refine ⟨?_, ?_⟩
  · intro records w' hreplay
    obtain ⟨found, hscans, hrecords⟩ := scans_of_replay hreplay
    refine ⟨found, hscans, hrecords, fun hsorted => ?_⟩
    have hpulls (limits : List Nat) (afterSequence : Option Nat) :
        pulls c w limits afterSequence =
          .ok ((SortedPages.beyond Prod.fst afterSequence found).take limits.sum) := by
      rw [pulls_of_scans hscans, SortedPages.pages_eq Prod.fst hsorted]
    refine ⟨readForReplication_of_scans hscans, hpulls, ?_⟩
    intro limits hpos hlen
    have hsum := SortedPages.length_le_sum hpos
    rw [hpulls, SortedPages.beyond_none, List.take_of_length_le (by omega)]
  · intro hmax limit hlimit records
    rw [replay_eq_ok_iff hmax]
    simp only [readForReplication, readLoop_eq_ok_iff (Nat.lt_succ_self _) hlimit]

/-- A log of two checkpoints, pulled one by one. -/
theorem replication_pages_tile_two_checkpoints :
    let w : Wal := ⟨logBytes checkpointCodec 0 [.checkpoint 7, .checkpoint 7], 0, 0, []⟩
    pulls checkpointCodec w [1, 1] none = .ok [(0, .checkpoint 7), (1, .checkpoint 7)] ∧
      ∀ records, (∃ w', replay checkpointCodec w = .ok (records, w')) ↔
        ∃ found, readForReplication checkpointCodec w none (w.file.length + 1) = .ok found ∧
          found.map Prod.snd = records := by
  intro w
  have hserde : ∀ r ∈ [WalRecord.checkpoint 7, .checkpoint 7], checkpointCodec.Serde r := by
    simpa using checkpointCodec_serde
  have hiff := scans_logBytes_append_iff hserde 0 (by decide) []
  rw [List.append_nil] at hiff
  have hscans : Scans checkpointCodec w.file [(0, .checkpoint 7), (1, .checkpoint 7)] :=
    (hiff _).mpr ⟨by simp [WalRecord.Finite], [], .done (by simp), rfl⟩
  have hreplay := replay_eq w _ checkpointCodec
    (replayLoop_of_scans hscans (by decide) (Nat.lt_succ_self _) 0)
  obtain ⟨found, hfound, -, htile⟩ := (replication_pages_tile checkpointCodec w).1 _ _ hreplay
  obtain ⟨-, more, hmore, rfl⟩ := (hiff found).mp hfound
  obtain rfl := (scans_short_iff (by simp) more).mp hmore
  have hmax : ¬ HeaderIn checkpointCodec w.file (2 ^ 64 - 1) := fun h => by
    simpa using mem_of_headerIn h hscans
  exact ⟨(htile (by decide)).2.2 [1, 1] (by decide) (by decide),
    (replication_pages_tile checkpointCodec w).2 hmax _ (Nat.lt_succ_self _)⟩

end Graphite.Wal
