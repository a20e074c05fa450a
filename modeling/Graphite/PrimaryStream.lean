import Graphite.LogShipping
import Graphite.LsmCrash
import Graphite.LsmDeliveries
import Graphite.LsmLookups
import Graphite.TreeRuns
import Graphite.WalPages

/-! The log of a primary as a stream of replication entries. What the calls have appended is
a history; what a flush has not cut off stands in the log, numbered on without a gap, and a
read gives a page of it under the names of the symbols. -/

namespace Graphite
open KeyedRows LockProgram

instance (c : Codec) (r : WalRecord) : Decidable (c.Inverts r) :=
  match h : c.toVec r with
  | .error _ => isFalse fun ⟨_, hto, _⟩ => by rw [h] at hto; cases hto
  | .ok payload => decidable_of_iff (c.fromSlice payload = .ok r ∧ payload.length < 2 ^ 32)
    ⟨fun hrest => ⟨payload, h, hrest⟩, fun ⟨_, hto, hrest⟩ => by rw [h] at hto; cases hto; exact hrest⟩

/-- The entries of ticks that are logged from this number on. -/
def SymbolDictionary.entriesFrom (dict : SymbolDictionary) (first : Nat) (ticks : List Tick) :
    List ReplicationEntry :=
  (ticks.zipIdx first).map fun e => LsmTree.entryOf dict (e.2, .insert e.1)

namespace SymbolDictionary

theorem numbers_entriesFrom (dict : SymbolDictionary) (first : Nat) (ticks : List Tick) :
    (dict.entriesFrom first ticks).map (fun e => (e.sequence, e.record)) =
      ((ticks.map WalRecord.insert).zipIdx first).map Prod.swap := by
  rw [entriesFrom, List.zipIdx_map, List.map_map, List.map_map]
  rfl

theorem records_entriesFrom (dict : SymbolDictionary) (first : Nat) (ticks : List Tick) :
    (dict.entriesFrom first ticks).map ReplicationEntry.record = ticks.map WalRecord.insert := by
  have hnumbers := congrArg (List.map Prod.snd) (dict.numbers_entriesFrom first ticks)
  rw [List.map_map, List.map_map] at hnumbers
  rw [← List.zipIdx_map_fst first (ticks.map WalRecord.insert)]
  exact hnumbers

theorem sequences_entriesFrom (dict : SymbolDictionary) (first : Nat) (ticks : List Tick) :
    (dict.entriesFrom first ticks).map ReplicationEntry.sequence =
      List.range' first ticks.length := by
  have hnumbers := congrArg (List.map Prod.fst) (dict.numbers_entriesFrom first ticks)
  rw [List.map_map, List.map_map] at hnumbers
  rw [← List.length_map (f := WalRecord.insert), ← List.zipIdx_map_snd]
  exact hnumbers

@[simp] theorem length_entriesFrom (dict : SymbolDictionary) (first : Nat) (ticks : List Tick) :
    (dict.entriesFrom first ticks).length = ticks.length := by
  rw [entriesFrom, List.length_map, List.length_zipIdx]

theorem mem_entriesFrom {dict : SymbolDictionary} {first : Nat} {ticks : List Tick}
    {e : ReplicationEntry} (he : e ∈ dict.entriesFrom first ticks) :
    ∃ x ∈ ticks, e = LsmTree.entryOf dict (e.sequence, .insert x) ∧ first ≤ e.sequence ∧
      e.sequence < first + ticks.length := by
  obtain ⟨⟨x, n⟩, hx, rfl⟩ := List.mem_map.mp he
  obtain ⟨hle, hlt, -⟩ := List.mem_zipIdx hx
  exact ⟨x, List.fst_mem_of_mem_zipIdx hx, rfl, hle, hlt⟩

/-- A symbol that is known keeps its name. -/
theorem entryOf_of_grown {d e : SymbolDictionary} (h : d.idToSymbol <+: e.idToSymbol)
    {entry : Nat × WalRecord} (hnamed : (LsmTree.entryOf d entry).Named) :
    LsmTree.entryOf e entry = LsmTree.entryOf d entry := by
  obtain ⟨sequence, record⟩ := entry
  cases record with
  | insert tick =>
    obtain ⟨name, hname⟩ := Option.isSome_iff_exists.mp hnamed
    have hold : d.getSymbol tick.symbolId = some name := hname
    have hthere := getSymbol_of_grown h hold
    rw [LsmTree.entryOf, LsmTree.entryOf]
    dsimp only
    rw [hthere, hold]
  | delete key => rfl
  | checkpoint sequence => rfl

end SymbolDictionary

/-- A primary, the time, and the entries of all records it has appended, in order. -/
structure Primary where
  tree : LsmTree
  time : Nat
  appended : List ReplicationEntry

namespace Primary
open LsmTree

def start (flushThreshold : Nat) : Primary := ⟨fresh flushThreshold .primary, 0, []⟩

def step (p : Platform) (c : Codec) (env : Env) (pr : Primary) : StoreCall → Primary
  | .insertion call =>
    let outcome := exec (call.op p c env) [] (pr.tree, pr.time)
    ⟨outcome.state.1, outcome.state.2,
      if outcome.succeeded then pr.appended ++ outcome.state.1.symbolDict.entriesFrom
        pr.tree.wal.sequence (call.rows pr.tree.symbolDict)
      else pr.appended⟩
  | .flushMemtable =>
    let outcome := exec (LsmTree.flushMemtable p env) [] (pr.tree, pr.time)
    ⟨outcome.state.1, outcome.state.2, pr.appended⟩

/-- An insert returns normally and its records can be read back, or it leaves the log as it
was. -/
def Logs (p : Platform) (c : Codec) (env : Env) (pr : Primary) : StoreCall → Prop
  | .insertion call =>
    let outcome := exec (call.op p c env) [] (pr.tree, pr.time)
    if outcome.succeeded then ∀ x ∈ call.rows pr.tree.symbolDict, c.Inverts (.insert x)
    else outcome.state.1.wal = pr.tree.wal
  | .flushMemtable => True

instance (p : Platform) (c : Codec) (env : Env) (pr : Primary) (call : StoreCall) :
    Decidable (pr.Logs p c env call) :=
  match call with
  | .insertion call => inferInstanceAs (Decidable
      (if (exec (call.op p c env) [] (pr.tree, pr.time)).succeeded then
        ∀ x ∈ call.rows pr.tree.symbolDict, c.Inverts (.insert x)
      else (exec (call.op p c env) [] (pr.tree, pr.time)).state.1.wal = pr.tree.wal))
  | .flushMemtable => isTrue trivial

/-- The entries that are held are those in the log, the others have been cut off. -/
structure Streams (c : Codec) (pr : Primary) (gone held : List ReplicationEntry) (first : Nat) :
    Prop where
  appended : pr.appended = gone ++ held
  file : pr.tree.wal.file = Wal.logBytes c first (held.map ReplicationEntry.record)
  numbered : held.map (fun e => (e.sequence, e.record)) =
    ((held.map ReplicationEntry.record).zipIdx first).map Prod.swap
  sequence : pr.tree.wal.sequence = first + held.length
  bounded : pr.tree.wal.sequence < 2 ^ 64
  increasing : (pr.appended.map ReplicationEntry.sequence).Pairwise (· < ·)
  below : ∀ e ∈ pr.appended, e.sequence < pr.tree.wal.sequence
  inverts : ∀ e ∈ held, c.Inverts e.record
  named : ∀ e ∈ pr.appended, e.Named
  entries : ∀ e ∈ held, entryOf pr.tree.symbolDict (e.sequence, e.record) = e
  levels : pr.tree.compaction.levels ≠ []

variable {p : Platform} {c : Codec} {env : Env} {pr : Primary} {gone held : List ReplicationEntry}
  {first : Nat}

theorem Streams.scans (h : Streams c pr gone held first) :
    Wal.Scans c pr.tree.wal.file (held.map fun e => (e.sequence, e.record)) := by
  have hlength : first + (held.map ReplicationEntry.record).length < 2 ^ 64 := by
    rw [List.length_map, ← h.sequence]
    exact h.bounded
  obtain ⟨fuel, offset, -, hloop⟩ := Wal.replayLoop_logBytes c _
    (List.forall_mem_map.mpr h.inverts) first _ 0 [] (Or.inr hlength) (Nat.lt_succ_self _)
  rw [Wal.replayLoop_short c (by decide : ([] : BigEndian.Bytes).length < 4), List.append_nil,
    ← h.file] at hloop
  rw [h.numbered, ← List.append_nil (((held.map ReplicationEntry.record).zipIdx first).map Prod.swap)]
  exact Wal.scans_of_replayLoop hloop (Nat.lt_succ_self _)

/-- A read gives a page of the entries in the log. -/
theorem Streams.read (h : Streams c pr gone held first) (after : Option Nat) (limit : Nat) :
    exec (readWalForReplication c after limit) [] (pr.tree, pr.time) = .finished
      (.ok (SortedPages.page ReplicationEntry.sequence held after limit)) []
        (pr.tree, pr.time + 1) := by
  have hpage : Wal.readForReplication c pr.tree.wal after limit = .ok
      ((SortedPages.page ReplicationEntry.sequence held after limit).map
        fun e => (e.sequence, e.record)) := by
    rw [Wal.readForReplication_of_scans h.scans, SortedPages.page_map]
    rfl
  have hread : onWal (fun _ w => (Wal.readForReplication c w after limit, w)) (pr.tree, pr.time) =
      (.ok ((SortedPages.page ReplicationEntry.sequence held after limit).map
        fun e => (e.sequence, e.record)), (pr.tree, pr.time + 1)) := onWal_ok hpage
  have hnames : ((SortedPages.page ReplicationEntry.sequence held after limit).map
      fun e => (e.sequence, e.record)).map (entryOf pr.tree.symbolDict) =
        SortedPages.page ReplicationEntry.sequence held after limit := by
    rw [List.map_map]
    exact (List.map_congr_left fun e he =>
      h.entries e ((SortedPages.page_sublist _ _ _ _).mem he)).trans (List.map_id _)
  rw [readWalForReplication, exec_bind_ok (exec_withGuard_attempt (by decide) hread),
    exec_withGuard_gets (by decide), hnames]

theorem streams_start (c : Codec) (flushThreshold : Nat) :
    Streams c (start flushThreshold) [] [] 0 where
  appended := rfl
  file := rfl
  numbered := rfl
  sequence := rfl
  bounded := Nat.two_pow_pos 64
  increasing := List.Pairwise.nil
  below := List.forall_mem_nil _
  inverts := List.forall_mem_nil _
  named := List.forall_mem_nil _
  entries := List.forall_mem_nil _
  levels := List.cons_ne_nil _ _

/-- What no call takes away. -/
structure Follows (pr pr' : Primary) : Prop where
  dict : pr.tree.symbolDict.idToSymbol <+: pr'.tree.symbolDict.idToSymbol
  levels : pr.tree.compaction.levels ≠ [] → pr'.tree.compaction.levels ≠ []

theorem follows_insertion (p : Platform) (c : Codec) (env : Env) (pr : Primary) (call : InsertCall) :
    Follows pr (step p c env pr (.insertion call)) := by
  obtain ⟨dict, rows, wal, hgrown, -, h | h⟩ := call.leaves p c env pr.tree pr.time
  · exact ⟨by rw [step, h]; exact hgrown, by rw [step, h]; exact id⟩
  · exact ⟨by rw [step, h]; exact hgrown, by rw [step, h]; exact id⟩

/-- The log as it was, with more symbols in the dictionary. -/
theorem Streams.same (h : Streams c pr gone held first) {pr' : Primary} (hfollows : Follows pr pr')
    (happended : pr'.appended = pr.appended) (hwal : pr'.tree.wal = pr.tree.wal) :
    Streams c pr' gone held first where
  appended := happended.trans h.appended
  file := by rw [hwal, h.file]
  numbered := h.numbered
  sequence := by rw [hwal, h.sequence]
  bounded := by rw [hwal]; exact h.bounded
  increasing := by rw [happended]; exact h.increasing
  below := by rw [happended, hwal]; exact h.below
  inverts := h.inverts
  named := by rw [happended]; exact h.named
  entries := fun e he => by
    have hold := h.entries e he
    have hnamed : (entryOf pr.tree.symbolDict (e.sequence, e.record)).Named := by
      rw [hold]
      exact h.named e (h.appended ▸ List.mem_append_right gone he)
    rw [SymbolDictionary.entryOf_of_grown hfollows.dict hnamed, hold]
  levels := hfollows.levels h.levels

/-- The log with the entries of more ticks behind it. -/
theorem Streams.extend (h : Streams c pr gone held first) {pr' : Primary} {ticks : List Tick}
    (hfollows : Follows pr pr') (happended : pr'.appended = pr.appended ++
      pr'.tree.symbolDict.entriesFrom pr.tree.wal.sequence ticks)
    (hwal : pr'.tree.wal = Wal.extend c pr.tree.wal (ticks.map .insert))
    (hbound : pr.tree.wal.sequence + ticks.length < 2 ^ 64)
    (hinverts : ∀ x ∈ ticks, c.Inverts (.insert x))
    (hknown : InsertCall.Known pr'.tree.symbolDict ticks) :
    Streams c pr' gone
      (held ++ pr'.tree.symbolDict.entriesFrom pr.tree.wal.sequence ticks) first := by
  have hrecords := pr'.tree.symbolDict.records_entriesFrom pr.tree.wal.sequence ticks
  have hsequence : pr'.tree.wal.sequence = pr.tree.wal.sequence + ticks.length := by
    rw [hwal, Wal.extend, List.length_map]
  have hnew : ∀ e ∈ pr'.tree.symbolDict.entriesFrom pr.tree.wal.sequence ticks,
      e.Named ∧ pr.tree.wal.sequence ≤ e.sequence ∧ e.sequence < pr'.tree.wal.sequence := by
    intro e he
    obtain ⟨x, hx, heq, hle, hlt⟩ := SymbolDictionary.mem_entriesFrom he
    obtain ⟨name, hname⟩ := hknown x hx
    refine ⟨?_, hle, hsequence ▸ hlt⟩
    rw [heq]
    exact Option.isSome_iff_exists.mpr ⟨name, hname⟩
  have hold : ∀ e ∈ pr.appended, e.Named ∧ e.sequence < pr.tree.wal.sequence :=
    fun e he => ⟨h.named e he, h.below e he⟩
  refine ⟨?_, ?_, ?_, ?_, hsequence ▸ hbound, ?_, ?_, ?_, ?_, ?_, hfollows.levels h.levels⟩
  · rw [happended, h.appended, List.append_assoc]
  · rw [hwal, List.map_append, hrecords, Wal.logBytes_append, List.length_map, ← h.sequence, ← h.file]
    rfl
  · rw [List.map_append, h.numbered, SymbolDictionary.numbers_entriesFrom, List.map_append, hrecords,
      List.zipIdx_append, List.map_append, List.length_map, h.sequence]
  · rw [hsequence, h.sequence, List.length_append, SymbolDictionary.length_entriesFrom,
      Nat.add_assoc]
  · rw [happended, List.map_append, SymbolDictionary.sequences_entriesFrom]
    refine List.pairwise_append.mpr ⟨h.increasing, List.pairwise_lt_range', fun n hn k hk => ?_⟩
    obtain ⟨e, he, rfl⟩ := List.mem_map.mp hn
    exact (h.below e he).trans_le (List.mem_range'_1.mp hk).1
  · rw [happended]
    intro e he
    rcases List.mem_append.mp he with he | he
    · exact (hold e he).2.trans_le (hsequence ▸ Nat.le_add_right _ _)
    · exact (hnew e he).2.2
  · intro e he
    rcases List.mem_append.mp he with he | he
    · exact h.inverts e he
    · obtain ⟨x, hx, heq, -⟩ := SymbolDictionary.mem_entriesFrom he
      rw [heq]
      exact hinverts x hx
  · rw [happended]
    intro e he
    rcases List.mem_append.mp he with he | he
    · exact (hold e he).1
    · exact (hnew e he).1
  · intro e he
    rcases List.mem_append.mp he with he | he
    · have hnamed : (entryOf pr.tree.symbolDict (e.sequence, e.record)).Named := by
        rw [h.entries e he]
        exact h.named e (h.appended ▸ List.mem_append_right gone he)
      rw [SymbolDictionary.entryOf_of_grown hfollows.dict hnamed, h.entries e he]
    · obtain ⟨x, -, heq, -⟩ := SymbolDictionary.mem_entriesFrom he
      rw [heq]
      rfl

/-- An insert appends entries behind all others, or none. -/
theorem streams_insertion (h : Streams c pr gone held first) {call : InsertCall}
    (hlogs : pr.Logs p c env (.insertion call)) :
    ∃ new, Streams c (step p c env pr (.insertion call)) gone (held ++ new) first ∧
      ∀ e ∈ new, pr.tree.wal.sequence ≤ e.sequence := by
  have hfollows := follows_insertion p c env pr call
  have hsame (happended : (step p c env pr (.insertion call)).appended = pr.appended)
      (hwal : (step p c env pr (.insertion call)).tree.wal = pr.tree.wal) :
      ∃ new, Streams c (step p c env pr (.insertion call)) gone (held ++ new) first ∧
        ∀ e ∈ new, pr.tree.wal.sequence ≤ e.sequence :=
    ⟨[], by rw [List.append_nil]; exact h.same hfollows happended hwal, List.forall_mem_nil _⟩
  have hends := call.ends p c env pr.tree pr.time
  rw [Logs] at hlogs
  rw [step] at hfollows hsame ⊢
  generalize exec (call.op p c env) [] (pr.tree, pr.time) = outcome at hends hlogs hfollows hsame
  cases hends with
  | empty _ hempty =>
    have hnone : call.rows pr.tree.symbolDict = [] := InsertCall.rows_of_isEmpty hempty _
    exact hsame (by rw [hnone]; exact List.append_nil _) rfl
  | failed _ e st => exact hsame rfl hlogs
  | blocked _ _ st => exact hsame rfl hlogs
  | @stored ticks dict hstores hlt =>
    obtain ⟨hwal, hbound⟩ := log_eq_ok hstores
    obtain ⟨-, hknown⟩ := InsertCall.stored_spec hstores.stored
    have hrows : call.rows pr.tree.symbolDict = ticks := by
      rw [InsertCall.rows, hstores.stored]
      rfl
    rw [hrows] at hlogs hfollows
    rw [hrows]
    refine ⟨_, h.extend hfollows rfl hwal hbound hlogs hknown, fun e he => ?_⟩
    obtain ⟨-, -, -, hle, -⟩ := SymbolDictionary.mem_entriesFrom he
    exact hle

/-- A log that was to be cut off is as it was, or empty with the same counter. -/
theorem truncated_cases (s : LsmTree) (env : Env) (time : Nat) :
    (s.truncated env time).2 = s.wal ∨
      (s.truncated env time).2.file = [] ∧ (s.truncated env time).2.sequence = s.wal.sequence := by
  rw [truncated, Wal.truncate]
  split_ifs
  · exact Or.inl rfl
  · exact Or.inr ⟨rfl, rfl⟩
  · exact Or.inr ⟨rfl, rfl⟩

/-- A flush leaves the log alone or cuts all of it off; the numbers go on. -/
theorem streams_flushMemtable (h : Streams c pr gone held first) (p : Platform) (env : Env) :
    Streams c (step p c env pr .flushMemtable) gone held first ∨
      pr.tree.memtable.chain ≠ [] ∧ Streams c (step p c env pr .flushMemtable) (gone ++ held) []
        pr.tree.wal.sequence := by
  have hends := flush_ends p env h.levels pr.time
  rw [step]
  generalize exec (LsmTree.flushMemtable p env) [] (pr.tree, pr.time) = outcome at hends
  cases hends with
  | nothing hchain => exact Or.inl (h.same ⟨List.prefix_rfl, id⟩ rfl rfl)
  | unwritten hchain hnone e => exact Or.inl (h.same ⟨List.prefix_rfl, id⟩ rfl rfl)
  | @written t hchain ht r =>
    have hfollows : Follows pr ⟨(pr.tree.drained.register t).withWal
        (pr.tree.truncated env (pr.time + 2)).2, pr.time + 3, pr.appended⟩ :=
      ⟨List.prefix_rfl, fun hlevels => levels_register_ne_nil (s := pr.tree.drained) hlevels t⟩
    rcases truncated_cases pr.tree env (pr.time + 2) with hsame | ⟨hfile, hsequence⟩
    · exact Or.inl (h.same hfollows rfl hsame)
    · refine Or.inr ⟨hchain, ?_⟩
      have hbound : (pr.tree.truncated env (pr.time + 2)).2.sequence < 2 ^ 64 := by
        rw [hsequence]
        exact h.bounded
      refine ⟨?_, hfile, rfl, hsequence, hbound, h.increasing, ?_, List.forall_mem_nil _, h.named,
        List.forall_mem_nil _, hfollows.levels h.levels⟩
      · rw [List.append_nil]
        exact h.appended
      · intro e he
        exact (h.below e he).trans_eq hsequence.symm

end Primary

end Graphite
