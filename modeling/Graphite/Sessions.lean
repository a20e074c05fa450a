import Graphite.LsmReopen
import Graphite.PointLookups
import Graphite.PrimaryStream

/-! Sessions of one data directory. The process stops between two calls or at some point of
a flush, and the next one opens what it finds. The rows come back from the log and from the
table files; the symbols do not, so that they have to be interned in the order of the first
time. -/

namespace Graphite
open BigEndian KeyedRows LockProgram GuardedRuns

namespace TableFile

variable {f : TableFile} {files : List TableFile}

/-- A file with a new name is read before all others. -/
theorem findSome?_put (hnew : f.path ∉ files.map path) (key : Key) :
    (f.put files).reverse.findSome? (probe key) =
      (f.probe key).or (files.reverse.findSome? (probe key)) := by
  have hkept : files.filter (fun g => g.path ≠ f.path) = files :=
    List.filter_eq_self.mpr fun g hg =>
      decide_eq_true fun hpath => hnew (hpath ▸ List.mem_map_of_mem hg)
  rw [put, hkept, List.reverse_append, List.reverse_singleton, List.singleton_append,
    List.findSome?_cons]
  cases f.probe key <;> rfl

end TableFile

namespace LsmTree

variable {p : Platform} {c : Codec} {env : Env} {left : Option Nat} {s : LsmTree} {time : Nat}
  {files : List TableFile}

/-- `Wal::open` on whole records, wherever their numbers start. -/
theorem open_logBytes (c : Codec) {first : Nat} {records : List WalRecord}
    (hinverts : ∀ r ∈ records, c.Inverts r) (hbound : first + records.length < 2 ^ 64) :
    ∃ wal first', Wal.open c (Wal.logBytes c first records) = .ok wal ∧ wal.replayed = records ∧
      wal.file = Wal.logBytes c first' records ∧ wal.sequence = first' + records.length ∧
      first' + records.length < 2 ^ 64 := by
  obtain ⟨fuel, offset, -, hloop⟩ := Wal.replayLoop_logBytes c records hinverts first
    ((Wal.logBytes c first records ++ []).length + 1) 0 [] (Or.inr hbound) (Nat.lt_succ_self _)
  rw [Wal.replayLoop_short c (by decide : ([] : Bytes).length < 4), List.append_nil] at hloop
  have hopen := Wal.open_of_replayLoop hloop
  cases records using List.reverseRecOn with
  | nil => exact ⟨_, 0, hopen, rfl, rfl, rfl, Nat.two_pow_pos 64⟩
  | append_singleton records r =>
    refine ⟨_, first, hopen, ?_, rfl, ?_, hbound⟩
    · simp [Function.comp_def]
    · simp [List.zipIdx_append, Nat.add_assoc]

/-- What the log does not give back is not in the memtable. -/
theorem LogCovers.get_eq_none {first : Nat} {records : List WalRecord}
    (h : LogCovers c s first records) {key : Key}
    (hnone : (recoverFromWal records).get key = none) : s.memtable.get key = none := by
  by_contra hsome
  obtain ⟨x, hx⟩ := Option.ne_none_iff_exists'.mp hsome
  obtain ⟨hmem, rfl⟩ := (SkipList.get_eq_some_iff _ key x).mp hx
  rw [(SkipList.get_eq_some_iff _ x.key x).mpr ⟨h.memtable x hmem, rfl⟩] at hnone
  cases hnone

/-- Complete files of level 0 open to a tree that looks into the one listed last first. -/
theorem openFiles_listed {wal : Wal} {log : Bytes} (hwal : Wal.open c log = .ok wal) (p : Platform)
    (hfiles : ∀ f ∈ files, f.isComplete = true) (hlevel : InLevel0 files) (flushThreshold : Nat)
    (role : NodeRole) (last : Option Nat) :
    ∃ tree, openFiles p c flushThreshold role log files last = .ok tree ∧ tree.wal = wal ∧
      tree.memtable = recoverFromWal wal.replayed ∧ tree.symbolDict = .new ∧
      tree.compaction.levels ≠ [] ∧
      (∀ t, t ∈ tree.storageOrder ↔ ∃ t₀, .complete t₀ ∈ files ∧ t = t₀.reopen) ∧
      ∀ key, probeAll tree.newestFirst key = files.reverse.findSome? (TableFile.probe key) := by
  obtain ⟨tables, rfl⟩ : files ∈ Set.range (List.map TableFile.complete) := by
    rw [Set.range_list_map]
    rintro f hf
    cases f with
    | complete t => exact ⟨t, rfl⟩
    | cut path bytes => exact absurd (hfiles _ hf) Bool.false_ne_true
  have hlevels : ((tables.map Table.reopen).foldl loadSstable
      (CompactionManager.new SymbolDictionary.new)).levels = [⟨0, tables.map Table.reopen⟩] := by
    refine level0_loadSstable _ [] rfl fun x hx => ?_
    obtain ⟨t, ht, rfl⟩ := List.mem_map.mp hx
    exact hlevel t (List.mem_map_of_mem ht)
  unfold openFiles
  rw [hwal, mapM_load_complete]
  refine ⟨_, rfl, rfl, rfl, rfl, ?_, fun t => ?_, fun key => ?_⟩
  · dsimp only
    rw [hlevels]
    exact List.cons_ne_nil _ _
  · simp only [storageOrder, hlevels, List.flatMap_singleton, List.mem_map,
      TableFile.complete.injEq, exists_eq_right]
    simp only [eq_comm]
  · rw [newestFirst, hlevels, List.flatMap_singleton, ← List.map_reverse, ← List.map_reverse,
      List.findSome?_map, probeAll, List.findSome?_map]
    rfl

end LsmTree

section Writing

variable {L σ ε : Type} [DecidableEq L]

theorem exec_writeUpTo_put (path : String) (bytes : Bytes) (n : Nat) (held : Held L)
    (st : (σ × Nat) × List TableFile) :
    exec (writeUpTo path bytes n : Op L ((σ × Nat) × List TableFile) (Stop ε) Unit) held st =
      .finished (.ok ()) held (st.1, (TableFile.cut path (bytes.take n)).put st.2) := by
  induction n with
  | zero => rfl
  | succ n ih =>
    have hput := TableFile.put_put (f := .cut path (bytes.take n))
      (g := .cut path (bytes.take (n + 1))) rfl st.2
    rw [writeUpTo, exec_bind_ok ih, exec_onFiles, hput]

/-- A table that is written without an error is left complete. -/
theorem exec_writeTableFile {p : Platform} {env : Env} {path : String} {ticks : List Tick}
    {level : Nat} {dict : SymbolDictionary} {file : Bytes} {sst : SsTable} {time : Nat}
    (hio : env.io time = true) (hwrite : SsTable.write p path ticks level dict = some (file, sst))
    (left : Option Nat) (wrap : SsTableError → ε) (held : Held L) (s : σ) (files : List TableFile) :
    exec (writeTableFile p env left wrap path ticks level dict :
        Op L ((σ × Nat) × List TableFile) (Stop ε) Table) held ((s, time), files) =
      .finished (.ok ⟨sst, ticks⟩) held
        ((s, time + 1), (TableFile.complete ⟨sst, ticks⟩).put files) := by
  have houtcome : exec (fileOutcome env : Op L ((σ × Nat) × List TableFile) (Stop ε) Bool) held
      ((s, time), files) = .finished (.ok true) held ((s, time + 1), files) := by
    rw [← hio]
    rfl
  have hput := TableFile.put_put (f := .cut path (file.take (file.length - 1)))
    (g := .complete ⟨sst, ticks⟩) (SsTable.path_of_write hwrite).symm files
  rw [writeTableFile, exec_bind_ok houtcome, hwrite]
  dsimp only
  rw [exec_bind_ok (exec_writeUpTo_put _ _ _ _ _), exec_bind_ok (exec_onFiles _ _ _)]
  dsimp only
  rw [hput]
  rfl

end Writing

namespace LsmTree

variable {p : Platform} {env : Env} {s : LsmTree} {time : Nat} {t : Table}

theorem files_flushFiles_empty (left : Option Nat) (hchain : s.memtable.chain = [])
    (files : List TableFile) :
    (exec (flushFiles p env left) [] ((s, time), files)).state.2 = files := by
  have hdrain : exec (beside (withGuard .memtable .write (attempt drainMemtable)) :
      Op Lock OnDisk (Stop LsmError) (List Tick)) [] ((s, time), files) =
        .finished (.ok s.memtable.chain) [] ((s.drained, time), files) := rfl
  rw [flushFiles, exec_bind_ok hdrain, if_pos hchain]
  rfl

theorem files_flushFiles (left : Option Nat) (hlevels : s.compaction.levels ≠ [])
    (hchain : s.memtable.chain ≠ []) (ht : s.flushTable p env time = some t)
    (files : List TableFile) :
    (exec (flushFiles p env left) [] ((s, time), files)).state.2 =
      (TableFile.complete t).put files := by
  have hwritten := ht
  rw [flushTable] at hwritten
  split_ifs at hwritten with hio
  obtain ⟨⟨file, sst⟩, hwrite, rfl⟩ := Option.map_eq_some_iff.mp hwritten
  have hdrain := exec_withGuard_attempt (by decide : ¬ Conflicts [] Lock.memtable .write)
    (drainMemtable_eq s time)
  have hnow : now env (s.drained, time) =
      ((.ok (env.now time), (s.drained, time + 1)) : Except (Stop LsmError) Nat × _) := rfl
  have hdict : exec (withGuard .symbolDict .read (gets fun st => st.1.symbolDict) :
      LsmOp SymbolDictionary) [] (s.drained, time + 1) =
        .finished (.ok s.symbolDict) [] (s.drained, time + 1) := exec_withGuard_gets (by decide) _ _
  have hadd := exec_withGuard_attempt (by decide : ¬ Conflicts [] Lock.compaction .write)
    (addToLevel0_eq (s := s.drained) hlevels ⟨sst, s.memtable.chain⟩ (time + 2))
  have hbeside {α : Type} {x : LsmOp α} {st st' : LsmTree × Nat} {r : Except (Stop LsmError) α}
      (h : exec x [] st = .finished r [] st') (files : List TableFile) :
      exec (beside x : Op Lock OnDisk (Stop LsmError) α) [] (st, files) =
        .finished r [] (st', files) := by
    rw [exec_beside, h]
    rfl
  rw [flushFiles, exec_bind_ok (hbeside hdrain files), if_neg hchain,
    exec_bind_ok (hbeside (exec_attempt_of_eq hnow _) files), exec_bind_ok (hbeside hdict files),
    exec_bind_ok (exec_writeTableFile hio hwrite left _ _ _ files),
    exec_bind_ok (hbeside hadd _),
    hbeside (exec_withGuard_attempt (by decide) (truncateWal_eq env _ _)) _]
  rfl

end LsmTree

/-- The directory beside the tree, and the dictionary of the session that had the most
symbols: none of the later ones reads it back. -/
structure Sessions extends NamedHistory where
  files : List TableFile
  ids : SymbolDictionary

namespace Sessions
open LsmTree

/-- A call, a restart behind it, or a restart after a crash at some point of a flush. -/
inductive Event where
  | call (call : StoreCall)
  | restart (listing : List TableFile)
  | crash (point : Nat) (listing : List TableFile)

def start (flushThreshold : Nat) (role : NodeRole) : Sessions :=
  ⟨NamedHistory.start flushThreshold role, [], .new⟩

def disk (n : Sessions) : OnDisk := ((n.tree, n.time), n.files)

/-- Where a flush that begins now may stop. -/
def stops (p : Platform) (env : Env) (left : Nat → Option Nat) (n : Sessions) : List OnDisk :=
  stages (flushFiles p env (left n.time)) [] n.disk

/-- The next process, if the directory opens. -/
def reopened (p : Platform) (c : Codec) (n : Sessions) (st : OnDisk) (listing : List TableFile) :
    Sessions :=
  match openFiles p c n.tree.flushThreshold n.tree.role st.1.1.wal.file listing
    st.1.1.lastPrimarySequence with
  | .ok tree => { n with tree, time := st.1.2, files := st.2 }
  | .error _ => n

def step (p : Platform) (c : Codec) (env : Env) (left : Nat → Option Nat) (n : Sessions) :
    Event → Sessions
  | .call call =>
    let named := NamedHistory.step p c env n.toNamedHistory call
    { toNamedHistory := named
      files := (History.diskStep p c env left (n.toHistory, n.files) call).2
      ids := if n.ids.idToSymbol <+: named.tree.symbolDict.idToSymbol then named.tree.symbolDict
        else n.ids }
  | .restart listing => n.reopened p c n.disk listing
  | .crash point listing => ((n.stops p env left)[point]?.map (n.reopened p c · listing)).getD n

/-- The flushed table gets a new name, and none of its rows is outside its ends. -/
def FlushesWhole (env : Env) (n : Sessions) : Prop :=
  tableName 0 (env.now n.time) ∉ n.files.map TableFile.path ∧
    ∀ x ∈ n.tree.memtable.chain, SsTable.WithinEnds n.tree.memtable.chain x.timestamp

instance (env : Env) (n : Sessions) : Decidable (n.FlushesWhole env) :=
  inferInstanceAs (Decidable (_ ∧ _))

/-- The directory has complete files only, and those with an answer for a key are listed in
the order in which they were written. -/
def Listed (n : Sessions) (files listing : List TableFile) : Prop :=
  listing.Perm files ∧ (∀ f ∈ files, f.isComplete = true) ∧ ∀ x ∈ n.inserted,
    listing.reverse.findSome? (TableFile.probe x.key) =
      files.reverse.findSome? (TableFile.probe x.key)

instance (n : Sessions) (files listing : List TableFile) : Decidable (n.Listed files listing) :=
  inferInstanceAs (Decidable (_ ∧ _ ∧ _))

/-- The symbols have the ids that they had in other sessions. -/
def SameIds (n : Sessions) (dict : SymbolDictionary) : Prop :=
  (dict.idToSymbol <+: n.ids.idToSymbol ∨ n.ids.idToSymbol <+: dict.idToSymbol) ∧
    dict.len ≤ 65536

instance (n : Sessions) (dict : SymbolDictionary) : Decidable (n.SameIds dict) :=
  inferInstanceAs (Decidable ((_ ∨ _) ∧ _))

/-- Inserts are clean, log whole records and give no symbol another id; a flush writes its
table whole; and the next process lists the tables in their order. -/
def KeepsRows (p : Platform) (c : Codec) (env : Env) (left : Nat → Option Nat) (n : Sessions) :
    Event → Prop
  | .call (.insertion call) => call.clean c env n.tree n.time = true ∧
      (Primary.mk n.tree n.time []).Logs p c env (.insertion call) ∧
      n.SameIds (History.step p c env n.toHistory (.insertion call)).tree.symbolDict
  | .call .flushMemtable => n.tree.memtable.chain = [] ∨
      (n.tree.flushTable p env n.time).isSome = true ∧ n.FlushesWhole env
  | .restart listing => n.Listed n.files listing
  | .crash point listing => (n.tree.memtable.chain = [] ∨ n.FlushesWhole env) ∧
      ∀ st ∈ (n.stops p env left)[point]?, n.Listed st.2 listing

instance (p : Platform) (c : Codec) (env : Env) (left : Nat → Option Nat) (n : Sessions)
    (e : Event) : Decidable (n.KeepsRows p c env left e) :=
  match e with
  | .call (.insertion _) => inferInstanceAs (Decidable (_ ∧ _ ∧ _))
  | .call .flushMemtable => inferInstanceAs (Decidable (_ ∨ _ ∧ _))
  | .restart _ => inferInstanceAs (Decidable (Listed _ _ _))
  | .crash _ _ => inferInstanceAs (Decidable ((_ ∨ _) ∧ ∀ _ ∈ _, _))

/-- A symbol that this session has not interned is refused. Any other lookup gets the last
row of its symbol, from whatever session. -/
def Remembers (n : Sessions) : Prop :=
  ∀ symbol, match n.tree.symbolDict.getId symbol with
  | none => ∀ t, exec (get .calm symbol t) [] (n.tree, n.time) =
      .finished (.error (.error (.symbolNotFound symbol))) [] (n.tree, n.time)
  | some id => ∀ t, ∃ time, exec (get .calm symbol t) [] (n.tree, n.time) = .finished
      (.ok ((rowAt n.rows symbol t).map fun tick => tick.withSymbol id)) [] (n.tree, time)

/-- A memtable and the files behind it have the last tick of every key. -/
def Covered (h : History) (files : List TableFile) (m : SkipList) : Prop :=
  ∀ key, (m.get key).or (files.reverse.findSome? (TableFile.probe key)) = h.last key

/-- What a directory keeps of a history. -/
structure Keeps (c : Codec) (h : History) (st : OnDisk) : Prop where
  level : InLevel0 st.2
  askable : ∀ t, .complete t ∈ st.2 → t.Askable
  log : ∃ first records, st.1.1.wal.file = Wal.logBytes c first records ∧
    first + records.length < 2 ^ 64 ∧ (∀ r ∈ records, c.Inverts r) ∧
      Covered h st.2 (recoverFromWal records)

/-- The rows of the history under the ids of their symbols. -/
def underIds (n : Sessions) : NamedHistory :=
  { n.toNamedHistory with tree := n.tree.withDict n.ids }

/-- The tree and the directory have the last ticks, and the log backs the memtable. -/
structure Inv (c : Codec) (n : Sessions) : Prop where
  levels : n.tree.compaction.levels ≠ []
  askable : n.tree.Askable
  level : InLevel0 n.files
  askableFiles : ∀ t, .complete t ∈ n.files → t.Askable
  found : ∀ key, n.tree.find key = n.last key
  covered : Covered n.toHistory n.files n.tree.memtable
  log : ∃ first records, LogCovers c n.tree first records ∧
    Covered n.toHistory n.files (recoverFromWal records)
  named : NamedHistory.Named n.underIds
  known : n.tree.symbolDict.idToSymbol <+: n.ids.idToSymbol

theorem inv_start (c : Codec) (flushThreshold : Nat) (role : NodeRole) :
    Inv c (start flushThreshold role) where
  levels := List.cons_ne_nil _ _
  askable := List.forall_mem_nil _
  level := nofun
  askableFiles := nofun
  found := fun _ => rfl
  covered := fun _ => rfl
  log := ⟨0, [], logCovers_fresh c flushThreshold role, fun _ => rfl⟩
  named := NamedHistory.named_start flushThreshold role
  known := List.prefix_rfl

variable {p : Platform} {c : Codec} {env : Env} {left : Nat → Option Nat} {n : Sessions}

theorem remembers_of_inv (h : Inv c n) : Remembers n := by
  intro symbol
  cases hid : n.tree.symbolDict.getId symbol with
  | none => exact fun t => exec_get_unknown hid t n.time
  | some id =>
    intro t
    have hio (n : Nat) : Env.calm.io n = true := rfl
    obtain ⟨time, hexec⟩ := exec_get hio h.askable hid t n.time
    have hlast := h.named.last_eq (SymbolDictionary.getId_of_grown h.known hid) t
    rw [h.found, show n.last ⟨id, t⟩ = _ from hlast] at hexec
    exact ⟨time, hexec⟩

theorem keeps_disk (h : Inv c n) : Keeps c n.toHistory n.disk := by
  obtain ⟨first, records, hlog, hcovered⟩ := h.log
  exact ⟨h.level, h.askableFiles, first, records, hlog.file, hlog.bounded, hlog.inverts, hcovered⟩

/-- What the directory keeps is there in the next process. -/
theorem inv_reopened (p : Platform) (h : Inv c n) {st : OnDisk} (hkeeps : Keeps c n.toHistory st)
    {listing : List TableFile} (hlisted : n.Listed st.2 listing) :
    Inv c (n.reopened p c st listing) := by
  obtain ⟨first, records, hfile, hbound, hinverts, hcovered⟩ := hkeeps.log
  obtain ⟨wal, first', hwal, hreplayed, hfile', hsequence, hbound'⟩ :=
    open_logBytes c hinverts hbound
  obtain ⟨hperm, hcomplete, horder⟩ := hlisted
  obtain ⟨tree, hopen, rfl, hmemtable, hdict, hlevels, hmem, hprobe⟩ := openFiles_listed hwal p
    (fun f hf => hcomplete f (hperm.mem_iff.mp hf))
    (fun t ht => hkeeps.level t (hperm.mem_iff.mp ht)) n.tree.flushThreshold n.tree.role
    st.1.1.lastPrimarySequence
  rw [hreplayed] at hmemtable
  rw [reopened, hfile, hopen]
  dsimp only
  refine ⟨hlevels, fun t ht => ?_, hkeeps.level, hkeeps.askable, fun key => ?_, ?_, ?_,
    ⟨h.named.names, h.named.ids, h.named.plain, h.named.room⟩, ?_⟩
  · obtain ⟨t₀, ht₀, rfl⟩ := (hmem t).mp ht
    exact hkeeps.askable t₀ (hperm.mem_iff.mp ht₀)
  · rw [find, hprobe, hmemtable]
    change _ = n.last key
    rw [← hcovered key]
    cases hget : (recoverFromWal records).get key with
    | some x => rfl
    | none =>
      have hkey := hcovered key
      rw [hget, Option.none_or] at hkey
      rw [Option.none_or, Option.none_or]
      cases hlast : n.last key with
      | some x =>
        obtain ⟨hx, rfl⟩ := firstAt_eq_some Tick.key hlast
        exact horder x (List.mem_reverse.mp hx)
      | none =>
        rw [hlast] at hkey
        rw [hkey, List.findSome?_eq_none_iff]
        intro f hf
        exact List.findSome?_eq_none_iff.mp hkey f
          (List.mem_reverse.mpr (hperm.mem_iff.mp (List.mem_reverse.mp hf)))
  · change Covered n.toHistory st.2 tree.memtable
    rw [hmemtable]
    exact hcovered
  · refine ⟨first', records, ⟨hfile', hsequence, hbound', hinverts, fun x hx => ?_⟩, hcovered⟩
    rwa [← hmemtable]
  · rw [hdict]
    exact List.nil_prefix

theorem Covered.put {h : History} {files : List TableFile} {m : SkipList} (hm : Covered h files m)
    {f : TableFile} (hnew : f.path ∉ files.map TableFile.path)
    (hprobe : ∀ key, m.get key = none → f.probe key = none) : Covered h (f.put files) m := by
  intro key
  rw [TableFile.findSome?_put hnew, ← hm key]
  cases hget : m.get key with
  | some x => rfl
  | none => rw [hprobe key hget, Option.none_or]

/-- The rows of the memtable go to a file. -/
theorem Covered.drained {h : History} {files : List TableFile} {m : SkipList} (hm : Covered h files m)
    {t : Table} (hnew : TableFile.path (.complete t) ∉ files.map TableFile.path)
    (hprobe : ∀ key, t.probe key = m.get key) :
    Covered h ((TableFile.complete t).put files) .new := by
  intro key
  rw [TableFile.findSome?_put hnew, ← hm key, TableFile.probe, hprobe]
  rfl

/-- The log still has the rows that have gone to a file. -/
theorem Covered.logged {h : History} {files : List TableFile} {s : LsmTree} {first : Nat}
    {records : List WalRecord} (hm : Covered h files (recoverFromWal records))
    (hlog : LogCovers c s first records) {t : Table}
    (hnew : TableFile.path (.complete t) ∉ files.map TableFile.path)
    (hprobe : ∀ key, t.probe key = s.memtable.get key) :
    Covered h ((TableFile.complete t).put files) (recoverFromWal records) :=
  hm.put hnew fun key hnone => (hprobe key).trans (hlog.get_eq_none hnone)

/-- The log that was to be cut off is whole or empty; the files are enough for both. -/
theorem log_truncated {h : History} {files : List TableFile} {s : LsmTree} {first : Nat}
    {records : List WalRecord} (hlog : LogCovers c s first records) (env : Env) (t : Table) (time : Nat)
    (hwhole : Covered h files (recoverFromWal records)) (hempty : Covered h files .new) :
    ∃ first records, LogCovers c ((s.drained.register t).withWal (s.truncated env time).2) first records ∧
      Covered h files (recoverFromWal records) := by
  rcases Primary.truncated_cases s env time with hwal | ⟨hfile, hsequence⟩
  · refine ⟨first, records, ⟨?_, ?_, hlog.bounded, hlog.inverts, List.forall_mem_nil _⟩, hwhole⟩
    · exact (congrArg Wal.file hwal).trans hlog.file
    · exact (congrArg Wal.sequence hwal).trans hlog.sequence
  · refine ⟨s.wal.sequence, [], ⟨hfile, hsequence, ?_, List.forall_mem_nil _, List.forall_mem_nil _⟩,
      hempty⟩
    rw [hlog.sequence]
    exact hlog.bounded

theorem askable_put {files : List TableFile} {t : Table}
    (hfiles : ∀ t', .complete t' ∈ files → t'.Askable) (ht : t.Askable) :
    ∀ t', .complete t' ∈ (TableFile.complete t).put files → t'.Askable := by
  intro t' hmem
  rcases TableFile.mem_put.mp hmem with ⟨hold, -⟩ | hsame
  · exact hfiles t' hold
  · cases hsame
    exact ht

theorem probe_written {path : String} {level : Nat} {dict : SymbolDictionary} {t : Table}
    {file : Bytes} (hwrite : SsTable.write p path t.rows level dict = some (file, t.sst)) {m : SkipList}
    (hrows : t.rows = m.chain) (hends : ∀ x ∈ m.chain, SsTable.WithinEnds m.chain x.timestamp)
    (key : Key) : t.probe key = m.get key := by
  rw [← hrows] at hends
  rw [(Table.reveals_of_write hwrite hends).probe, hrows, SkipList.get_eq_firstAt]

/-- What holds at each point of a flush. -/
structure Flushing (c : Codec) (n : Sessions) (st : OnDisk) : Prop extends
    Keeps c n.toHistory st where
  written : ∀ t, .complete t ∈ st.2 →
    .complete t ∈ n.files ∨ ∀ key, t.probe key = n.tree.memtable.get key

/-- A flush keeps the rows at all times: the file is there before the log is cut off. -/
theorem through_flush (h : Inv c n) (p : Platform) (env : Env) (left : Option Nat)
    (hwhole : n.tree.memtable.chain = [] ∨ n.FlushesWhole env) :
    ThroughOp (Flushing c n) (fun _ _ => True) (flushFiles p env left) n.disk := by
  obtain ⟨first, records, hlog, hcovered⟩ := h.log
  have hlogged {files : List TableFile} (hlevel : InLevel0 files)
      (haskable : ∀ t, .complete t ∈ files → t.Askable)
      (hwritten : ∀ t, .complete t ∈ files →
        .complete t ∈ n.files ∨ ∀ key, t.probe key = n.tree.memtable.get key)
      (hfiles : Covered n.toHistory files (recoverFromWal records)) (s : LsmTree) (time : Nat)
      (hwal : s.wal = n.tree.wal) : Flushing c n ((s, time), files) :=
    ⟨⟨hlevel, haskable, first, records, by rw [hwal]; exact hlog.file, hlog.bounded, hlog.inverts,
      hfiles⟩, hwritten⟩
  have hsame := hlogged h.level h.askableFiles (fun _ => Or.inl) hcovered
  have hdrained (time : Nat) := hsame n.tree.drained time rfl
  refine through_bind (through_beside (through_withGuard (hsame _ _ rfl)
    (through_attempt (hsame _ _ rfl) (hdrained _) ?_)))
  rw [drainMemtable_eq]
  dsimp only
  split_ifs with hchain
  · exact through_pure (hdrained _) trivial
  obtain ⟨hnew, hends⟩ := hwhole.resolve_left hchain
  have hcut (time : Nat) (bytes : Bytes) : Flushing c n ((n.tree.drained, time),
      (TableFile.cut (tableName 0 (env.now n.time)) bytes).put n.files) := by
    have hold {t : Table} (ht : .complete t ∈
        (TableFile.cut (tableName 0 (env.now n.time)) bytes).put n.files) :
        .complete t ∈ n.files := by
      rcases TableFile.mem_put.mp ht with ⟨ht, -⟩ | hcut
      · exact ht
      · cases hcut
    exact hlogged (inLevel0_cut h.level _ bytes) (fun t ht => h.askableFiles t (hold ht))
      (fun t ht => Or.inl (hold ht)) (hcovered.put hnew fun _ _ => rfl) _ time rfl
  have hput (t : Table) (file : Bytes) (hrows : t.rows = n.tree.memtable.chain)
      (hwrite : SsTable.write p (tableName 0 (env.now n.time)) n.tree.memtable.chain 0
        n.tree.symbolDict = some (file, t.sst)) (time : Nat) :
      Flushing c n ((n.tree.drained, time), (TableFile.complete t).put n.files) := by
    rw [← hrows] at hwrite
    have hprobe := probe_written hwrite hrows hends
    refine hlogged (inLevel0_complete h.level (level_of_write hwrite))
      (askable_put h.askableFiles (SsTable.numBits_of_write hwrite)) (fun t' ht' => ?_) ?_ _ time rfl
    · rcases TableFile.mem_put.mp ht' with ⟨ht', -⟩ | hsame
      · exact Or.inl ht'
      · cases hsame
        exact Or.inr hprobe
    · exact hcovered.logged hlog (by rwa [TableFile.path, SsTable.path_of_write hwrite]) hprobe
  refine through_bind (through_beside (through_attempt (hdrained _) (hdrained _) ?_))
  refine through_bind (through_beside (through_withGuard (hdrained _)
    (through_gets (hdrained _) ?_)))
  refine through_bind (Through.mono ?_ (through_writeTableFile p env left LsmError.ssTable 0
    n.tree.symbolDict (hdrained _) (hdrained _) (fun bytes => hcut _ bytes)
    fun t file hrows hwrite => hput t file hrows hwrite _))
  rintro r st hst (⟨e, rfl⟩ | ⟨t, rfl, hrows, hpath, rfl⟩)
  · trivial
  have hmoved (s : LsmTree) (time : Nat) (hwal : s.wal = n.tree.wal) :
      Flushing c n ((s, time), (TableFile.complete t).put n.files) := by
    obtain ⟨⟨hlevel, haskable, hlog'⟩, hwritten⟩ := hst
    exact ⟨⟨hlevel, haskable, by rw [hwal]; exact hlog'⟩, hwritten⟩
  have hadd := addToLevel0_eq (s := n.tree.drained) h.levels t (n.time + 1 + 1)
  refine through_bind (through_beside (through_withGuard hst (through_attempt hst ?_ ?_)))
  · rw [hadd]
    exact hmoved _ _ rfl
  rw [hadd]
  have hadded := hmoved (n.tree.drained.register t) (n.time + 1 + 1) rfl
  refine through_beside (through_withGuard hadded (through_attempt hadded ?_ trivial))
  rw [truncateWal_eq]
  rcases Primary.truncated_cases (n.tree.drained.register t) env (n.time + 1 + 1) with
    hwal | ⟨hfile, -⟩
  · exact hmoved _ _ hwal
  · refine ⟨⟨hst.level, hst.askable, 0, [], hfile, Nat.two_pow_pos 64, nofun, ?_⟩, hst.written⟩
    refine h.covered.drained ?_ ?_
    · rwa [TableFile.path, hpath]
    · refine (hst.written t (TableFile.mem_put.mpr (Or.inr rfl))).resolve_left fun hold => ?_
      exact hnew (hpath ▸ List.mem_map_of_mem (f := TableFile.path) hold)

theorem keeps_stops (h : Inv c n) (p : Platform) (env : Env) (left : Nat → Option Nat)
    (hwhole : n.tree.memtable.chain = [] ∨ n.FlushesWhole env) :
    ∀ st ∈ n.stops p env left, Keeps c n.toHistory st := fun st hst =>
  (Through.mem_stages (through_flush h p env (left n.time) hwhole) [] st hst).toKeeps

/-- What a clean insert that logs whole records does. -/
theorem insertion_spec {h : History} {call : InsertCall}
    (hclean : call.clean c env h.tree h.time = true)
    (hlogs : (Primary.mk h.tree h.time []).Logs p c env (.insertion call)) :
    ∃ dict rows wal time, History.step p c env h (.insertion call) =
        ⟨((h.tree.withDict dict).take rows).withWal wal, time, h.inserted ++ rows⟩ ∧
      ∀ first records, LogCovers c h.tree first records →
        LogCovers c (((h.tree.withDict dict).take rows).withWal wal) first
          (records ++ rows.map .insert) := by
  obtain ⟨r, dict, rows, wal, time, hexec, -, -, hrows⟩ := InsertCall.settles p hclean
  refine ⟨dict, rows, wal, time, ?_, fun first records hlog => ?_⟩
  · rw [History.step, hexec]
    rcases hrows with ⟨rfl, rfl⟩ | ⟨⟨e, rfl⟩, rfl⟩
    · rfl
    · exact congrArg (History.mk _ _) (List.append_nil _).symm
  have hends := call.ends p c env h.tree h.time
  rw [Primary.Logs] at hlogs
  dsimp only at hlogs
  rw [hexec] at hends hlogs
  rcases hrows with ⟨rfl, rfl⟩ | ⟨⟨e, rfl⟩, rfl⟩
  · generalize houtcome : (Outcome.finished (Except.ok ()) []
      (((h.tree.withDict dict).take (call.rows h.tree.symbolDict)).withWal wal, time) :
        Outcome Lock (LsmTree × Nat) (Except (Stop LsmError) Unit)) = outcome at hends
    cases hends with
    | empty _ hempty =>
      obtain ⟨-, -, hstate⟩ := Outcome.finished.inj houtcome
      rw [(Prod.mk.inj hstate).1, InsertCall.rows_of_isEmpty hempty, List.map_nil, List.append_nil]
      exact hlog
    | failed _ e st => cases houtcome
    | blocked _ _ st => cases houtcome
    | @stored ticks dict' hstores _ =>
      obtain ⟨-, -, hstate⟩ := Outcome.finished.inj houtcome
      have hticks : call.rows h.tree.symbolDict = ticks := by
        rw [InsertCall.rows, hstores.stored]
        rfl
      rw [(Prod.mk.inj hstate).1, hticks]
      rw [hticks] at hlogs
      exact hlog.store hstores hlogs
  · have hwal : wal = h.tree.wal := hlogs
    subst hwal
    rw [List.map_nil, List.append_nil]
    exact ⟨hlog.file, hlog.sequence, hlog.bounded, hlog.inverts, hlog.memtable⟩

theorem Covered.insertAll {h h' : History} {files : List TableFile} {m : SkipList}
    (hm : Covered h files m) {rows : List Tick} (hinserted : h'.inserted = h.inserted ++ rows) :
    Covered h' files (m.insertAll rows) := by
  intro key
  rw [SkipList.get_insertAll, Option.or_assoc, hm key, History.last, History.last, hinserted,
    List.reverse_append, firstAt_append]

/-- The ids of the longest session go on, or the session repeats them. -/
theorem known_step (hids : n.SameIds (step p c env left n (.call call)).tree.symbolDict) :
    n.ids.idToSymbol <+: (step p c env left n (.call call)).ids.idToSymbol ∧
      (step p c env left n (.call call)).tree.symbolDict.idToSymbol <+:
        (step p c env left n (.call call)).ids.idToSymbol := by
  rw [step]
  dsimp only
  split_ifs with hlonger
  · exact ⟨hlonger, List.prefix_rfl⟩
  · exact ⟨List.prefix_rfl, hids.1.resolve_right hlonger⟩

theorem named_step {call : StoreCall} (h : Inv c n) (hroom : n.ids.len ≤ 65536)
    (hids : n.SameIds (step p c env left n (.call call)).tree.symbolDict) :
    NamedHistory.Named (step p c env left n (.call call)).underIds := by
  obtain ⟨rows, hrowIds, hplain, hinserted, hrows⟩ :=
    NamedHistory.rows_step p c env n.toNamedHistory call
  obtain ⟨hgrown, hknown⟩ := known_step hids
  refine h.named.grow hgrown hknown hrowIds hplain hinserted hrows ?_
  change (step p c env left n (.call call)).ids.len ≤ 65536
  rw [step]
  dsimp only
  split_ifs
  · exact hids.2
  · exact hroom

theorem inv_insertion (h : Inv c n) {call : InsertCall}
    (hkeeps : n.KeepsRows p c env left (.call (.insertion call))) :
    Inv c (step p c env left n (.call (.insertion call))) := by
  obtain ⟨hclean, hlogs, hsame⟩ := hkeeps
  have hids : n.SameIds (step p c env left n (.call (.insertion call))).tree.symbolDict := hsame
  obtain ⟨-, hknown⟩ := known_step hids
  have hnamed := named_step h h.named.room hids
  obtain ⟨dict, rows, wal, time, hstep, hlogged⟩ := insertion_spec hclean hlogs
  obtain ⟨first, records, hlog, hcovered⟩ := h.log
  have hhistory : (step p c env left n (.call (.insertion call))).toHistory =
      ⟨((n.tree.withDict dict).take rows).withWal wal, time, n.inserted ++ rows⟩ := hstep
  have htree := congrArg History.tree hhistory
  have hinserted := congrArg History.inserted hhistory
  refine ⟨?_, ?_, h.level, h.askableFiles, fun key => ?_, ?_, ?_, hnamed, hknown⟩
  · rw [htree]
    exact h.levels
  · rw [htree]
    exact h.askable
  · have hfound := h.found key
    rw [find] at hfound
    rw [hhistory, find]
    change ((n.tree.memtable.insertAll rows).get key).or (probeAll n.tree.newestFirst key) = _
    rw [SkipList.get_insertAll, Option.or_assoc, hfound, History.last_append]
  · rw [htree]
    exact h.covered.insertAll hinserted
  · refine ⟨first, records ++ rows.map .insert, ?_, ?_⟩
    · rw [htree]
      exact hlogged first records hlog
    · rw [recoverFromWal_append]
      exact hcovered.insertAll hinserted

theorem inv_flush (h : Inv c n) (hkeeps : n.KeepsRows p c env left (.call .flushMemtable)) :
    Inv c (step p c env left n (.call .flushMemtable)) := by
  have hends := flush_ends p env h.levels n.time
  have hdict : (NamedHistory.step p c env n.toNamedHistory .flushMemtable).tree.symbolDict =
      n.tree.symbolDict := NamedHistory.symbolDict_flush p c env h.levels
  have hids : n.SameIds (step p c env left n (.call .flushMemtable)).tree.symbolDict := by
    change n.SameIds (NamedHistory.step p c env n.toNamedHistory .flushMemtable).tree.symbolDict
    rw [hdict]
    exact ⟨Or.inl h.known, h.known.length_le.trans h.named.room⟩
  obtain ⟨-, hknown⟩ := known_step hids
  have hnamed := named_step h h.named.room hids
  have hhistory : (step p c env left n (.call .flushMemtable)).toHistory =
      ⟨(exec (LsmTree.flushMemtable p env) [] (n.tree, n.time)).state.1,
        (exec (LsmTree.flushMemtable p env) [] (n.tree, n.time)).state.2, n.inserted⟩ := rfl
  have hfiles : (step p c env left n (.call .flushMemtable)).files =
      (exec (flushFiles p env (left n.time)) [] ((n.tree, n.time), n.files)).state.2 := rfl
  generalize step p c env left n (.call .flushMemtable) = n' at *
  generalize exec (LsmTree.flushMemtable p env) [] (n.tree, n.time) = outcome at hends hhistory
  obtain ⟨first, records, hlog, hcovered⟩ := h.log
  have htree := congrArg History.tree hhistory
  have hinserted := congrArg History.inserted hhistory
  have hlast (key : Key) : n'.last key = n.last key := by rw [History.last, hinserted]; rfl
  have hmove {files : List TableFile} {m : SkipList} (hm : Covered n.toHistory files m) :
      Covered n'.toHistory files m := fun key => (hm key).trans (hlast key).symm
  cases hends with
  | nothing hchain =>
    rw [files_flushFiles_empty _ hchain] at hfiles
    refine ⟨?_, ?_, ?_, ?_, fun key => ?_, ?_, ⟨first, records, ?_, ?_⟩, hnamed, hknown⟩
    · rw [htree]
      exact h.levels
    · rw [htree]
      exact h.askable
    · rw [hfiles]
      exact h.level
    · rw [hfiles]
      exact h.askableFiles
    · rw [hlast, ← h.found, htree]
      rfl
    · rw [hfiles, htree]
      exact hmove h.covered
    · rw [htree]
      exact hlog
    · rw [hfiles]
      exact hmove hcovered
  | unwritten hchain hnone e =>
    obtain ⟨hsome, -⟩ := hkeeps.resolve_left hchain
    rw [hnone] at hsome
    cases hsome
  | @written t hchain ht r =>
    obtain ⟨-, hnew, hwithin⟩ := hkeeps.resolve_left hchain
    have hrows := rows_flushTable ht
    obtain ⟨file, hwrite⟩ := write_of_flushTable ht
    rw [← hrows] at hwrite
    have hprobe := probe_written hwrite hrows hwithin
    have hpath : TableFile.path (.complete t) ∉ n.files.map TableFile.path := by
      rwa [TableFile.path, SsTable.path_of_write hwrite]
    have hdrained := hmove (h.covered.drained hpath hprobe)
    rw [files_flushFiles _ h.levels hchain ht] at hfiles
    refine ⟨?_, ?_, ?_, ?_, fun key => ?_, ?_, ?_, hnamed, hknown⟩
    · rw [htree]
      exact levels_register_ne_nil (s := n.tree.drained) h.levels t
    · rw [htree]
      intro x hx
      rcases (mem_storageOrder_register (s := n.tree.drained) h.levels).mp hx with hx | rfl
      · exact h.askable x hx
      · exact askable_flushTable ht
    · rw [hfiles]
      exact inLevel0_complete h.level (level_of_write hwrite)
    · rw [hfiles]
      exact askable_put h.askableFiles (askable_flushTable ht)
    · rw [hlast, ← h.found, htree, find, find]
      change (SkipList.new.get key).or (probeAll (n.tree.drained.register t).newestFirst key) = _
      rw [newestFirst_register (s := n.tree.drained) h.levels, probeAll, List.findSome?_cons, hprobe]
      cases n.tree.memtable.get key <;> rfl
    · rw [hfiles, htree]
      exact hdrained
    · rw [hfiles, htree]
      exact log_truncated hlog env t _ (hmove (hcovered.logged hlog hpath hprobe)) hdrained

theorem inv_step (p : Platform) (c : Codec) (env : Env) (left : Nat → Option Nat) (n : Sessions)
    (e : Event) (h : Inv c n) (hkeeps : n.KeepsRows p c env left e) :
    Inv c (step p c env left n e) := by
  cases e with
  | call call =>
    cases call with
    | insertion call => exact inv_insertion h hkeeps
    | flushMemtable => exact inv_flush h hkeeps
  | restart listing => exact inv_reopened p h (keeps_disk h) hkeeps
  | crash point listing =>
    obtain ⟨hwhole, hlisted⟩ := hkeeps
    rw [step]
    cases hstop : (n.stops p env left)[point]? with
    | none => exact h
    | some st =>
      have hst := keeps_stops h p env left hwhole st (List.mem_of_getElem? hstop)
      exact inv_reopened p h hst (hlisted st hstop)

/-- A row in a file, a newer version of it in the log. -/
def overwritten : Sessions :=
  run (step .simple History.versionsCodec .calm fun _ => none) (start 10 .primary)
    [.call (History.insertA 1), .call .flushMemtable, .call (History.insertA 2)]

end Sessions

end Graphite
