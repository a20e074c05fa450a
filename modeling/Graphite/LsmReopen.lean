import Mathlib.Data.Set.List
import Graphite.LsmCrash
import Graphite.LsmLookups

/-! Reopening the directory that inserts and flushes have left. All its tables are of level
0, and `open` registers them in the order of the listing, so that of two files with a row
for a key the one that is listed last answers for it. -/

namespace Graphite
open BigEndian KeyedRows LockProgram GuardedRuns

def TableFile.isComplete : TableFile → Bool
  | .complete _ => true
  | .cut _ _ => false

/-- What `get` reads in a file. -/
def TableFile.probe (key : Key) : TableFile → Option Tick
  | .complete t => t.probe key
  | .cut _ _ => none

namespace LsmTree

variable {p : Platform} {c : Codec} {env : Env} {left : Option Nat}

/-- The file is a table of level 0 if it is complete. -/
def InLevel0 (files : List TableFile) : Prop :=
  ∀ t, .complete t ∈ files → t.sst.tableMeta.level = 0

theorem inLevel0_cut {files : List TableFile} (h : InLevel0 files) (path : String)
    (bytes : Bytes) : InLevel0 ((TableFile.cut path bytes).put files) := by
  intro t ht
  rcases TableFile.mem_put.mp ht with ⟨ht, -⟩ | hcut
  · exact h t ht
  · cases hcut

theorem inLevel0_complete {files : List TableFile} (h : InLevel0 files) {t : Table}
    (ht : t.sst.tableMeta.level = 0) : InLevel0 ((TableFile.complete t).put files) := by
  intro x hx
  rcases TableFile.mem_put.mp hx with ⟨hx, -⟩ | hnew
  · exact h x hx
  · cases hnew
    exact ht

theorem level_of_write {path : String} {ticks : List Tick} {level : Nat} {dict : SymbolDictionary}
    {file : Bytes} {sst : SsTable} (h : SsTable.write p path ticks level dict = some (file, sst)) :
    sst.tableMeta.level = level := by
  obtain ⟨bloom, data, -, -, rfl, -⟩ := SsTable.write_eq_some h
  rfl

/-- A flush leaves files of level 0 only. -/
theorem inLevel0_flushFiles {s : LsmTree} {time : Nat} {files : List TableFile}
    (h : InLevel0 files) : ThroughOp (fun st : OnDisk => InLevel0 st.2) (fun _ _ => True)
      (flushFiles p env left) ((s, time), files) := by
  refine through_bind (Through.mono ?_ (through_beside_snd h _ _))
  rintro r ⟨⟨s₁, time₁⟩, files₁⟩ h₁ rfl
  cases r with
  | error e => trivial
  | ok ticks =>
    dsimp only
    split_ifs
    · exact through_pure h₁ trivial
    refine through_bind (Through.mono ?_ (through_beside_snd h₁ _ _))
    rintro r ⟨⟨s₂, time₂⟩, files₂⟩ h₂ rfl
    cases r with
    | error e => trivial
    | ok nanos =>
      refine through_bind (Through.mono ?_ (through_beside_snd h₂ _ _))
      rintro r ⟨⟨s₃, time₃⟩, files₃⟩ h₃ rfl
      cases r with
      | error e => trivial
      | ok dict =>
        refine through_bind (Through.mono ?_ (through_writeTableFile p env left LsmError.ssTable 0
          dict h₃ h₃ (fun bytes => inLevel0_cut h₃ _ bytes) fun t file _ hwrite =>
            inLevel0_complete h₃ (level_of_write hwrite)))
        rintro r ⟨⟨s₄, time₄⟩, files₄⟩ h₄ -
        cases r with
        | error e => trivial
        | ok t =>
          refine through_bind (Through.mono ?_ (through_beside_snd h₄ _ _))
          rintro r ⟨⟨s₅, time₅⟩, files₅⟩ h₅ rfl
          cases r with
          | error e => trivial
          | ok _ => exact Through.mono (fun _ _ _ _ => trivial) (through_beside_snd h₅ _ _)

theorem level0_loadSstable (tables loaded : List Table) {m : CompactionManager}
    (hm : m.levels = [⟨0, loaded⟩]) (htables : ∀ t ∈ tables, t.sst.tableMeta.level = 0) :
    (tables.foldl loadSstable m).levels = [⟨0, loaded ++ tables⟩] := by
  induction tables generalizing m loaded with
  | nil => rw [List.append_nil, List.foldl_nil, hm]
  | cons t tables ih =>
    obtain ⟨ht, hrest⟩ := List.forall_mem_cons.mp htables
    have hloaded : (loadSstable m t).levels = [⟨0, loaded ++ [t]⟩] := by
      rw [loadSstable, hm, ht]
      rfl
    rw [List.foldl_cons, ih (loaded ++ [t]) hloaded hrest, List.append_assoc, List.singleton_append]

theorem mapM_load_complete (tables : List Table) :
    (tables.map TableFile.complete).mapM (fun f => (f.load p).mapError
      (Stop.map LsmError.ssTable)) = .ok (tables.map Table.reopen) := by
  induction tables with
  | nil => rfl
  | cons t tables ih =>
    rw [List.map_cons, List.mapM_cons, ih]
    rfl

/-- A directory of complete files of level 0 and an empty log opens to a tree that looks
into the files from the one that is listed last. -/
theorem find_openFiles {files : List TableFile} (hfiles : ∀ f ∈ files, f.isComplete = true)
    (hlevel : InLevel0 files) (flushThreshold : Nat) (role : NodeRole) (last : Option Nat) :
    ∃ tree, openFiles p c flushThreshold role [] files last = .ok tree ∧
      ∀ key, tree.find key = files.reverse.findSome? (TableFile.probe key) := by
  obtain ⟨tables, rfl⟩ : files ∈ Set.range (List.map TableFile.complete) := by
    rw [Set.range_list_map]
    rintro f hf
    cases f with
    | complete t => exact ⟨t, rfl⟩
    | cut path bytes => exact absurd (hfiles _ hf) Bool.false_ne_true
  have hlevels : ((tables.map Table.reopen).foldl loadSstable
      (CompactionManager.new SymbolDictionary.new)).levels = [⟨0, tables.map Table.reopen⟩] := by
    refine level0_loadSstable _ [] rfl fun x hx => ?_
    obtain ⟨t, ht, rfl⟩ := List.mem_map.mp hx
    exact hlevel t (List.mem_map_of_mem ht)
  unfold openFiles
  rw [mapM_load_complete]
  refine ⟨_, rfl, fun key => ?_⟩
  rw [find, newestFirst, hlevels, List.flatMap_singleton, ← List.map_reverse, ← List.map_reverse,
    List.findSome?_map, probeAll, List.findSome?_map]
  rfl

end LsmTree

namespace History
open LsmTree

/-- A call with what it does to the table files; a write that fails at some time may leave
these many bytes. -/
def diskStep (p : Platform) (c : Codec) (env : Env) (left : Nat → Option Nat)
    (st : History × List TableFile) : StoreCall → History × List TableFile
  | .insertion call => (step p c env st.1 (.insertion call), st.2)
  | .flushMemtable =>
    let state := (exec (flushFiles p env (left st.1.time)) []
      ((st.1.tree, st.1.time), st.2)).state
    (⟨state.1.1, state.1.2, st.1.inserted⟩, state.2)

variable {p : Platform} {c : Codec} {env : Env} {left : Nat → Option Nat}

/-- The tree does not see the files. -/
theorem fst_diskStep (st : History × List TableFile) (call : StoreCall) :
    (diskStep p c env left st call).1 = step p c env st.1 call := by
  cases call with
  | insertion call => rfl
  | flushMemtable =>
    obtain ⟨files, h⟩ := refines_flushFiles p env (left st.1.time) [] (st.1.tree, st.1.time) st.2
    rw [diskStep, h, step]
    cases exec (LsmTree.flushMemtable p env) [] (st.1.tree, st.1.time) <;> rfl

theorem inLevel0_diskStep {st : History × List TableFile} (h : InLevel0 st.2) (call : StoreCall) :
    InLevel0 (diskStep p c env left st call).2 := by
  cases call with
  | insertion call => exact h
  | flushMemtable =>
    have hend := Prog.state_mem_stages (flushFiles p env (left st.1.time)).run []
      ((st.1.tree, st.1.time), st.2)
    exact Through.mem_stages (inLevel0_flushFiles h) [] _ hend

theorem inLevel0_run (p : Platform) (c : Codec) (env : Env) (left : Nat → Option Nat)
    {st : History × List TableFile} (h : InLevel0 st.2) (calls : List StoreCall) :
    InLevel0 (run (diskStep p c env left) st calls).2 := by
  induction calls generalizing st with
  | nil => exact h
  | cons call calls ih => exact ih (inLevel0_diskStep h call)

/-- In whatever order the directory is listed, it opens, and a lookup finds the last tick
that was inserted for the key. -/
def ReopensTo (p : Platform) (c : Codec) (flushThreshold : Nat) (role : NodeRole)
    (last : Option Nat) (key : Key) (st : History × List TableFile) : Prop :=
  ∀ files : List TableFile, files.Perm st.2 → ∃ tree,
    openFiles p c flushThreshold role st.1.tree.wal.file files last = .ok tree ∧
      tree.find key = st.1.last key

/-- Every file that has an answer for the key has the last tick, and some file has it. -/
def FilesAgree (key : Key) (st : History × List TableFile) : Prop :=
  (∀ f ∈ st.2, ∀ x ∈ f.probe key, st.1.last key = some x) ∧
    (st.1.last key ≠ none → ∃ f ∈ st.2, f.probe key ≠ none)

instance (key : Key) (st : History × List TableFile) : Decidable (FilesAgree key st) :=
  inferInstanceAs (Decidable ((∀ _ ∈ _, ∀ _ ∈ _, _) ∧ (_ → ∃ _ ∈ _, _)))

theorem reopensTo_iff {st : History × List TableFile} (hwal : st.1.tree.wal.file = [])
    (hfiles : ∀ f ∈ st.2, f.isComplete = true) (hlevel : InLevel0 st.2) (flushThreshold : Nat)
    (role : NodeRole) (last : Option Nat) (key : Key) :
    ReopensTo p c flushThreshold role last key st ↔ FilesAgree key st := by
  rw [FilesAgree]
  refine Iff.trans ?_ findSome?_every_order_iff
  refine forall₂_congr fun files hperm => ?_
  obtain ⟨tree, htree, hfind⟩ := find_openFiles (p := p) (c := c)
    (fun f hf => hfiles f (hperm.mem_iff.mp hf)) (fun t ht => hlevel t (hperm.mem_iff.mp ht))
    flushThreshold role last
  rw [hwal, htree, ← hfind]
  constructor
  · rintro ⟨tree', htree', hsame⟩
    cases htree'
    exact hsame
  · exact fun hsame => ⟨tree, rfl, hsame⟩

/-- Lookups in the reopened tree do not depend on the listing exactly for the keys whose
files agree. -/
theorem reopen_every_order_iff (p : Platform) (c : Codec) (env : Env) (left : Nat → Option Nat)
    (flushThreshold : Nat) (role : NodeRole) (calls : List StoreCall) (last : Option Nat) (key : Key)
    (hwal : (run (diskStep p c env left) (start flushThreshold role, []) calls).1.tree.wal.file = [])
    (hfiles : ∀ f ∈ (run (diskStep p c env left) (start flushThreshold role, []) calls).2,
      f.isComplete = true) :
    ReopensTo p c flushThreshold role last key
        (run (diskStep p c env left) (start flushThreshold role, []) calls) ↔
      FilesAgree key (run (diskStep p c env left) (start flushThreshold role, []) calls) := by
  have hstart : InLevel0 (start flushThreshold role, ([] : List TableFile)).2 := nofun
  exact reopensTo_iff hwal hfiles (inLevel0_run p c env left hstart calls) _ _ _ _

/-- The directory of one flush. -/
theorem reopen_every_order_one_file :
    ReopensTo .simple versionsCodec 10 .primary none ⟨0, 5⟩
        (run (diskStep .simple versionsCodec .calm fun _ => none) (start 10 .primary, [])
          [insertA 1, .flushMemtable]) ↔
      FilesAgree ⟨0, 5⟩
        (run (diskStep .simple versionsCodec .calm fun _ => none) (start 10 .primary, [])
          [insertA 1, .flushMemtable]) := by
  have hleft : (run (diskStep .simple versionsCodec .calm fun _ => none) (start 10 .primary, [])
        [insertA 1, .flushMemtable]).1.tree.wal.file = [] ∧
      ∀ f ∈ (run (diskStep .simple versionsCodec .calm fun _ => none) (start 10 .primary, [])
        [insertA 1, .flushMemtable]).2, f.isComplete = true := by
    decide +kernel
  exact reopen_every_order_iff .simple versionsCodec .calm (fun _ => none) 10 .primary _ none
    ⟨0, 5⟩ hleft.1 hleft.2

/-- Two versions of a row in two files: the listing decides which one is found. -/
theorem reopen_finds_overwritten_row :
    ¬ ∀ (calls : List StoreCall) (key : Key),
      (run (diskStep .simple versionsCodec .calm fun _ => none) (start 10 .primary, [])
        calls).1.tree.wal.file = [] →
      (∀ f ∈ (run (diskStep .simple versionsCodec .calm fun _ => none) (start 10 .primary, [])
        calls).2, f.isComplete = true) →
      ReopensTo .simple versionsCodec 10 .primary none key
        (run (diskStep .simple versionsCodec .calm fun _ => none) (start 10 .primary, []) calls) := by
  intro h
  have hreopens := h [insertA 1, .flushMemtable, insertA 2, .flushMemtable] ⟨0, 5⟩
  have hstart : InLevel0 (start 10 .primary, ([] : List TableFile)).2 := nofun
  have hlevel := inLevel0_run .simple versionsCodec .calm (fun _ => none) hstart
    [insertA 1, .flushMemtable, insertA 2, .flushMemtable]
  generalize hrun : run (diskStep .simple versionsCodec .calm fun _ => none)
    (start 10 .primary, []) [insertA 1, .flushMemtable, insertA 2, .flushMemtable] = final
    at hreopens hlevel
  have hleft : final.1.tree.wal.file = [] ∧ (∀ f ∈ final.2, f.isComplete = true) ∧
      ¬ FilesAgree ⟨0, 5⟩ final := by
    rw [← hrun]
    decide +kernel
  exact hleft.2.2 ((reopensTo_iff hleft.1 hleft.2.1 hlevel _ _ _ _).mp
    (hreopens hleft.1 hleft.2.1))

end History

end Graphite
