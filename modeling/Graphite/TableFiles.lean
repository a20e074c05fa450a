import Graphite.Compaction
import Graphite.CrashPoints

/-! Table files on disk. A file is created empty and grows; it is complete with its last
byte, and is then taken to read back what was written. A file that is cut short is what
its bytes say. -/

namespace Graphite
open BigEndian LockProgram

/-- The table knows the name of its file. -/
theorem SsTable.path_of_write {p : Platform} {path : String} {ticks : List Tick} {level : Nat}
    {symbolDict : SymbolDictionary} {file : Bytes} {sst : SsTable}
    (h : SsTable.write p path ticks level symbolDict = some (file, sst)) : sst.path = path := by
  unfold SsTable.write at h
  obtain ⟨bloom, -, h⟩ := Option.bind_eq_some_iff.mp h
  obtain ⟨data, -, h⟩ := Option.bind_eq_some_iff.mp h
  cases h
  rfl

/-- A file with the extension `sst`. -/
inductive TableFile where
  | complete (t : Table)
  | cut (path : String) (bytes : Bytes)
  deriving DecidableEq

namespace TableFile

def path : TableFile → String
  | complete t => t.sst.path
  | cut path _ => path

/-- `SsTable::open`, with the rows that a scan of the file then finds. -/
def load (p : Platform) : TableFile → Except (Stop SsTableError) Table
  | complete t => .ok t.reopen
  | cut path bytes => do
    let sst ← SsTable.openBytes path bytes
    return ⟨sst, (sst.scan p bytes none Int64.minValue Int64.maxValue).getD []⟩

/-- Create the file, or put new contents into the one with its name. -/
def put (f : TableFile) (files : List TableFile) : List TableFile :=
  files.filter (·.path ≠ f.path) ++ [f]

theorem mem_put {f g : TableFile} {files : List TableFile} :
    g ∈ f.put files ↔ (g ∈ files ∧ g.path ≠ f.path) ∨ g = f := by
  simp [put]

theorem put_put {f g : TableFile} (h : f.path = g.path) (files : List TableFile) :
    g.put (f.put files) = g.put files := by
  simp [put, List.filter_append, h]

end TableFile

section Writing

variable {L σ ε : Type}

/-- An action on the files alone. -/
def onFiles (f : List TableFile → List TableFile) :
    Op L ((σ × Nat) × List TableFile) (Stop ε) Unit :=
  attempt fun st => (.ok (), (st.1, f st.2))

/-- Create the file and write its first `n` bytes, which may stop after each of them. -/
def writeUpTo (path : String) (bytes : Bytes) :
    (n : Nat) → Op L ((σ × Nat) × List TableFile) (Stop ε) Unit
  | 0 => onFiles (TableFile.cut path []).put
  | n + 1 => do
    writeUpTo path bytes n
    onFiles (TableFile.cut path (bytes.take (n + 1))).put

/-- Whether the file operations of this moment succeed. -/
def fileOutcome (env : Env) : Op L ((σ × Nat) × List TableFile) (Stop ε) Bool :=
  attempt fun st => (.ok (env.io st.1.2), ((st.1.1, st.1.2 + 1), st.2))

/-- `SsTable::write` with its effects on the directory. A call that fails may have created the
file and written the first `left` bytes, or all of them when it is the sync that fails. -/
def writeTableFile (p : Platform) (env : Env) (left : Option Nat) (wrap : SsTableError → ε)
    (path : String) (ticks : List Tick) (level : Nat) (symbolDict : SymbolDictionary) :
    Op L ((σ × Nat) × List TableFile) (Stop ε) Table := do
  let ok ← fileOutcome env
  match ok, left, SsTable.write p path ticks level symbolDict with
  | true, _, none => do
    onFiles (TableFile.cut path []).put
    throw .panic
  | true, _, some (file, sst) => do
    writeUpTo path file (file.length - 1)
    onFiles (TableFile.complete ⟨sst, ticks⟩).put
    return ⟨sst, ticks⟩
  | false, some n, some (file, sst) => do
    writeUpTo path file (min n (file.length - 1))
    if file.length ≤ n then onFiles (TableFile.complete ⟨sst, ticks⟩).put
    throw (.error (wrap .io))
  | false, _, _ => throw (.error (wrap .io))

section Exec

variable [DecidableEq L]

theorem exec_onFiles (f : List TableFile → List TableFile) (held : Held L)
    (st : (σ × Nat) × List TableFile) :
    exec (onFiles f : Op L ((σ × Nat) × List TableFile) (Stop ε) Unit) held st =
      .finished (.ok ()) held (st.1, f st.2) := rfl

theorem exec_writeUpTo (path : String) (bytes : Bytes) (n : Nat) (held : Held L)
    (st : (σ × Nat) × List TableFile) : ∃ files,
      exec (writeUpTo path bytes n : Op L ((σ × Nat) × List TableFile) (Stop ε) Unit) held st =
        .finished (.ok ()) held (st.1, files) := by
  induction n with
  | zero => exact ⟨_, rfl⟩
  | succ n ih =>
    obtain ⟨files, h⟩ := ih
    rw [writeUpTo, exec_bind_ok h]
    exact ⟨_, rfl⟩

/-- The file is there before its first byte. -/
theorem created_mem_stages (path : String) (bytes : Bytes) (n : Nat) (held : Held L)
    (st : (σ × Nat) × List TableFile) : (st.1, (TableFile.cut path []).put st.2) ∈
      stages (writeUpTo path bytes n : Op L ((σ × Nat) × List TableFile) (Stop ε) Unit) held st := by
  induction n with
  | zero => exact List.mem_cons_of_mem _ List.mem_cons_self
  | succ n ih => exact mem_stages_bind ih _

/-- Apart from the files, this is `writeTable`. -/
theorem refines_writeTableFile (p : Platform) (env : Env) (left : Option Nat)
    (wrap : SsTableError → ε) (path : String) (ticks : List Tick) (level : Nat)
    (symbolDict : SymbolDictionary) :
    Refines (writeTableFile p env left wrap path ticks level symbolDict :
        Op L ((σ × Nat) × List TableFile) (Stop ε) Table)
      (attempt (writeTable p env wrap path ticks level symbolDict)) := by
  intro held st files
  obtain ⟨s, time⟩ := st
  have houtcome : exec (fileOutcome env : Op L ((σ × Nat) × List TableFile) (Stop ε) Bool) held
      ((s, time), files) = .finished (.ok (env.io time)) held ((s, time + 1), files) := rfl
  rw [writeTableFile, exec_bind_ok houtcome, exec_attempt, writeTable, DiskM.bind_apply]
  cases hio : env.io time with
  | true =>
    simp only [fileOp, hio, if_true]
    cases SsTable.write p path ticks level symbolDict with
    | none =>
      rw [exec_bind_ok (exec_onFiles _ _ _)]
      exact ⟨_, rfl⟩
    | some w =>
      obtain ⟨file, sst⟩ := w
      obtain ⟨files', h⟩ := exec_writeUpTo path file (file.length - 1) held ((s, time + 1), files)
      dsimp only
      rw [exec_bind_ok h, exec_bind_ok (exec_onFiles _ _ _)]
      exact ⟨_, rfl⟩
  | false =>
    simp only [fileOp, hio, Bool.false_eq_true, if_false]
    cases left with
    | none => exact ⟨files, rfl⟩
    | some n =>
      cases SsTable.write p path ticks level symbolDict with
      | none => exact ⟨files, rfl⟩
      | some w =>
        obtain ⟨file, sst⟩ := w
        obtain ⟨files', h⟩ := exec_writeUpTo path file (min n (file.length - 1)) held
          ((s, time + 1), files)
        dsimp only
        rw [exec_bind_ok h]
        split_ifs
        · exact ⟨_, rfl⟩
        · exact ⟨files', rfl⟩

end Exec

variable {good : (σ × Nat) × List TableFile → Prop} {st : (σ × Nat) × List TableFile}

theorem through_writeUpTo {path : String} {bytes : Bytes} (hst : good st)
    (hcut : ∀ n, good (st.1, (TableFile.cut path (bytes.take n)).put st.2)) (n : Nat) :
    ThroughOp good (fun r st' => r = .ok () ∧ st' = (st.1, (TableFile.cut path (bytes.take n)).put st.2))
      (writeUpTo path bytes n : Op L ((σ × Nat) × List TableFile) (Stop ε) Unit) st := by
  induction n with
  | zero => exact through_attempt hst (hcut 0) ⟨rfl, rfl⟩
  | succ n ih =>
    refine through_bind (Through.mono ?_ ih)
    rintro r st' hst' ⟨rfl, rfl⟩
    have hput := TableFile.put_put (f := .cut path (bytes.take n))
      (g := .cut path (bytes.take (n + 1))) rfl st.2
    refine through_attempt hst' ?_ ?_
    · dsimp only
      rw [hput]
      exact hcut (n + 1)
    · dsimp only
      rw [hput]
      exact ⟨rfl, rfl⟩

/-- What the files go through while a table is written. -/
theorem through_writeTableFile (p : Platform) (env : Env) (left : Option Nat)
    (wrap : SsTableError → ε) {path : String} {ticks : List Tick} (level : Nat)
    (symbolDict : SymbolDictionary) {s : σ} {time : Nat} {files : List TableFile}
    (hst : good ((s, time), files)) (htime : good ((s, time + 1), files))
    (hcut : ∀ bytes, good ((s, time + 1), (TableFile.cut path bytes).put files))
    (hcomplete : ∀ (t : Table) (file : Bytes), t.rows = ticks →
      SsTable.write p path ticks level symbolDict = some (file, t.sst) →
      good ((s, time + 1), (TableFile.complete t).put files)) :
    ThroughOp good (fun r st => (∃ e, r = .error e) ∨ ∃ t : Table, r = .ok t ∧ t.rows = ticks ∧
        t.sst.path = path ∧ st = ((s, time + 1), (TableFile.complete t).put files))
      (writeTableFile p env left wrap path ticks level symbolDict :
        Op L ((σ × Nat) × List TableFile) (Stop ε) Table) ((s, time), files) := by
  refine through_bind (through_attempt hst htime ?_)
  dsimp only
  cases env.io time with
  | true =>
    cases hwrite : SsTable.write p path ticks level symbolDict with
    | none =>
      refine through_bind (through_attempt htime (hcut []) ?_)
      exact through_throw (hcut []) (Or.inl ⟨_, rfl⟩)
    | some w =>
      obtain ⟨file, sst⟩ := w
      have hpath := SsTable.path_of_write hwrite
      refine through_bind (Through.mono ?_ (through_writeUpTo htime (fun n => hcut _) _))
      rintro r st hst ⟨rfl, rfl⟩
      have hput := TableFile.put_put (f := .cut path (file.take (file.length - 1)))
        (g := .complete ⟨sst, ticks⟩) hpath.symm files
      have hdone := hcomplete ⟨sst, ticks⟩ file rfl hwrite
      rw [← hput] at hdone
      refine through_bind (through_attempt hst hdone ?_)
      refine through_pure hdone (Or.inr ⟨⟨sst, ticks⟩, rfl, rfl, hpath, ?_⟩)
      rw [hput]
  | false =>
    cases left with
    | none => exact through_throw htime (Or.inl ⟨_, rfl⟩)
    | some n =>
      cases hwrite : SsTable.write p path ticks level symbolDict with
      | none => exact through_throw htime (Or.inl ⟨_, rfl⟩)
      | some w =>
        obtain ⟨file, sst⟩ := w
        have hpath := SsTable.path_of_write hwrite
        refine through_bind (Through.mono ?_ (through_writeUpTo htime (fun n => hcut _) _))
        rintro r st hst ⟨rfl, rfl⟩
        dsimp only
        split_ifs
        · have hput := TableFile.put_put (f := .cut path (file.take (min n (file.length - 1))))
            (g := .complete ⟨sst, ticks⟩) hpath.symm files
          have hdone := hcomplete ⟨sst, ticks⟩ file rfl hwrite
          rw [← hput] at hdone
          exact through_bind (through_attempt hst hdone (through_throw hdone (Or.inl ⟨_, rfl⟩)))
        · exact through_bind (through_pure hst (through_throw hst (Or.inl ⟨_, rfl⟩)))

end Writing

end Graphite
