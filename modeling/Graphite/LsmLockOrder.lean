import Graphite.LockWaits
import Graphite.LsmCalls
import Graphite.ScanIter
import Graphite.TreeRuns

/-! Which locks the operations of the tree ask for while they hold others, as long as the
memtable stays below the flush threshold, and when threads wait for each other in a circle.
The insert calls take the dictionary before the memtable, and a stream takes the memtable
before the dictionary. -/

namespace Graphite
open LockProgram GuardedRuns

/-- The numbers in `DbStats`; the write amplification is the quotient of the two byte
counts. -/
structure DbStats where
  levelSizes : List Nat
  bytesWritten : Nat
  bytesRead : Nat
  totalRows : Nat
  totalSstables : Nat
  deriving DecidableEq, Repr

namespace LsmTree

def stats : LsmOp DbStats :=
  withGuard .compaction .read (gets fun st =>
    { levelSizes := st.1.compaction.levels.map Level.totalSize
      bytesWritten := st.1.compaction.bytesWritten
      bytesRead := st.1.compaction.bytesRead
      totalRows := st.1.totalRows
      totalSstables := (st.1.compaction.levels.map fun l => l.tables.length).sum })

end LsmTree

/-- A call of a thread. -/
inductive LsmCall where
  | insertion (call : InsertCall)
  | applyReplicationBatch (entries : List ReplicationEntry)
  | get (symbol : String) (timestamp : TimestampNs)
  | scan (symbol : Option String) (t1 t2 : TimestampNs)
  | scanStream (symbol : Option String) (t1 t2 : TimestampNs)
  | compact
  | stats
  | readWalForReplication (after : Option Nat) (limit : Nat)
  deriving DecidableEq, Repr

namespace LsmCall
open LsmTree Requests

section Programs

variable (p : Platform) (c : Codec) (env : Env)

/-- The call up to its end; what it returns goes to its caller. -/
def prog : LsmCall → Prog Lock (LsmTree × Nat) Unit
  | insertion call => (call.op p c env).run.bind fun _ => .done ()
  | applyReplicationBatch entries =>
    (LsmTree.applyReplicationBatch p c env entries).run.bind fun _ => .done ()
  | get symbol timestamp => (LsmTree.get env symbol timestamp).run.bind fun _ => .done ()
  | scan symbol t1 t2 => (LsmTree.scan env symbol t1 t2).run.bind fun _ => .done ()
  | scanStream symbol t1 t2 => (LsmTree.scanStream symbol t1 t2).run.bind fun _ => .done ()
  | compact => (LsmTree.compact p env).run.bind fun _ => .done ()
  | stats => LsmTree.stats.run.bind fun _ => .done ()
  | readWalForReplication after limit =>
    (LsmTree.readWalForReplication c after limit).run.bind fun _ => .done ()

/-- One call after the other. -/
def perform : List LsmCall → Prog Lock (LsmTree × Nat) Unit
  | [] => .done ()
  | call :: calls => (call.prog p c env).bind fun _ => perform calls

/-- Threads about to start their calls. -/
def threads (calls : List (List LsmCall)) (st : LsmTree × Nat) :
    Config Lock (LsmTree × Nat) Unit Unit :=
  ⟨calls.map fun calls => ⟨[], perform p c env calls⟩, st, ()⟩

end Programs

/-- The insert calls ask for the memtable while they hold the dictionary. -/
def insertRequest : Request Lock := ([(.symbolDict, .write)], .memtable, .write)

/-- A stream asks for the dictionary while it holds the memtable. -/
def streamRequest : Request Lock := ([(.memtable, .read), (.compaction, .read)], .symbolDict, .read)

/-- All requests that are made below the flush threshold. -/
def requests : List (Request Lock) :=
  [([], .memtable, .read), ([], .memtable, .write), ([], .wal, .read), ([], .wal, .write),
    ([], .compaction, .read), ([], .compaction, .write), ([], .symbolDict, .read),
    ([], .symbolDict, .write), ([], .replication, .write),
    insertRequest,
    ([(.symbolDict, .write)], .wal, .write),
    ([(.symbolDict, .write)], .memtable, .read),
    ([(.memtable, .write), (.symbolDict, .write)], .wal, .write),
    ([(.symbolDict, .read)], .memtable, .read),
    ([(.symbolDict, .read)], .compaction, .read),
    ([(.compaction, .read)], .symbolDict, .read),
    ([(.compaction, .read)], .memtable, .read),
    streamRequest]

/-- The memtable is below the flush threshold, which does not change. -/
def belowThreshold (threshold : Nat) : Requests Lock (LsmTree × Nat) where
  inv st := st.1.flushThreshold = threshold
  given st := st.1.memtable.len < st.1.flushThreshold
  asks held l m := (held, l, m) ∈ requests

/-- The action leaves the flush threshold as it is. -/
def KeepsThreshold {α : Type} (f : LsmM α) : Prop :=
  ∀ s time, (f (s, time)).2.1.flushThreshold = s.flushThreshold

theorem keepsThreshold_bind {α β : Type} {x : LsmM α} {f : α → LsmM β} (hx : KeepsThreshold x)
    (hf : ∀ a, KeepsThreshold (f a)) : KeepsThreshold (x >>= f) := by
  intro s time
  have hfirst := hx s time
  rw [DiskM.bind_apply]
  rcases hexec : x (s, time) with ⟨r, s₁, time₁⟩
  rw [hexec] at hfirst
  cases r with
  | ok a => exact (hf a s₁ time₁).trans hfirst
  | error e => exact hfirst

theorem keepsThreshold_batchLoop (batch : TickBatch) (symbolId : SymbolId) (count i : Nat) :
    KeepsThreshold (batchLoop batch symbolId count i) := by
  intro s time
  cases hticks : (List.range' i count).mapM (fun i => batch.tickAt i symbolId) with
  | some ticks =>
    rw [batchLoop_of_some hticks]
    rfl
  | none =>
    obtain ⟨rows, hrows, -⟩ := batchLoop_of_none hticks s time
    rw [hrows]
    rfl

theorem keepsThreshold_resolve (entries : List ReplicationEntry) :
    KeepsThreshold (resolve entries) := by
  induction entries with
  | nil => exact fun _ _ => rfl
  | cons entry entries ih =>
    obtain ⟨sequence, record, symbol⟩ := entry
    have hrest (tick : Tick) : KeepsThreshold (do
        let rest ← resolve entries
        return tick :: rest) := keepsThreshold_bind ih fun _ _ _ => rfl
    cases record with
    | insert tick =>
      cases symbol with
      | some symbol => exact keepsThreshold_bind (fun _ _ => rfl) fun id => hrest _
      | none => exact hrest tick
    | delete key => exact ih
    | checkpoint sequence => exact ih

theorem keepsThreshold_advance (env : Env) (sequence : Nat) :
    KeepsThreshold (advance env sequence) := by
  intro s time
  unfold advance
  rw [DiskM.current_bind]
  split_ifs <;> rfl

variable {N : Nat} {p : Platform} {c : Codec} {env : Env} {held : Held Lock}

theorem follows_keeps {α : Type} {f : LsmM α} (hf : KeepsThreshold f) :
    (belowThreshold N).FollowsOp (fun _ => True) held (attempt f) :=
  follows_attempt fun st hinv _ => ⟨(hf st.1 st.2).trans hinv, trivial⟩

theorem follows_guard {α : Type} {post : Except (Stop LsmError) α → Prop} {l : Lock} {m : Mode}
    {body : LsmOp α} (hasks : (held, l, m) ∈ requests)
    (h : (belowThreshold N).FollowsOp post ((l, m) :: held) body) :
    (belowThreshold N).FollowsOp post held (withGuard l m body) :=
  follows_withGuard hasks h

/-- A section of its own. -/
theorem follows_section {α : Type} {f : LsmM α} {l : Lock} {m : Mode}
    (hasks : (held, l, m) ∈ requests) (hf : KeepsThreshold f) :
    (belowThreshold N).FollowsOp (fun _ => True) held (withGuard l m (attempt f)) :=
  follows_guard hasks (follows_keeps hf)

theorem follows_look {α : Type} (f : LsmTree × Nat → α) {l : Lock} {m : Mode}
    (hasks : (held, l, m) ∈ requests) :
    (belowThreshold N).FollowsOp (fun _ => True) held
      (withGuard l m (gets f) : LsmOp α) :=
  follows_guard hasks (follows_gets fun _ _ _ => trivial)

/-- A length that is below the threshold, if there is one. -/
def Below (N : Nat) (r : Except (Stop LsmError) Nat) : Prop := ∀ len, r = .ok len → len < N

theorem below_error (N : Nat) (e : Stop LsmError) : Below N (.error e) := nofun

theorem follows_len : (belowThreshold N).FollowsOp (Below N) held
    (gets (fun st => st.1.memtable.len) : LsmOp Nat) := by
  refine follows_gets fun st hinv hgiven len hlen => ?_
  cases hlen
  exact hinv ▸ hgiven

/-- Below the threshold nothing is flushed. -/
theorem follows_flushIfFull {len : Nat} (hlen : len < N) :
    (belowThreshold N).FollowsOp (fun _ => True) held (flushIfFull p env len) := by
  refine follows_bind (follows_gets fun st hinv _ => ?_)
  have hinv : st.1.flushThreshold = N := hinv
  rw [hinv]
  dsimp only
  rw [if_neg (Nat.not_le.mpr hlen)]
  exact follows_pure trivial

theorem follows_store (call : InsertCall) : (belowThreshold N).FollowsOp (Below N)
    [(.symbolDict, .write)] (call.store c env) := by
  cases call with
  | insert symbol tick =>
    refine follows_then (follows_keeps fun _ _ => rfl) (below_error N) fun id => ?_
    refine follows_then (follows_section (by decide) fun _ _ => rfl) (below_error N) fun _ => ?_
    refine follows_then (follows_section (by decide) fun _ _ => rfl) (below_error N) fun _ => ?_
    refine follows_then (follows_keeps fun _ _ => rfl) (below_error N) fun _ => ?_
    exact follows_guard (by decide) follows_len
  | insertBatch symbol batch =>
    refine follows_then (follows_keeps fun _ _ => rfl) (below_error N) fun id => ?_
    refine follows_guard (by decide) ?_
    refine follows_then (follows_keeps (keepsThreshold_batchLoop _ _ _ _)) (below_error N)
      fun ticks => ?_
    exact follows_then (follows_section (by decide) fun _ _ => rfl) (below_error N)
      fun _ => follows_len
  | insertMulti ticks =>
    refine follows_guard (by decide) ?_
    refine follows_then (follows_keeps fun s time => ?_) (below_error N) fun stored => ?_
    · rw [multiLoop_eq]
      rfl
    · exact follows_then (follows_section (by decide) fun _ _ => rfl) (below_error N)
        fun _ => follows_len

/-- The part of an insert call under the guard of the dictionary. -/
theorem follows_guarded (call : InsertCall) : (belowThreshold N).FollowsOp (fun _ => True) []
    (withGuard .symbolDict .write do
      let memtableLen ← call.store c env
      flushIfFull p env memtableLen) := by
  refine follows_guard (by decide) (follows_bind (FollowsOp.mono (fun r hr => ?_)
    (follows_store call)))
  cases r with
  | ok len => exact follows_flushIfFull (hr len rfl)
  | error e => trivial

theorem follows_insertion (call : InsertCall) :
    (belowThreshold N).FollowsOp (fun _ => True) [] (call.op p c env) := by
  cases call with
  | insert symbol tick =>
    refine follows_then (follows_gets fun _ _ _ => trivial) (fun _ => trivial) fun role => ?_
    split_ifs
    · exact follows_throw trivial
    · exact follows_guarded (.insert symbol tick)
  | insertBatch symbol batch =>
    rw [InsertCall.op, insertBatch]
    split_ifs
    · exact follows_pure trivial
    · exact follows_guarded (.insertBatch symbol batch)
  | insertMulti ticks =>
    rw [InsertCall.op, insertMulti]
    split_ifs
    · exact follows_pure trivial
    · exact follows_guarded (.insertMulti ticks)

theorem follows_applyReplicationBatch (entries : List ReplicationEntry) :
    (belowThreshold N).FollowsOp (fun _ => True) []
      (LsmTree.applyReplicationBatch p c env entries) := by
  unfold LsmTree.applyReplicationBatch
  split_ifs
  · exact follows_pure trivial
  refine follows_then (follows_gets fun _ _ _ => trivial) (fun _ => trivial) fun role => ?_
  split_ifs
  · exact follows_throw trivial
  have hstore : (belowThreshold N).FollowsOp (Below N) [] (storeReplicated c env entries) := by
    refine follows_then (follows_section (by decide) (keepsThreshold_resolve entries))
      (below_error N) fun resolved => ?_
    refine follows_then (follows_section (by decide) fun _ _ => rfl) (below_error N) fun _ => ?_
    refine follows_guard (by decide) (follows_then (follows_keeps fun s time => ?_) (below_error N)
      fun _ => follows_len)
    rw [insertResolved_eq]
    rfl
  refine follows_bind (FollowsOp.mono (fun r hr => ?_) hstore)
  cases r with
  | error e => trivial
  | ok len =>
    refine follows_then (follows_flushIfFull (hr len rfl)) (fun _ => trivial) fun _ => ?_
    exact follows_then (follows_section (by decide) (keepsThreshold_advance env _))
      (fun _ => trivial) fun _ => follows_pure trivial

theorem follows_probeTables (key : Key) (tables : List Table) :
    (belowThreshold N).FollowsOp (fun _ => True) held (probeTables env key tables) := by
  induction tables with
  | nil => exact follows_pure trivial
  | cons table tables ih =>
    unfold probeTables
    split
    · exact follows_throw trivial
    · exact ih
    · split_ifs
      · refine follows_then (follows_keeps fun _ _ => rfl) (fun _ => trivial) fun _ => ?_
        split
        · exact follows_pure trivial
        · exact ih
      · exact ih

theorem follows_get (symbol : String) (timestamp : TimestampNs) :
    (belowThreshold N).FollowsOp (fun _ => True) [] (LsmTree.get env symbol timestamp) := by
  refine follows_guard (by decide) ?_
  refine follows_then (follows_gets fun _ _ _ => trivial) (fun _ => trivial) fun id => ?_
  cases id with
  | none => exact follows_throw trivial
  | some id =>
    refine follows_then (follows_look _ (by decide)) (fun _ => trivial) fun found => ?_
    cases found with
    | some tick => exact follows_pure trivial
    | none =>
      refine follows_guard (by decide) ?_
      exact follows_then (follows_gets fun _ _ _ => trivial) (fun _ => trivial)
        fun levels => follows_probeTables _ _

theorem follows_mayHold (table : Table) (symbolId : Option SymbolId) :
    (belowThreshold N).FollowsOp (fun _ => True) [(.compaction, .read)]
      (mayHold table symbolId) := by
  cases symbolId with
  | none => exact follows_pure trivial
  | some id =>
    refine follows_then (follows_look _ (by decide)) (fun _ => trivial) fun name => ?_
    split
    · exact follows_throw trivial
    · exact follows_pure trivial
    · exact follows_pure trivial

theorem follows_scanTables (symbolId : Option SymbolId) (t1 t2 : TimestampNs)
    (tables : List Table) : (belowThreshold N).FollowsOp (fun _ => True) [(.compaction, .read)]
      (scanTables env symbolId t1 t2 tables) := by
  induction tables with
  | nil => exact follows_pure trivial
  | cons table tables ih =>
    unfold scanTables
    split_ifs
    · exact ih
    refine follows_then (follows_mayHold table symbolId) (fun _ => trivial) fun held => ?_
    split_ifs
    · refine follows_then (follows_keeps fun _ _ => rfl) (fun _ => trivial) fun _ => ?_
      exact follows_then ih (fun _ => trivial) fun rest => follows_pure trivial
    · exact ih

theorem follows_lookUp (symbol : Option String) :
    (belowThreshold N).FollowsOp (fun _ => True) [] (lookUp symbol) := by
  cases symbol with
  | none => exact follows_pure trivial
  | some symbol =>
    refine follows_guard (by decide) ?_
    refine follows_then (follows_gets fun _ _ _ => trivial) (fun _ => trivial) fun id => ?_
    cases id with
    | none => exact follows_throw trivial
    | some id => exact follows_pure trivial

theorem follows_scan (symbol : Option String) (t1 t2 : TimestampNs) :
    (belowThreshold N).FollowsOp (fun _ => True) [] (LsmTree.scan env symbol t1 t2) := by
  refine follows_then (follows_lookUp symbol) (fun _ => trivial) fun symbolId => ?_
  refine follows_then (follows_look _ (by decide)) (fun _ => trivial) fun inMemory => ?_
  refine follows_guard (by decide) ?_
  refine follows_then (follows_gets fun _ _ _ => trivial) (fun _ => trivial) fun levels => ?_
  exact follows_then (follows_scanTables _ _ _ _) (fun _ => trivial) fun _ => follows_pure trivial

theorem follows_scanStream (symbol : Option String) (t1 t2 : TimestampNs) :
    (belowThreshold N).FollowsOp (fun _ => True) [] (LsmTree.scanStream symbol t1 t2) := by
  refine follows_then (follows_lookUp symbol) (fun _ => trivial) fun symbolId => ?_
  refine follows_guard (by decide) (follows_guard (by decide) (follows_guard (by decide) ?_))
  refine follows_then (follows_gets fun _ _ _ => trivial) (fun _ => trivial) fun stream => ?_
  cases stream with
  | none => exact follows_throw trivial
  | some stream => exact follows_pure trivial

/-- Every call makes the listed requests only. -/
theorem follows_prog (call : LsmCall) :
    (belowThreshold N).Follows (fun held _ => held = []) [] (call.prog p c env) := by
  have hend {α : Type} {x : LsmOp α} (h : (belowThreshold N).FollowsOp (fun _ => True) [] x) :
      (belowThreshold N).Follows (fun held _ => held = []) []
        (x.run.bind fun _ => .done () : Prog Lock (LsmTree × Nat) Unit) :=
    Follows.bind (Follows.mono (fun _ _ hr => hr.1) h)
  cases call with
  | insertion call => exact hend (follows_insertion call)
  | applyReplicationBatch entries => exact hend (follows_applyReplicationBatch entries)
  | get symbol timestamp => exact hend (follows_get symbol timestamp)
  | scan symbol t1 t2 => exact hend (follows_scan symbol t1 t2)
  | scanStream symbol t1 t2 => exact hend (follows_scanStream symbol t1 t2)
  | compact => exact hend (follows_section (by decide) fun _ _ => rfl)
  | stats => exact hend (follows_look _ (by decide))
  | readWalForReplication after limit =>
    exact hend (follows_then (follows_section (by decide) fun _ _ => rfl) (fun _ => trivial)
      fun records => follows_look _ (by decide))

theorem follows_perform (calls : List LsmCall) :
    (belowThreshold N).Follows (fun _ _ => True) [] (perform p c env calls) := by
  induction calls with
  | nil => trivial
  | cons call calls ih =>
    refine Follows.bind (Follows.mono (fun held _ hheld => ?_) (follows_prog call))
    rw [hheld]
    exact ih

/-- The first request waits for the guards of the second one. -/
def Blocks (r k : Request Lock) : Prop := Conflicts k.1 r.2.1 r.2.2

instance (r k : Request Lock) : Decidable (Blocks r k) := inferInstanceAs (Decidable (Conflicts ..))

/-- An insertion waits for the memtable under the guard of the dictionary, and a stream for
the dictionary under the guard of the memtable. -/
def Meet (r r' : Option (Request Lock)) : Prop :=
  (r = some insertRequest ∧ r' = some streamRequest) ∨
    (r = some streamRequest ∧ r' = some insertRequest)

instance (r r' : Option (Request Lock)) : Decidable (Meet r r') :=
  inferInstanceAs (Decidable (_ ∨ _))

theorem Meet.symm {r r' : Option (Request Lock)} (h : Meet r r') : Meet r' r := by
  obtain ⟨h₁, h₂⟩ | ⟨h₁, h₂⟩ := h
  · exact Or.inr ⟨h₂, h₁⟩
  · exact Or.inl ⟨h₂, h₁⟩

/-- Requests that block each other in a row come to such a meeting. -/
theorem blocks_row : ∀ r₁ ∈ requests, ∀ r₂ ∈ requests, Blocks r₁ r₂ → ∀ r₃ ∈ requests,
    Blocks r₂ r₃ → ∀ r₄ ∈ requests, Blocks r₃ r₄ → ∀ r₅ ∈ requests, Blocks r₄ r₅ →
    Meet (some r₂) (some r₃) ∨ Meet (some r₃) (some r₄) := by
  decide +kernel

def Crossed (c : Config Lock (LsmTree × Nat) Unit Unit) : Prop :=
  ∃ i k, Meet (c.request? i) (c.request? k)

/-- The action brings the thread to a meeting with another one. -/
def Crosses (c : Config Lock (LsmTree × Nat) Unit Unit) (i : Nat) : Prop :=
  ∃ k < c.threads.length, k ≠ i ∧
    Meet ((c.step (fun _ _ _ g => g) i).request? i) (c.request? k)

instance (c : Config Lock (LsmTree × Nat) Unit Unit) (i : Nat) : Decidable (Crosses c i) :=
  inferInstanceAs (Decidable (∃ k < c.threads.length, _))

theorem lt_of_request? {c : Config Lock (LsmTree × Nat) Unit Unit} {i : Nat} {r : Request Lock}
    (h : c.request? i = some r) : i < c.threads.length := by
  obtain ⟨rest, hrest⟩ := Config.request?_eq_some h
  exact (List.getElem?_eq_some_iff.mp hrest).1

theorem Meet.ne {c : Config Lock (LsmTree × Nat) Unit Unit} {i k : Nat}
    (h : Meet (c.request? i) (c.request? k)) : i ≠ k := by
  rintro rfl
  obtain ⟨hi, hk⟩ | ⟨hi, hk⟩ := h <;> cases hi.symm.trans hk

theorem Meet.lt_length {c : Config Lock (LsmTree × Nat) Unit Unit} {i : Nat}
    {r : Option (Request Lock)} (h : Meet r (c.request? i)) : i < c.threads.length := by
  obtain ⟨-, hi⟩ | ⟨-, hi⟩ := h <;>
  · obtain ⟨rest, hrest⟩ := Config.request?_eq_some hi
    exact (List.getElem?_eq_some_iff.mp hrest).1

theorem Crossed.circularWait {c : Config Lock (LsmTree × Nat) Unit Unit} (h : Crossed c) :
    c.CircularWait := by
  obtain ⟨i, k, h⟩ := h
  have hne := Meet.ne h
  obtain ⟨hi, hk⟩ | ⟨hi, hk⟩ := h
  all_goals
    exact Config.circularWait_of_pair hne (Config.waitsFor_of_conflicts hi hk (by decide))
      (Config.waitsFor_of_conflicts hk hi (by decide))

/-- Below the threshold every circle has such a meeting in it. -/
theorem crossed_of_circularWait {c : Config Lock (LsmTree × Nat) Unit Unit}
    (hc : c.Following (belowThreshold N)) (h : c.CircularWait) : Crossed c := by
  obtain ⟨threads, hthreads, hwaits⟩ := h
  have hnext (i : Nat) (r : Request Lock) (hi : i ∈ threads) (hr : c.request? i = some r) :
      ∃ k ∈ threads, ∃ r' ∈ requests, c.request? k = some r' ∧ Blocks r r' := by
    obtain ⟨k, hk, -, hwait⟩ := hwaits i hi
    obtain ⟨-, -, -, r', hr', -⟩ := hwaits k hk
    exact ⟨k, hk, r', hc.asks hr', hr', hwait.conflicts hr hr'⟩
  obtain ⟨i₁, h₁⟩ := hthreads.nonempty
  obtain ⟨-, -, -, r₁, hr₁, -⟩ := hwaits i₁ h₁
  obtain ⟨i₂, h₂, r₂, hmem₂, hr₂, hb₁⟩ := hnext i₁ r₁ h₁ hr₁
  obtain ⟨i₃, h₃, r₃, hmem₃, hr₃, hb₂⟩ := hnext i₂ r₂ h₂ hr₂
  obtain ⟨i₄, h₄, r₄, hmem₄, hr₄, hb₃⟩ := hnext i₃ r₃ h₃ hr₃
  obtain ⟨i₅, -, r₅, hmem₅, -, hb₄⟩ := hnext i₄ r₄ h₄ hr₄
  obtain h | h := blocks_row r₁ (hc.asks hr₁) r₂ hmem₂ hb₁ r₃ hmem₃ hb₂ r₄ hmem₄ hb₃ r₅ hmem₅ hb₄
  · exact ⟨i₂, i₃, hr₂ ▸ hr₃ ▸ h⟩
  · exact ⟨i₃, i₄, hr₃ ▸ hr₄ ▸ h⟩

/-- From a state without such a meeting only a crossing step leads to one. -/
theorem crossed_step_iff {c : Config Lock (LsmTree × Nat) Unit Unit} (hc : ¬ Crossed c) (i : Nat) :
    Crossed (c.step (fun _ _ _ g => g) i) ↔ Crosses c i := by
  have hother {k : Nat} (hne : k ≠ i) : (c.step (fun _ _ _ g => g) i).request? k = c.request? k :=
    Config.request?_step_of_ne c hne
  constructor
  · rintro ⟨a, b, h⟩
    have hab := Meet.ne h
    by_cases hai : a = i
    · subst hai
      rw [hother hab.symm] at h
      exact ⟨b, Meet.lt_length h, hab.symm, h⟩
    · rw [hother hai] at h
      by_cases hbi : b = i
      · subst hbi
        exact ⟨a, Meet.lt_length h.symm, hab, h.symm⟩
      · rw [hother hbi] at h
        exact absurd ⟨a, b, h⟩ hc
  · rintro ⟨k, -, hne, h⟩
    exact ⟨i, k, (hother hne).symm ▸ h⟩

theorem following_threads (calls : List (List LsmCall)) (st : LsmTree × Nat) :
    (threads p c env calls st).Following (belowThreshold st.1.flushThreshold) := by
  refine ⟨rfl, fun i t ht => ?_⟩
  rw [threads, List.getElem?_map, Option.map_eq_some_iff] at ht
  obtain ⟨calls, -, rfl⟩ := ht
  exact follows_perform calls

/-- A thread about to start holds no guards. -/
theorem not_crossed_threads (calls : List (List LsmCall)) (st : LsmTree × Nat) :
    ¬ Crossed (threads p c env calls st) := by
  have hheld (i : Nat) (r : Request Lock)
      (hr : (threads p c env calls st).request? i = some r) : r.1 = [] := by
    obtain ⟨rest, hrest⟩ := Config.request?_eq_some hr
    rw [threads, List.getElem?_map, Option.map_eq_some_iff] at hrest
    obtain ⟨calls, -, hthread⟩ := hrest
    exact (congrArg Thread.held hthread).symm
  rintro ⟨i, k, ⟨hi, -⟩ | ⟨hi, -⟩⟩
  · cases hheld i _ hi
  · cases hheld i _ hi

/-- Any threads with any calls: while the memtable stays below the threshold, no circle is
ever closed exactly if no step lets an insertion and a stream meet at their requests. -/
theorem circularWait_never_iff (p : Platform) (c : Codec) (env : Env)
    (calls : List (List LsmCall)) (st : LsmTree × Nat)
    (schedule : List Nat)
    (hbelow : Always (Config.step fun _ _ _ g => g)
      (fun c => c.state.1.memtable.len < c.state.1.flushThreshold) (threads p c env calls st)
      schedule) :
    Always (Config.step fun _ _ _ g => g) (fun c => ¬ c.CircularWait) (threads p c env calls st)
        schedule ↔
      Guarded (Config.step fun _ _ _ g => g) (fun c i => ¬ Crosses c i) (threads p c env calls st)
        schedule := by
  refine always_iff_guarded_of_always
    (fun c => c.Following (belowThreshold st.1.flushThreshold) ∧ ¬ Crossed c) _
    (fun c hc h => hc.2 (crossed_of_circularWait hc.1 h)) (fun c i hc hgiven hguard => ?_)
    (fun c i hc _ hguard h => ?_)
    ⟨following_threads calls st, not_crossed_threads calls st⟩ hbelow
  · exact ⟨Config.following_step hc.1 hgiven i, fun h => hguard ((crossed_step_iff hc.2 i).mp h)⟩
  · exact h ((crossed_step_iff hc.2 i).mpr (not_not.mp hguard)).circularWait

/-- A thread that inserts and one that streams. -/
def insertAndStream : List (List LsmCall) :=
  [[.insertion (.insertMulti [⟨"A", 7, ⟨0⟩, ⟨0⟩, ⟨0⟩, ⟨0⟩, 1⟩])], [.scanStream none 0 9]]

/-- The stream asks for the memtable only when the insertion is through. -/
theorem insert_then_stream_never_circular :
    Always (Config.step fun _ _ _ g => g) (fun c => ¬ c.CircularWait)
      (threads .simple (Codec.forTicks []) .calm insertAndStream (LsmTree.fresh 10 .primary, 0))
      (1 :: List.replicate 12 0 ++ [1, 1, 1]) := by
  refine (circularWait_never_iff .simple (Codec.forTicks []) .calm insertAndStream
    (LsmTree.fresh 10 .primary, 0) _ ?_).mpr (by decide +kernel)
  simp only [List.replicate, List.cons_append, List.nil_append, always_cons_iff, always_nil_iff]
  decide +kernel

/-- The insertion has the dictionary and the stream the memtable. -/
theorem insert_and_stream_circular :
    Always (Config.step fun _ _ _ g => g)
      (fun c => c.state.1.memtable.len < c.state.1.flushThreshold)
      (threads .simple (Codec.forTicks []) .calm insertAndStream (LsmTree.fresh 10 .primary, 0))
      [1, 1, 0] ∧
    (run (Config.step fun _ _ _ g => g)
      (threads .simple (Codec.forTicks []) .calm insertAndStream (LsmTree.fresh 10 .primary, 0))
      [1, 1, 0]).CircularWait := by
  constructor
  · simp only [always_cons_iff, always_nil_iff]
    decide +kernel
  · exact Crossed.circularWait ⟨0, 1, by decide +kernel⟩

end LsmCall

end Graphite
