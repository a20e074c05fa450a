import Graphite.Lsm
import Graphite.WalRecovery

/-! What the write calls of the tree do, one lemma for each loop and each call. A write
call that returns normally did not flush: the flush would have waited for the guard of
the dictionary, which the call still holds. -/

namespace Graphite
open KeyedRows LockProgram

/-- The rows of a batch; `none` when a column is shorter than the timestamps. -/
def TickBatch.ticks (b : TickBatch) (symbolId : SymbolId) : Option (List Tick) :=
  (List.range' 0 b.len).mapM fun i => b.tickAt i symbolId

theorem TickBatch.symbolId_of_tickAt {batch : TickBatch} {i : Nat} {id : SymbolId} {x : Tick}
    (h : batch.tickAt i id = some x) : x.symbolId = id := by
  unfold TickBatch.tickAt at h
  simp only [Option.pure_def, Option.bind_eq_bind, Option.bind_eq_some_iff, Option.some.injEq] at h
  obtain ⟨_, -, _, -, _, -, _, -, _, -, _, -, rfl⟩ := h
  rfl

/-- The ticks under the ids that the dictionary gives their symbols, one after the other. -/
def SymbolDictionary.intern (dict : SymbolDictionary) :
    List SymbolTick → List Tick × SymbolDictionary
  | [] => ([], dict)
  | tick :: ticks =>
    let rest := (dict.getOrInsert tick.symbol).2.intern ticks
    (tick.toTick (dict.getOrInsert tick.symbol).1 :: rest.1, rest.2)

namespace LsmTree

/-- The tree with more ticks in its memtable. -/
def take (s : LsmTree) (ticks : List Tick) : LsmTree :=
  { s with memtable := s.memtable.insertAll ticks, totalRows := s.totalRows + ticks.length }

theorem take_take (s : LsmTree) (tick : Tick) (ticks : List Tick) :
    (s.take [tick]).take ticks = s.take (tick :: ticks) := by
  simp [take, SkipList.insertAll, Nat.add_comm, Nat.add_left_comm]

theorem batchLoop_of_some {batch : TickBatch} {symbolId : SymbolId} {count i : Nat}
    {ticks : List Tick}
    (h : (List.range' i count).mapM (fun i => batch.tickAt i symbolId) = some ticks)
    (s : LsmTree) (time : Nat) :
    batchLoop batch symbolId count i (s, time) = (.ok ticks, (s.take ticks, time)) := by
  induction count generalizing i ticks s with
  | zero =>
    cases h
    rfl
  | succ count ih =>
    rw [List.range'_succ, List.mapM_cons] at h
    obtain ⟨tick, htick, h⟩ := Option.bind_eq_some_iff.mp h
    obtain ⟨rest, hrest, h⟩ := Option.bind_eq_some_iff.mp h
    cases h
    unfold batchLoop
    rw [htick]
    refine (DiskM.bind_ok rfl _).trans ((DiskM.bind_ok rfl _).trans ?_)
    exact (DiskM.bind_ok (ih hrest (s.take [tick])) _).trans (by rw [take_take]; rfl)

/-- A loop that meets a row that is cut short has put in the rows before it. -/
theorem batchLoop_of_none {batch : TickBatch} {symbolId : SymbolId} {count i : Nat}
    (h : (List.range' i count).mapM (fun i => batch.tickAt i symbolId) = none)
    (s : LsmTree) (time : Nat) :
    ∃ rows, batchLoop batch symbolId count i (s, time) = (.error .panic, (s.take rows, time)) ∧
      (rows = [] ↔ batch.tickAt i symbolId = none) ∧ ∀ x ∈ rows, x.symbolId = symbolId := by
  induction count generalizing i s with
  | zero => cases h
  | succ count ih =>
    rw [List.range'_succ, List.mapM_cons] at h
    unfold batchLoop
    cases htick : batch.tickAt i symbolId with
    | none => exact ⟨[], rfl, iff_of_true rfl rfl, List.forall_mem_nil _⟩
    | some tick =>
      rw [htick] at h
      have hrest : (List.range' (i + 1) count).mapM (fun i => batch.tickAt i symbolId) = none := by
        cases hrest : (List.range' (i + 1) count).mapM (fun i => batch.tickAt i symbolId) with
        | none => rfl
        | some rest =>
          rw [hrest] at h
          cases h
      obtain ⟨rows, hrows, -, hids⟩ := ih hrest (s.take [tick])
      rw [take_take] at hrows
      refine ⟨tick :: rows, ?_, iff_of_false (List.cons_ne_nil _ _) (Option.some_ne_none _),
        List.forall_mem_cons.mpr ⟨TickBatch.symbolId_of_tickAt htick, hids⟩⟩
      exact (DiskM.bind_ok rfl _).trans ((DiskM.bind_ok rfl _).trans (DiskM.bind_error hrows _))

theorem multiLoop_eq (ticks : List SymbolTick) (s : LsmTree) (time : Nat) :
    multiLoop ticks (s, time) = (.ok (s.symbolDict.intern ticks).1,
      ((s.withDict (s.symbolDict.intern ticks).2).take (s.symbolDict.intern ticks).1, time)) := by
  induction ticks generalizing s with
  | nil => rfl
  | cons tick ticks ih =>
    unfold multiLoop
    refine (DiskM.bind_ok rfl _).trans ((DiskM.bind_ok rfl _).trans ((DiskM.bind_ok rfl _).trans ?_))
    refine (DiskM.bind_ok (ih _) _).trans ?_
    rw [SymbolDictionary.intern, ← take_take]
    rfl

theorem insertResolved_eq (ticks : List Tick) (s : LsmTree) (time : Nat) :
    insertResolved ticks (s, time) = (.ok (), (s.take ticks, time)) := by
  induction ticks generalizing s with
  | nil => rfl
  | cons tick ticks ih =>
    unfold insertResolved
    refine (DiskM.bind_ok rfl _).trans ((DiskM.bind_ok rfl _).trans ?_)
    exact (ih (s.take [tick])).trans (by rw [take_take])

end LsmTree

/-- A call that inserts ticks on a primary. -/
inductive InsertCall where
  | insert (symbol : String) (tick : Tick)
  | insertBatch (symbol : String) (batch : TickBatch)
  | insertMulti (ticks : List SymbolTick)
  deriving DecidableEq, Repr

namespace InsertCall
open LsmTree

def op (p : Platform) (c : Codec) (env : Env) : InsertCall → LsmOp Unit
  | insert symbol tick => LsmTree.insert p c env symbol tick
  | insertBatch symbol batch => LsmTree.insertBatch p c env symbol batch
  | insertMulti ticks => LsmTree.insertMulti p c env ticks

/-- Empty batches are done at once. -/
def isEmpty : InsertCall → Bool
  | insert _ _ => false
  | insertBatch _ batch => batch.len = 0
  | insertMulti ticks => ticks = []

/-- Only `insert` looks at the role. -/
def refused (role : NodeRole) : InsertCall → Bool
  | insert _ _ => role = .replica
  | insertBatch _ _ => false
  | insertMulti _ => false

/-- The ticks under their ids, and the dictionary with the new symbols; `none` when a
column of the batch is too short. -/
def stored (dict : SymbolDictionary) : InsertCall → Option (List Tick × SymbolDictionary)
  | insert symbol tick =>
    some ([tick.withSymbol (dict.getOrInsert symbol).1], (dict.getOrInsert symbol).2)
  | insertBatch symbol batch =>
    (batch.ticks (dict.getOrInsert symbol).1).map fun ticks => (ticks, (dict.getOrInsert symbol).2)
  | insertMulti ticks => some (dict.intern ticks)

/-- How the call appends its ticks to the log. -/
def log (c : Codec) (disk : Wal.Disk) (s : LsmTree) (ticks : List Tick) :
    InsertCall → Except (Stop WalError) Nat × Wal
  | insert symbol tick =>
    Wal.append c disk s.wal (.insert (tick.withSymbol (s.symbolDict.getOrInsert symbol).1))
  | insertBatch _ _ => Wal.appendBatch c disk s.wal (ticks.map .insert)
  | insertMulti _ => Wal.appendBatch c disk s.wal (ticks.map .insert)

/-- The part of a call up to the length of the memtable. -/
def store (c : Codec) (env : Env) : InsertCall → LsmOp Nat
  | insert symbol tick => storeTick c env symbol tick
  | insertBatch symbol batch => storeBatch c env symbol batch
  | insertMulti ticks => storeMulti c env ticks

/-- The ticks that are in the memtable when the call appends to the log. -/
def early (ticks : List Tick) : InsertCall → List Tick
  | insert _ _ => []
  | insertBatch _ _ => ticks
  | insertMulti _ => ticks

/-- The call stops before it has put a row into the memtable. -/
def stopsAtOnce : InsertCall → Bool
  | insert _ _ => true
  | insertBatch _ batch => (batch.tickAt 0 0).isNone
  | insertMulti _ => false

/-- The call gets its ticks into the memtable and the log. -/
structure Stores (c : Codec) (env : Env) (call : InsertCall) (s : LsmTree) (time : Nat)
    (ticks : List Tick) (dict : SymbolDictionary) : Prop where
  accepted : call.refused s.role = false
  nonempty : call.isEmpty = false
  stored : call.stored s.symbolDict = some (ticks, dict)
  logged : ∃ n, (call.log c (env.disk time) s ticks).1 = .ok n

/-- The tree behind the call's ticks. -/
def after (c : Codec) (env : Env) (call : InsertCall) (s : LsmTree) (time : Nat)
    (ticks : List Tick) (dict : SymbolDictionary) : LsmTree :=
  ((s.take ticks).withDict dict).withWal (call.log c (env.disk time) s ticks).2

/-- How a call ends: at once, with an error, or at the test of the flush threshold. -/
inductive Ends (c : Codec) (env : Env) (call : InsertCall) (s : LsmTree) (time : Nat) :
    Outcome Lock (LsmTree × Nat) (Except (Stop LsmError) Unit) → Prop
  | empty (h : call.refused s.role = false) (he : call.isEmpty = true) :
    Ends c env call s time (.finished (.ok ()) [] (s, time))
  | failed (h : ∀ ticks dict, ¬ Stores c env call s time ticks dict) (e : Stop LsmError)
    (st : LsmTree × Nat) : Ends c env call s time (.finished (.error e) [] st)
  | stored {ticks : List Tick} {dict : SymbolDictionary} (h : Stores c env call s time ticks dict)
    (hlt : (s.take ticks).memtable.len < s.flushThreshold) :
    Ends c env call s time (.finished (.ok ()) [] (call.after c env s time ticks dict, time + 1))
  | blocked {ticks : List Tick} {dict : SymbolDictionary} (h : Stores c env call s time ticks dict)
    (hle : s.flushThreshold ≤ (s.take ticks).memtable.len) (st : LsmTree × Nat) :
    Ends c env call s time (.blocked .symbolDict .read st)

end InsertCall

namespace LsmTree

/-- Below the threshold the call goes on; else the flush waits for the dictionary. -/
theorem exec_flushIfFull_in_call (p : Platform) (env : Env) {s : LsmTree} (time : Nat)
    (hne : s.memtable.chain ≠ []) (len : Nat) :
    (len < s.flushThreshold ∧ exec (flushIfFull p env len) [(.symbolDict, .write)] (s, time) =
      .finished (.ok ()) [(.symbolDict, .write)] (s, time)) ∨
    s.flushThreshold ≤ len ∧ ∃ time', exec (flushIfFull p env len) [(.symbolDict, .write)]
      (s, time) = .blocked .symbolDict .read ({ s with memtable := .new }, time') := by
  rw [flushIfFull, exec_bind_ok (exec_gets _ _ _)]
  rcases Nat.lt_or_ge len s.flushThreshold with hlt | hle
  · refine Or.inl ⟨hlt, ?_⟩
    rw [if_neg (by exact Nat.not_le.mpr hlt)]
    rfl
  · refine Or.inr ⟨hle, ?_⟩
    have hdrain : drainMemtable (s, time) =
        (.ok s.memtable.chain, ({ s with memtable := .new }, time)) := rfl
    rw [if_pos (by exact hle), flushMemtable,
      exec_bind_ok (exec_withGuard_attempt (by decide) hdrain), if_neg hne,
      exec_bind_ok (exec_attempt _ _ _)]
    exact ⟨_, exec_bind_blocked (exec_withGuard_conflict (by decide) _ _) _⟩

theorem onWal_ok {α : Type} {f : Nat → Wal → Except (Stop WalError) α × Wal} {s : LsmTree}
    {time : Nat} {a : α} (h : (f time s.wal).1 = .ok a) :
    onWal f (s, time) = (.ok a, (s.withWal (f time s.wal).2, time + 1)) := by
  rw [onWal, h]
  rfl

theorem onWal_error {α : Type} {f : Nat → Wal → Except (Stop WalError) α × Wal} {s : LsmTree}
    {time : Nat} {e : Stop WalError} (h : (f time s.wal).1 = .error e) :
    onWal f (s, time) = (.error (e.map .wal), (s.withWal (f time s.wal).2, time + 1)) := by
  rw [onWal, h]
  rfl

end LsmTree

namespace InsertCall
open LsmTree

variable {p : Platform} {c : Codec} {env : Env} {s : LsmTree} {time : Nat}

theorem op_eq (call : InsertCall) (p : Platform) (c : Codec) (env : Env) (s : LsmTree)
    (time : Nat) :
    exec (call.op p c env) [] (s, time) =
      if call.refused s.role then .finished (.error (.error (.replication .notPrimary))) [] (s, time)
      else if call.isEmpty then .finished (.ok ()) [] (s, time)
      else exec (withGuard .symbolDict .write do
        let memtableLen ← call.store c env
        flushIfFull p env memtableLen) [] (s, time) := by
  cases call with
  | insert symbol tick =>
    rw [op, LsmTree.insert, exec_bind_ok (exec_gets _ _ _)]
    by_cases hrole : s.role = .replica
    · rw [if_pos (by exact hrole), if_pos (by simpa [refused] using hrole), exec_throw]
    · rw [if_neg (by exact hrole), if_neg (by simpa [refused] using hrole)]
      rfl
  | insertBatch symbol batch =>
    have haccepted : ¬ refused s.role (insertBatch symbol batch) = true := Bool.false_ne_true
    rw [op, LsmTree.insertBatch, if_neg haccepted]
    by_cases hlen : batch.len = 0
    · rw [if_pos hlen, if_pos (by simp [isEmpty, hlen])]
      rfl
    · rw [if_neg hlen, if_neg (by simp [isEmpty, hlen])]
      rfl
  | insertMulti ticks =>
    have haccepted : ¬ refused s.role (insertMulti ticks) = true := Bool.false_ne_true
    rw [op, LsmTree.insertMulti, if_neg haccepted]
    by_cases hnil : ticks = []
    · rw [if_pos hnil, if_pos (by simp [isEmpty, hnil])]
      rfl
    · rw [if_neg hnil, if_neg (by simp [isEmpty, hnil])]
      rfl

theorem getOrInsert_eq (symbol : String) (s : LsmTree) (time : Nat) :
    getOrInsert symbol (s, time) = (.ok (s.symbolDict.getOrInsert symbol).1,
      (s.withDict (s.symbolDict.getOrInsert symbol).2, time)) := rfl

/-- The first row does not depend on the id. -/
theorem tickAt_eq_none_iff (batch : TickBatch) (i : Nat) (symbolId symbolId' : SymbolId) :
    batch.tickAt i symbolId = none ↔ batch.tickAt i symbolId' = none := by
  unfold TickBatch.tickAt
  cases batch.timestamps[i]? <;> cases batch.opens[i]? <;> cases batch.highs[i]? <;>
    cases batch.lows[i]? <;> cases batch.closes[i]? <;> cases batch.volumes[i]? <;> simp

/-- A batch with a column that is too short. -/
theorem exec_store_of_none (c : Codec) (env : Env) (time : Nat) {call : InsertCall}
    (h : call.stored s.symbolDict = none) :
    ∃ rows dict, s.symbolDict.idToSymbol <+: dict.idToSymbol ∧
      exec (call.store c env) [(.symbolDict, .write)] (s, time) =
        .finished (.error .panic) [(.symbolDict, .write)] ((s.withDict dict).take rows, time) ∧
      (rows = [] ↔ call.stopsAtOnce = true) ∧
      ∀ x ∈ rows, ∃ name, dict.getSymbol x.symbolId = some name := by
  cases call with
  | insert symbol tick => cases h
  | insertMulti ticks => cases h
  | insertBatch symbol batch =>
    have hticks : batch.ticks (s.symbolDict.getOrInsert symbol).1 = none :=
      Option.map_eq_none_iff.mp h
    obtain ⟨rows, hloop, hrows, hids⟩ :=
      batchLoop_of_none hticks (s.withDict (s.symbolDict.getOrInsert symbol).2) time
    refine ⟨rows, (s.symbolDict.getOrInsert symbol).2,
      s.symbolDict.prefix_getOrInsert symbol, ?_, ?_, fun x hx => ?_⟩
    · rw [store, storeBatch, exec_bind_ok (exec_attempt_of_eq (getOrInsert_eq symbol s time) _),
        exec_withGuard, if_neg (by decide), exec_bind_error (exec_attempt_of_eq hloop _)]
      rfl
    · rw [hrows, stopsAtOnce, Option.isNone_iff_eq_none, tickAt_eq_none_iff]
    · rw [hids x hx]
      exact s.symbolDict.known_getOrInsert symbol

variable {ticks : List Tick} {dict : SymbolDictionary}

/-- The log refuses the ticks. -/
theorem exec_store_of_error {call : InsertCall} (hstored : call.stored s.symbolDict = some (ticks, dict))
    {e : Stop WalError} (hlog : (call.log c (env.disk time) s ticks).1 = .error e) :
    exec (call.store c env) [(.symbolDict, .write)] (s, time) =
      .finished (.error (e.map .wal)) [(.symbolDict, .write)]
        (((s.withDict dict).take (call.early ticks)).withWal
          (call.log c (env.disk time) s ticks).2, time + 1) := by
  cases call with
  | insert symbol tick =>
    cases hstored
    have happend : appendWal c env (.insert (tick.withSymbol (s.symbolDict.getOrInsert symbol).1))
        (s.withDict (s.symbolDict.getOrInsert symbol).2, time) = (.error (e.map .wal), _) :=
      onWal_error hlog
    rw [store, storeTick, exec_bind_ok (exec_attempt_of_eq (getOrInsert_eq symbol s time) _),
      exec_bind_error (exec_withGuard_attempt (by decide) happend)]
    rfl
  | insertBatch symbol batch =>
    obtain ⟨_, hticks, heq⟩ := Option.map_eq_some_iff.mp hstored
    cases heq
    have hloop := batchLoop_of_some hticks (s.withDict (s.symbolDict.getOrInsert symbol).2) time
    have happend : appendWalBatch c env (ticks.map .insert)
        ((s.withDict (s.symbolDict.getOrInsert symbol).2).take ticks, time) =
          (.error (e.map .wal), _) := onWal_error hlog
    rw [store, storeBatch, exec_bind_ok (exec_attempt_of_eq (getOrInsert_eq symbol s time) _),
      exec_withGuard, if_neg (by decide), exec_bind_ok (exec_attempt_of_eq hloop _),
      exec_bind_error (exec_withGuard_attempt (by decide) happend)]
    rfl
  | insertMulti symbolTicks =>
    obtain rfl : (s.symbolDict.intern symbolTicks).1 = ticks :=
      congrArg Prod.fst (Option.some.inj hstored)
    obtain rfl : (s.symbolDict.intern symbolTicks).2 = dict :=
      congrArg Prod.snd (Option.some.inj hstored)
    have hloop := multiLoop_eq symbolTicks s time
    have happend : appendWalBatch c env ((s.symbolDict.intern symbolTicks).1.map .insert)
        ((s.withDict (s.symbolDict.intern symbolTicks).2).take (s.symbolDict.intern symbolTicks).1,
          time) = (.error (e.map .wal), _) := onWal_error hlog
    rw [store, storeMulti, exec_withGuard, if_neg (by decide),
      exec_bind_ok (exec_attempt_of_eq hloop _),
      exec_bind_error (exec_withGuard_attempt (by decide) happend)]
    rfl

/-- The ticks get into the memtable and the log. -/
theorem exec_store_of_ok {call : InsertCall} (hstored : call.stored s.symbolDict = some (ticks, dict))
    {n : Nat} (hlog : (call.log c (env.disk time) s ticks).1 = .ok n) :
    exec (call.store c env) [(.symbolDict, .write)] (s, time) =
      .finished (.ok (s.take ticks).memtable.len) [(.symbolDict, .write)]
        (call.after c env s time ticks dict, time + 1) := by
  cases call with
  | insert symbol tick =>
    cases hstored
    have happend : appendWal c env (.insert (tick.withSymbol (s.symbolDict.getOrInsert symbol).1))
        (s.withDict (s.symbolDict.getOrInsert symbol).2, time) = (.ok n, _) := onWal_ok hlog
    have hinsert (s₁ : LsmTree) (time₁ : Nat) (x : Tick) : insertMemtable x (s₁, time₁) =
        (.ok (), ({ s₁ with memtable := s₁.memtable.insert x }, time₁)) := rfl
    rw [store, storeTick, exec_bind_ok (exec_attempt_of_eq (getOrInsert_eq symbol s time) _),
      exec_bind_ok (exec_withGuard_attempt (by decide) happend),
      exec_bind_ok (exec_withGuard_attempt (by decide) (hinsert _ _ _)),
      exec_bind_ok (exec_attempt _ _ _), exec_withGuard_gets (by decide)]
    rfl
  | insertBatch symbol batch =>
    obtain ⟨_, hticks, heq⟩ := Option.map_eq_some_iff.mp hstored
    cases heq
    have hloop := batchLoop_of_some hticks (s.withDict (s.symbolDict.getOrInsert symbol).2) time
    have happend : appendWalBatch c env (ticks.map .insert)
        ((s.withDict (s.symbolDict.getOrInsert symbol).2).take ticks, time) = (.ok n, _) :=
      onWal_ok hlog
    rw [store, storeBatch, exec_bind_ok (exec_attempt_of_eq (getOrInsert_eq symbol s time) _),
      exec_withGuard, if_neg (by decide), exec_bind_ok (exec_attempt_of_eq hloop _),
      exec_bind_ok (exec_withGuard_attempt (by decide) happend)]
    rfl
  | insertMulti symbolTicks =>
    obtain rfl : (s.symbolDict.intern symbolTicks).1 = ticks :=
      congrArg Prod.fst (Option.some.inj hstored)
    obtain rfl : (s.symbolDict.intern symbolTicks).2 = dict :=
      congrArg Prod.snd (Option.some.inj hstored)
    have hloop := multiLoop_eq symbolTicks s time
    have happend : appendWalBatch c env ((s.symbolDict.intern symbolTicks).1.map .insert)
        ((s.withDict (s.symbolDict.intern symbolTicks).2).take (s.symbolDict.intern symbolTicks).1,
          time) = (.ok n, _) := onWal_ok hlog
    rw [store, storeMulti, exec_withGuard, if_neg (by decide),
      exec_bind_ok (exec_attempt_of_eq hloop _),
      exec_bind_ok (exec_withGuard_attempt (by decide) happend)]
    rfl

/-- A call that is not empty has a tick to store. -/
theorem stored_ne_nil {call : InsertCall} (hstored : call.stored s.symbolDict = some (ticks, dict))
    (hne : call.isEmpty = false) : ticks ≠ [] := by
  rintro rfl
  cases call with
  | insert symbol tick => cases hstored
  | insertBatch symbol batch =>
    obtain ⟨_, hticks, heq⟩ := Option.map_eq_some_iff.mp hstored
    cases heq
    have hlen : batch.len ≠ 0 := by simpa [isEmpty] using hne
    obtain ⟨n, hn⟩ := Nat.exists_eq_succ_of_ne_zero hlen
    rw [TickBatch.ticks, hn, List.range'_succ, List.mapM_cons] at hticks
    obtain ⟨tick, -, hticks⟩ := Option.bind_eq_some_iff.mp hticks
    obtain ⟨rest, -, hticks⟩ := Option.bind_eq_some_iff.mp hticks
    cases hticks
  | insertMulti symbolTicks =>
    cases symbolTicks with
    | nil => simp [isEmpty] at hne
    | cons tick symbolTicks => simp [stored, SymbolDictionary.intern] at hstored

theorem exec_guarded_error {x : LsmOp Nat} {e : Stop LsmError} {st : LsmTree × Nat}
    (h : exec x [(.symbolDict, .write)] (s, time) = .finished (.error e) [(.symbolDict, .write)] st)
    (f : Nat → LsmOp Unit) :
    exec (withGuard .symbolDict .write (x >>= f)) [] (s, time) = .finished (.error e) [] st := by
  rw [exec_withGuard, if_neg (by decide), exec_bind_error h]
  rfl

/-- How a call on a tree that nobody else uses ends. -/
theorem ends (p : Platform) (c : Codec) (env : Env) (call : InsertCall) (s : LsmTree)
    (time : Nat) : call.Ends c env s time (exec (call.op p c env) [] (s, time)) := by
  rw [op_eq]
  split_ifs with hrefused hempty
  · refine .failed (fun ticks dict h => ?_) _ _
    rw [h.accepted] at hrefused
    cases hrefused
  · exact .empty (by simpa using hrefused) hempty
  cases hstored : call.stored s.symbolDict with
  | none =>
    obtain ⟨rows, dict, -, hexec, -⟩ := exec_store_of_none c env time hstored
    rw [exec_guarded_error hexec]
    refine .failed (fun ticks dict h => ?_) _ _
    rw [h.stored] at hstored
    cases hstored
  | some p =>
    obtain ⟨ticks, dict⟩ := p
    cases hlog : (call.log c (env.disk time) s ticks).1 with
    | error e =>
      rw [exec_guarded_error (exec_store_of_error hstored hlog)]
      refine .failed (fun ticks' dict' h => ?_) _ _
      obtain ⟨n, hn⟩ := h.logged
      have hsame := h.stored.symm.trans hstored
      cases hsame
      rw [hn] at hlog
      cases hlog
    | ok n =>
      have hstores : call.Stores c env s time ticks dict :=
        ⟨by simpa using hrefused, by simpa using hempty, hstored, n, hlog⟩
      have hchain : (call.after c env s time ticks dict).memtable.chain ≠ [] :=
        SkipList.chain_insertAll_ne_nil s.memtable (stored_ne_nil hstored hstores.nonempty)
      rw [exec_withGuard, if_neg (by decide), exec_bind_ok (exec_store_of_ok hstored hlog)]
      rcases exec_flushIfFull_in_call _ env (time + 1) hchain (s.take ticks).memtable.len with
        ⟨hlt, h⟩ | ⟨hle, time', h⟩
      · rw [h]
        exact .stored hstores hlt
      · rw [h]
        exact .blocked hstores hle _

/-- Ticks are in the memtable before the log, but for the single insert. -/
theorem early_eq_nil_iff {call : InsertCall} (hstored : call.stored s.symbolDict = some (ticks, dict))
    (hne : call.isEmpty = false) : call.early ticks = [] ↔ call.stopsAtOnce = true := by
  have hticks := stored_ne_nil hstored hne
  cases call with
  | insert symbol tick => exact iff_of_true rfl rfl
  | insertMulti symbolTicks => exact iff_of_false hticks Bool.false_ne_true
  | insertBatch symbol batch =>
    refine iff_of_false hticks ?_
    obtain ⟨_, hrows, heq⟩ := Option.map_eq_some_iff.mp hstored
    cases heq
    have hlen : batch.len ≠ 0 := by simpa [isEmpty] using hne
    obtain ⟨n, hn⟩ := Nat.exists_eq_succ_of_ne_zero hlen
    rw [TickBatch.ticks, hn, List.range'_succ, List.mapM_cons] at hrows
    obtain ⟨tick, htick, -⟩ := Option.bind_eq_some_iff.mp hrows
    rw [stopsAtOnce, Option.isNone_iff_eq_none,
      tickAt_eq_none_iff batch 0 0 (s.symbolDict.getOrInsert symbol).1, htick]
    exact Option.some_ne_none tick

/-- The ticks of the call under the ids that it gives their symbols. -/
def rows (dict : SymbolDictionary) (call : InsertCall) : List Tick :=
  ((call.stored dict).map Prod.fst).getD []

/-- The call puts all its ticks into a memtable that they do not fill, or stops before the
first one. -/
def clean (c : Codec) (env : Env) (s : LsmTree) (time : Nat) (call : InsertCall) : Bool :=
  call.refused s.role || call.isEmpty || match call.stored s.symbolDict with
    | none => call.stopsAtOnce
    | some (ticks, _) => match (call.log c (env.disk time) s ticks).1 with
      | .ok _ => (s.take ticks).memtable.len < s.flushThreshold
      | .error _ => call.stopsAtOnce

/-- The symbols of the rows are in the dictionary. -/
def Known (dict : SymbolDictionary) (rows : List Tick) : Prop :=
  ∀ x ∈ rows, ∃ name, dict.getSymbol x.symbolId = some name

theorem known_mono {d e : SymbolDictionary} (h : d.idToSymbol <+: e.idToSymbol)
    {rows : List Tick} (hrows : Known d rows) : Known e rows := by
  intro x hx
  obtain ⟨name, hname⟩ := hrows x hx
  exact ⟨name, SymbolDictionary.getSymbol_of_grown h hname⟩

theorem symbolId_of_ticks {batch : TickBatch} {id : SymbolId} (h : batch.ticks id = some ticks) :
    ∀ x ∈ ticks, x.symbolId = id := by
  unfold TickBatch.ticks at h
  generalize List.range' 0 batch.len = rows at h
  induction rows generalizing ticks with
  | nil =>
    cases h
    exact List.forall_mem_nil _
  | cons i rows ih =>
    rw [List.mapM_cons] at h
    obtain ⟨x, hx, h⟩ := Option.bind_eq_some_iff.mp h
    obtain ⟨rest, hrest, h⟩ := Option.bind_eq_some_iff.mp h
    cases h
    exact List.forall_mem_cons.mpr ⟨TickBatch.symbolId_of_tickAt hx, ih hrest⟩

theorem intern_spec (dict : SymbolDictionary) (ticks : List SymbolTick) :
    dict.idToSymbol <+: (dict.intern ticks).2.idToSymbol ∧
      Known (dict.intern ticks).2 (dict.intern ticks).1 := by
  induction ticks generalizing dict with
  | nil => exact ⟨List.prefix_rfl, fun x hx => by cases hx⟩
  | cons tick ticks ih =>
    obtain ⟨hgrown, hknown⟩ := ih (dict.getOrInsert tick.symbol).2
    refine ⟨(dict.prefix_getOrInsert tick.symbol).trans hgrown, fun x hx => ?_⟩
    rcases List.mem_cons.mp hx with rfl | hx
    · obtain ⟨name, hname⟩ := dict.known_getOrInsert tick.symbol
      exact ⟨name, SymbolDictionary.getSymbol_of_grown hgrown hname⟩
    · exact hknown x hx

/-- Ticks whose symbols are known keep their ids. -/
theorem intern_of_grown {d e : SymbolDictionary} {ticks : List SymbolTick}
    (h : (d.intern ticks).2.idToSymbol <+: e.idToSymbol) :
    e.intern ticks = ((d.intern ticks).1, e) := by
  induction ticks generalizing d with
  | nil => rfl
  | cons tick ticks ih =>
    have hfirst := (intern_spec (d.getOrInsert tick.symbol).2 ticks).1.trans h
    rw [SymbolDictionary.intern, SymbolDictionary.intern,
      SymbolDictionary.getOrInsert_of_grown hfirst, ih h]

theorem stored_spec {call : InsertCall} (h : call.stored s.symbolDict = some (ticks, dict)) :
    s.symbolDict.idToSymbol <+: dict.idToSymbol ∧ Known dict ticks := by
  cases call with
  | insert symbol tick =>
    cases h
    refine ⟨s.symbolDict.prefix_getOrInsert symbol, ?_⟩
    rintro x (_ | ⟨_, ⟨⟩⟩)
    exact s.symbolDict.known_getOrInsert symbol
  | insertBatch symbol batch =>
    obtain ⟨_, hticks, heq⟩ := Option.map_eq_some_iff.mp h
    cases heq
    refine ⟨s.symbolDict.prefix_getOrInsert symbol, fun x hx => ?_⟩
    rw [symbolId_of_ticks hticks x hx]
    exact s.symbolDict.known_getOrInsert symbol
  | insertMulti symbolTicks =>
    obtain rfl : (s.symbolDict.intern symbolTicks).1 = ticks :=
      congrArg Prod.fst (Option.some.inj h)
    obtain rfl : (s.symbolDict.intern symbolTicks).2 = dict :=
      congrArg Prod.snd (Option.some.inj h)
    exact intern_spec s.symbolDict symbolTicks

theorem rows_of_isEmpty {call : InsertCall} (h : call.isEmpty = true) (dict : SymbolDictionary) :
    call.rows dict = [] := by
  cases call with
  | insert symbol tick => cases h
  | insertBatch symbol batch =>
    have hlen : batch.len = 0 := by simpa [isEmpty] using h
    simp [rows, stored, TickBatch.ticks, hlen]
  | insertMulti ticks =>
    obtain rfl : ticks = [] := by simpa [isEmpty] using h
    rfl

/-- What a clean call leaves: all its rows, or none of them when it fails. -/
theorem settles (p : Platform) {call : InsertCall} (h : call.clean c env s time = true) :
    ∃ r dict rows wal time', exec (call.op p c env) [] (s, time) =
        .finished r [] (((s.withDict dict).take rows).withWal wal, time') ∧
      s.symbolDict.idToSymbol <+: dict.idToSymbol ∧ Known dict rows ∧
      ((r = .ok () ∧ rows = call.rows s.symbolDict) ∨ ((∃ e, r = .error e) ∧ rows = [])) := by
  have hnone (dict : SymbolDictionary) : Known dict [] := List.forall_mem_nil _
  rw [op_eq]
  by_cases hrefused : call.refused s.role = true
  · rw [if_pos hrefused]
    exact ⟨_, s.symbolDict, [], s.wal, time, rfl, List.prefix_rfl, hnone _, Or.inr ⟨⟨_, rfl⟩, rfl⟩⟩
  rw [if_neg hrefused]
  by_cases hempty : call.isEmpty = true
  · rw [if_pos hempty]
    exact ⟨_, s.symbolDict, [], s.wal, time, rfl, List.prefix_rfl, hnone _,
      Or.inl ⟨rfl, (rows_of_isEmpty hempty s.symbolDict).symm⟩⟩
  rw [if_neg hempty]
  rw [clean, Bool.eq_false_iff.mpr hrefused, Bool.eq_false_iff.mpr hempty, Bool.false_or,
    Bool.false_or] at h
  cases hstored : call.stored s.symbolDict with
  | none =>
    rw [hstored] at h
    obtain ⟨rows, dict, hgrown, hexec, hrows, -⟩ := exec_store_of_none c env time hstored
    obtain rfl := hrows.mpr h
    rw [exec_guarded_error hexec]
    exact ⟨_, dict, [], s.wal, time, rfl, hgrown, hnone _, Or.inr ⟨⟨_, rfl⟩, rfl⟩⟩
  | some st =>
    obtain ⟨ticks, dict⟩ := st
    obtain ⟨hgrown, hknown⟩ := stored_spec hstored
    rw [hstored] at h
    dsimp only at h
    cases hlog : (call.log c (env.disk time) s ticks).1 with
    | error e =>
      rw [hlog] at h
      have hearly : call.early ticks = [] :=
        (early_eq_nil_iff hstored (Bool.eq_false_iff.mpr hempty)).mpr h
      rw [exec_guarded_error (exec_store_of_error hstored hlog), hearly]
      exact ⟨_, dict, [], _, _, rfl, hgrown, hnone _, Or.inr ⟨⟨_, rfl⟩, rfl⟩⟩
    | ok n =>
      rw [hlog] at h
      have hlt : (s.take ticks).memtable.len < s.flushThreshold := by simpa using h
      have hne : (call.after c env s time ticks dict).memtable.chain ≠ [] :=
        SkipList.chain_insertAll_ne_nil s.memtable
          (stored_ne_nil hstored (Bool.eq_false_iff.mpr hempty))
      rw [exec_withGuard, if_neg (by decide), exec_bind_ok (exec_store_of_ok hstored hlog)]
      rcases exec_flushIfFull_in_call p env (time + 1) hne (s.take ticks).memtable.len with
        ⟨-, h'⟩ | ⟨hle, -⟩
      · rw [h']
        refine ⟨_, dict, ticks, _, _, rfl, hgrown, hknown, Or.inl ⟨rfl, ?_⟩⟩
        rw [rows, hstored]
        rfl
      · exact absurd hlt (Nat.not_lt.mpr hle)

/-- What any call leaves: some rows with known symbols are in, and where it waits for the
dictionary, the flush it started has drained the memtable. -/
theorem leaves (p : Platform) (c : Codec) (env : Env) (call : InsertCall) (s : LsmTree)
    (time : Nat) :
    ∃ dict rows wal, s.symbolDict.idToSymbol <+: dict.idToSymbol ∧ Known dict rows ∧
      ((exec (call.op p c env) [] (s, time)).state.1 = ((s.withDict dict).take rows).withWal wal ∨
        (exec (call.op p c env) [] (s, time)).state.1 =
          { ((s.withDict dict).take rows).withWal wal with memtable := .new }) := by
  have hnone (dict : SymbolDictionary) : Known dict [] := List.forall_mem_nil _
  rw [op_eq]
  split_ifs with hrefused hempty
  · exact ⟨s.symbolDict, [], s.wal, List.prefix_rfl, hnone _, Or.inl rfl⟩
  · exact ⟨s.symbolDict, [], s.wal, List.prefix_rfl, hnone _, Or.inl rfl⟩
  cases hstored : call.stored s.symbolDict with
  | none =>
    obtain ⟨rows, dict, hgrown, hexec, -, hknown⟩ := exec_store_of_none c env time hstored
    rw [exec_guarded_error hexec]
    exact ⟨dict, rows, s.wal, hgrown, hknown, Or.inl rfl⟩
  | some pair =>
    obtain ⟨ticks, dict⟩ := pair
    obtain ⟨hgrown, hknown⟩ := stored_spec hstored
    cases hlog : (call.log c (env.disk time) s ticks).1 with
    | error e =>
      rw [exec_guarded_error (exec_store_of_error hstored hlog)]
      refine ⟨dict, call.early ticks, _, hgrown, ?_, Or.inl rfl⟩
      cases call
      · exact hnone dict
      · exact hknown
      · exact hknown
    | ok n =>
      have hchain : (call.after c env s time ticks dict).memtable.chain ≠ [] :=
        SkipList.chain_insertAll_ne_nil s.memtable
          (stored_ne_nil hstored (Bool.eq_false_iff.mpr hempty))
      refine ⟨dict, ticks, (call.log c (env.disk time) s ticks).2, hgrown, hknown, ?_⟩
      rw [exec_withGuard, if_neg (by decide), exec_bind_ok (exec_store_of_ok hstored hlog)]
      rcases exec_flushIfFull_in_call p env (time + 1) hchain (s.take ticks).memtable.len with
        ⟨-, h⟩ | ⟨-, time', h⟩
      · rw [h]
        exact Or.inl rfl
      · rw [h]
        exact Or.inr rfl

end InsertCall

/-- A tick with zero prices. -/
def flatTick (symbolId : SymbolId) (timestamp : TimestampNs) (volume : UInt64) : Tick :=
  ⟨symbolId, timestamp, ⟨0⟩, ⟨0⟩, ⟨0⟩, ⟨0⟩, volume⟩

/-- The text serde writes for the insert of a tick with zero prices. -/
def insertText (t : Tick) : BigEndian.Bytes :=
  asBytes ("\x7b\"Insert\":\x7b\"symbol_id\":" ++ toString t.symbolId.toNat ++ ",\"timestamp\":" ++
    toString t.timestamp.toInt ++ ",\"open\":0.0,\"high\":0.0,\"low\":0.0,\"close\":0.0,\"volume\":" ++
    toString t.volume.toNat ++ "\x7d\x7d")

/-- A codec for the inserts of these ticks with zero prices. -/
def Codec.forTicks (known : List Tick) : Codec where
  toVec record := if (known.map WalRecord.insert).contains record then
    match record with
    | .insert t => .ok (insertText t)
    | _ => .error "unsupported"
    else .error "unsupported"
  fromSlice bs := match known.find? fun t => insertText t = bs with
    | some t => .ok (.insert t)
    | none => .error "expected value"
  crc32 := Wal.crc32

example : (Codec.forTicks [flatTick 0 5 1]).fromSlice (insertText (flatTick 0 5 1)) =
    .ok (.insert (flatTick 0 5 1)) := by decide +kernel

end Graphite
