import Graphite.LsmTrace

/-! Where an acknowledged tick is kept while write calls and flushes of several threads
interleave. A flush drains the memtable first and cuts the log off last; what is appended to
the log in between, or has not reached the memtable when it is drained, is in no table
when the log is cut off. -/

namespace Graphite
open BigEndian KeyedRows LockProgram GuardedRuns

section Operations
open LsmTree

variable {c : Codec} {jobs : List Job} {i : Nat} {γ : (LsmTree × Nat) × Trace} {job : Job}
  {ticks : List Tick} {p : Platform} {env : Env}

/-- A thread may always take a quiet action. -/
theorem safe_quiet {α : Type} {f : LsmTree × Nat → Except (Stop LsmError) α × (LsmTree × Nat)}
    {post : Except (Stop LsmError) α → (LsmTree × Nat) × Trace → Prop}
    (hquiet : ∀ st : LsmTree × Nat, Quiet st.1 (f st).2.1)
    (hpost : ∀ γ', Relies i γ γ' → post (f γ'.1).1 ((f γ'.1).2, γ'.2)) :
    (keepsDurable c jobs).SafeOp i post (attempt f : LsmOp α) γ :=
  Discipline.safe_attempt fun γ' hrely hinv => moves_quiet hinv (hquiet γ'.1) (hpost γ' hrely)

theorem quiet_refl (s : LsmTree) : Quiet s s := ⟨rfl, List.prefix_rfl, fun _ => id, id⟩

theorem quiet_take (s : LsmTree) (ticks : List Tick) : Quiet s (s.take ticks) := by
  refine ⟨rfl, List.prefix_rfl, fun _ => id, fun h => ?_⟩
  by_cases hticks : ticks = []
  · rw [hticks] at h
    exact h
  · exact absurd h (s.memtable.chain_insertAll_ne_nil hticks)

theorem quiet_insertMemtable (x : Tick) (st : LsmTree × Nat) :
    Quiet st.1 (insertMemtable x st).2.1 :=
  ⟨rfl, List.prefix_rfl, fun _ => id, fun h => absurd h
    (List.ne_nil_of_length_pos (SkipList.length_insertRow_pos x st.1.memtable.chain))⟩

/-- Writing a table changes no part of the tree. -/
theorem writeTable_spec (p : Platform) (env : Env) (path : String) (ticks : List Tick) (dict : SymbolDictionary)
    (st : LsmTree × Nat) :
    (writeTable p env LsmError.ssTable path ticks 0 dict st).2 = (st.1, st.2 + 1) ∧
      ∀ t, (writeTable p env LsmError.ssTable path ticks 0 dict st).1 = .ok t → t.rows = ticks := by
  rw [writeTable, DiskM.bind_apply]
  cases hio : env.io st.2 with
  | false =>
    simp only [fileOp, hio, Bool.false_eq_true, if_false]
    exact ⟨trivial, fun t ht => by cases ht⟩
  | true =>
    simp only [fileOp, hio, if_true]
    cases SsTable.write p path ticks 0 dict with
    | none => exact ⟨rfl, fun t ht => by cases ht⟩
    | some w =>
      refine ⟨rfl, fun t ht => ?_⟩
      cases ht
      rfl

theorem truncate_spec (cut synced : Bool) (w : Wal) :
    (Wal.truncate cut synced w).2.sequence = w.sequence := by
  unfold Wal.truncate
  split_ifs <;> rfl

theorem Drained.register {t : Table} {γ' : (LsmTree × Nat) × Trace} (h : Drained i t.rows γ)
    (hlevels : γ.1.1.compaction.levels ≠ []) (htree : γ'.1.1 = γ.1.1.register t)
    (htrace : γ'.2 = γ.2) : Drained i [] γ' := by
  refine ⟨by rw [htrace]; exact h.1, fun x hx => Or.inr ?_⟩
  rw [htrace] at hx
  rw [htree]
  rcases h.2 x hx with hrow | htable
  · exact ⟨t, (mem_storageOrder_register hlevels).mpr (Or.inr rfl), hrow⟩
  · exact htable.mono fun t' ht' => (mem_storageOrder_register hlevels).mpr (Or.inl ht')

/-- The last part of a flush: the table is registered, then the log is cut off. -/
theorem safe_register {t : Table} (hdrained : Drained i t.rows γ) :
    (keepsDurable c jobs).SafeOp i (fun _ _ => True) (do
      withGuard .compaction .write (attempt (addToLevel0 t))
      withGuard .wal .write (attempt (truncateWal env)) : LsmOp Unit) γ := by
  refine Discipline.safe_bind (Discipline.safe_withGuard (Discipline.safe_attempt ?_))
  rintro ⟨⟨s₁, time₁⟩, g₁⟩ hrely₁ hinv₁
  have hdrained₁ := hdrained.stable hrely₁
  by_cases hlevels : s₁.compaction.levels = []
  · have hadd : addToLevel0 t (s₁, time₁) = (.error .panic, (s₁, time₁)) := by
      simp only [addToLevel0, hlevels]
    rw [hadd]
    exact moves_quiet hinv₁ (quiet_refl s₁) trivial
  · rw [addToLevel0_eq hlevels]
    have hquiet : Quiet s₁ (s₁.register t) :=
      ⟨rfl, List.prefix_rfl, fun x hx => (mem_storageOrder_register hlevels).mpr (Or.inl hx), id⟩
    refine moves_quiet hinv₁ hquiet (Discipline.safe_withGuard (Discipline.safe_attempt ?_))
    rintro ⟨⟨s₂, time₂⟩, g₂⟩ hrely₂ -
    have hregistered : Drained i [] ((s₁.register t, time₁), g₁) :=
      hdrained₁.register hlevels rfl rfl
    rw [truncateWal_eq]
    exact moves_truncate (hregistered.stable hrely₂) (fun _ => trivial) (truncate_spec _ _ _)

/-- A flush, whatever the others do. -/
theorem safe_flushMemtable :
    (keepsDurable c jobs).SafeOp i (fun _ _ => True) (flushMemtable p env) γ := by
  refine Discipline.safe_bind (Discipline.safe_withGuard (Discipline.safe_attempt ?_))
  rintro ⟨⟨s₁, time₁⟩, g₁⟩ hrely₁ hinv₁
  rw [drainMemtable_eq]
  refine (moves_drain hinv₁).mono fun hdrained => ?_
  dsimp only at hdrained ⊢
  split_ifs with hchain
  · exact Discipline.safe_pure trivial
  have hdrained := hdrained.resolve_left hchain
  refine Discipline.safe_bind (safe_quiet (fun st => quiet_refl st.1) fun γ₂ hrely₂ => ?_)
  have hdrained₂ := hdrained.stable hrely₂
  refine Discipline.safe_bind (Discipline.safe_withGuard (Discipline.safe_gets
    fun γ₃ hrely₃ _ => ?_))
  have hdrained₂' : Drained i s₁.memtable.chain ((γ₂.1.1, γ₂.1.2 + 1), γ₂.2) := hdrained₂
  have hdrained₃ := hdrained₂'.stable hrely₃
  refine Discipline.safe_bind (safe_quiet (fun st => ?_) fun γ₄ hrely₄ => ?_)
  · rw [(writeTable_spec p env _ _ _ st).1]
    exact quiet_refl st.1
  have hdrained₄ := hdrained₃.stable hrely₄
  obtain ⟨hstate, hrows⟩ := writeTable_spec p env (tableName 0 (env.now γ₂.1.2)) s₁.memtable.chain
    γ₃.1.1.symbolDict γ₄.1
  rw [hstate]
  cases hwrite : (writeTable p env LsmError.ssTable (tableName 0 (env.now γ₂.1.2))
      s₁.memtable.chain 0 γ₃.1.1.symbolDict γ₄.1).1 with
  | error e => exact trivial
  | ok t =>
    have hwritten : Drained i t.rows ((γ₄.1.1, γ₄.1.2 + 1), γ₄.2) := by
      rw [hrows t hwrite]
      exact hdrained₄
    exact safe_register hwritten

theorem safe_flushIfFull (len : Nat) :
    (keepsDurable c jobs).SafeOp i (fun _ _ => True) (flushIfFull p env len) γ := by
  refine Discipline.safe_bind (Discipline.safe_gets fun γ' _ _ => ?_)
  dsimp only
  split_ifs
  · exact safe_flushMemtable
  · exact Discipline.safe_pure trivial

/-- A call to append the job's ticks. -/
theorem safe_onWal {f : Nat → Wal → Except (Stop WalError) Nat × Wal} (hjob : jobs[i]? = some job)
    (hfixed : job.Fixed ticks γ.1.1.symbolDict)
    (hf : ∀ time w, ∃ m, Wal.Progress c w (f time w).2 (ticks.map .insert) m ∧
      ∀ n, (f time w).1 = .ok n → m = ticks.length) :
    (keepsDurable c jobs).SafeOp i (fun r γ' => ∀ n, r = .ok n → Logged jobs i γ')
      (attempt (onWal f) : LsmOp Nat) γ := by
  refine Discipline.safe_attempt ?_
  rintro ⟨⟨s₁, time₁⟩, g₁⟩ hrely hinv
  obtain ⟨m, hprogress, hok⟩ := hf time₁ s₁.wal
  have hfixed₁ : job.Fixed ticks s₁.symbolDict := hfixed.mono hrely.grows.1
  refine (moves_append hinv hjob hfixed₁ hprogress).mono fun hlogged n hn => hlogged.2 (hok n ?_)
  rw [onWal] at hn
  cases hresult : (f time₁ s₁.wal).1 with
  | error e =>
    rw [hresult] at hn
    cases hn
  | ok n' =>
    rw [hresult] at hn
    cases hn
    rfl

/-- A batch of the job's ticks goes to the log. -/
theorem safe_logBatch (hjob : jobs[i]? = some job) (hfixed : job.Fixed ticks γ.1.1.symbolDict) :
    (keepsDurable c jobs).SafeOp i (fun r γ' => ∀ n, r = .ok n → Logged jobs i γ')
      (withGuard .wal .write (attempt (appendWalBatch c env (ticks.map .insert))) : LsmOp Nat) γ := by
  refine Discipline.safe_withGuard (safe_onWal hjob hfixed fun time w => ?_)
  obtain ⟨m, -, hprogress, hok⟩ := Wal.progress_appendBatch c (env.disk time) w
    (ticks.map .insert)
  rw [List.length_map] at hok
  exact ⟨m, hprogress, hok⟩

/-- What comes after the append does not undo it. -/
theorem safe_after_log {α : Type} {x : LsmOp α}
    (h : (keepsDurable c jobs).SafeOp i (fun _ _ => True) x γ) (hlogged : Logged jobs i γ) :
    (keepsDurable c jobs).SafeOp i (fun r γ' => ∀ a, r = .ok a → Logged jobs i γ') x γ :=
  Discipline.Safe.mono (fun _ _ h _ _ => h.2) (h.keep (fun _ _ => Logged.mono) hlogged)

/-- The part of an insert call up to the test of the threshold. -/
theorem safe_store {call : InsertCall} (hjob : jobs[i]? = some (.write (.insertion call))) :
    (keepsDurable c jobs).SafeOp i (fun r γ' => ∀ n, r = .ok n → Logged jobs i γ')
      (call.store c env) γ := by
  have hintern (symbol : String) (st : LsmTree × Nat) :
      Quiet st.1 (getOrInsert symbol st).2.1 :=
    ⟨rfl, st.1.symbolDict.prefix_getOrInsert symbol, fun _ => id, id⟩
  cases call with
  | insert symbol tick =>
    refine Discipline.safe_bind (safe_quiet (hintern symbol) fun γ₁ _ => ?_)
    have hfixed : Job.Fixed (.write (.insertion (.insert symbol tick)))
        [tick.withSymbol (γ₁.1.1.symbolDict.getOrInsert symbol).1]
        (γ₁.1.1.symbolDict.getOrInsert symbol).2 := InsertCall.fixed_of_stored rfl
    refine Discipline.safe_bind (Discipline.safe_withGuard (Discipline.Safe.mono ?_
      (safe_onWal hjob hfixed fun time w => Wal.progress_append c _ w _)))
    rintro (e | n) γ₂ hlogged
    · exact fun _ h => by cases h
    have hrest : (keepsDurable c jobs).SafeOp i (fun _ _ => True) (do
        withGuard .memtable .write (attempt (insertMemtable
          (tick.withSymbol (γ₁.1.1.symbolDict.getOrInsert symbol).1)))
        attempt countRow
        withGuard .memtable .read (gets fun st => st.1.memtable.len) : LsmOp Nat) γ₂ := by
      refine Discipline.safe_bind (Discipline.safe_withGuard (safe_quiet (fun st => ?_) fun _ _ => ?_))
      · exact quiet_insertMemtable _ st
      refine Discipline.safe_bind (safe_quiet (fun st => ?_) fun _ _ => ?_)
      · exact ⟨rfl, List.prefix_rfl, fun _ => id, id⟩
      exact Discipline.safe_withGuard (Discipline.safe_gets fun _ _ _ => trivial)
    exact safe_after_log hrest (hlogged n rfl)
  | insertBatch symbol batch =>
    refine Discipline.safe_bind (safe_quiet (hintern symbol) fun γ₁ _ => ?_)
    refine Discipline.safe_withGuard ?_
    cases hticks : batch.ticks (γ₁.1.1.symbolDict.getOrInsert symbol).1 with
    | none =>
      refine Discipline.safe_bind (safe_quiet (fun st => ?_) fun γ₂ _ => ?_)
      · obtain ⟨rows, hloop, -⟩ := batchLoop_of_none hticks st.1 st.2
        rw [hloop]
        exact quiet_take st.1 rows
      · obtain ⟨rows, hloop, -⟩ := batchLoop_of_none hticks γ₂.1.1 γ₂.1.2
        rw [hloop]
        exact fun _ h => by cases h
    | some ticks =>
      have hfixed : Job.Fixed (.write (.insertion (.insertBatch symbol batch))) ticks
          (γ₁.1.1.symbolDict.getOrInsert symbol).2 := by
        refine InsertCall.fixed_of_stored (d := γ₁.1.1.symbolDict) ?_
        rw [InsertCall.stored, hticks]
        rfl
      have hloop (st : LsmTree × Nat) := batchLoop_of_some hticks st.1 st.2
      refine Discipline.safe_bind (safe_quiet (fun st => ?_) fun γ₂ hrely₂ => ?_)
      · rw [hloop]
        exact quiet_take st.1 ticks
      rw [hloop]
      refine Discipline.safe_bind (Discipline.Safe.mono ?_
        (safe_logBatch hjob (hfixed.mono hrely₂.grows.1)))
      rintro (e | n) γ₃ hlogged
      · exact fun _ h => by cases h
      · exact safe_after_log (Discipline.safe_gets fun _ _ _ => trivial) (hlogged n rfl)
  | insertMulti symbolTicks =>
    refine Discipline.safe_withGuard (Discipline.safe_bind (safe_quiet (fun st => ?_)
      fun γ₁ _ => ?_))
    · rw [multiLoop_eq symbolTicks st.1 st.2]
      have hquiet := quiet_take (st.1.withDict (st.1.symbolDict.intern symbolTicks).2)
        (st.1.symbolDict.intern symbolTicks).1
      exact ⟨rfl, (InsertCall.intern_spec st.1.symbolDict symbolTicks).1, fun _ => id,
        hquiet.memtable⟩
    rw [multiLoop_eq symbolTicks γ₁.1.1 γ₁.1.2]
    have hfixed : Job.Fixed (.write (.insertion (.insertMulti symbolTicks)))
        (γ₁.1.1.symbolDict.intern symbolTicks).1 (γ₁.1.1.symbolDict.intern symbolTicks).2 :=
      InsertCall.fixed_of_stored rfl
    refine Discipline.safe_bind (Discipline.Safe.mono ?_ (safe_logBatch hjob hfixed))
    rintro (e | n) γ₂ hlogged
    · exact fun _ h => by cases h
    · exact safe_after_log (Discipline.safe_gets fun _ _ _ => trivial) (hlogged n rfl)

theorem logged_of_rows_nil (hjob : jobs[i]? = some job) (h : ∀ e, job.rows e = []) :
    Logged jobs i γ :=
  ⟨job, [], hjob, fun e _ => h e, Or.inl rfl⟩

/-- A part of a call that logs, and the flush behind it. -/
theorem safe_then_flush {x : LsmOp Nat}
    (h : (keepsDurable c jobs).SafeOp i (fun r γ' => ∀ n, r = .ok n → Logged jobs i γ') x γ) :
    (keepsDurable c jobs).SafeOp i (fun r γ' => ∀ a, r = .ok a → Logged jobs i γ')
      (x >>= flushIfFull p env) γ := by
  refine Discipline.safe_bind (Discipline.Safe.mono ?_ h)
  rintro (e | n) γ₁ hlogged
  · exact fun _ h => by cases h
  · exact safe_after_log (safe_flushIfFull n) (hlogged n rfl)

theorem safe_insertCall {call : InsertCall} (hjob : jobs[i]? = some (.write (.insertion call))) :
    (keepsDurable c jobs).SafeOp i (fun r γ' => ∀ a, r = .ok a → Logged jobs i γ')
      (call.op p c env) γ := by
  have hstore {γ : (LsmTree × Nat) × Trace} :
      (keepsDurable c jobs).SafeOp i (fun r γ' => ∀ a, r = .ok a → Logged jobs i γ')
        (withGuard .symbolDict .write (call.store c env >>= flushIfFull p env) : LsmOp Unit) γ :=
    Discipline.safe_withGuard (safe_then_flush (safe_store hjob))
  have hempty (h : call.isEmpty = true) : Logged jobs i γ :=
    logged_of_rows_nil hjob fun e => InsertCall.rows_of_isEmpty h e
  cases call with
  | insert symbol tick =>
    refine Discipline.safe_bind (Discipline.safe_gets fun γ₁ _ _ => ?_)
    dsimp only
    split_ifs
    · exact Discipline.safe_throw fun _ h => by cases h
    · exact hstore
  | insertBatch symbol batch =>
    rw [InsertCall.op, LsmTree.insertBatch]
    split_ifs with hlen
    · exact Discipline.safe_pure fun _ _ => hempty (by simp [InsertCall.isEmpty, hlen])
    · exact hstore
  | insertMulti ticks =>
    rw [InsertCall.op, LsmTree.insertMulti]
    split_ifs with hnil
    · exact Discipline.safe_pure fun _ _ => hempty (by simp [InsertCall.isEmpty, hnil])
    · exact hstore

/-- A change of the replication state. -/
theorem quiet_advance (sequence : Nat) (st : LsmTree × Nat) :
    Quiet st.1 (LsmTree.advance env sequence st).2.1 := by
  rw [LsmTree.advance, DiskM.current_bind]
  split_ifs
  · exact ⟨rfl, List.prefix_rfl, fun _ => id, id⟩
  · exact quiet_refl st.1

theorem safe_storeReplicated {entries : List ReplicationEntry}
    (hjob : jobs[i]? = some (.write (.applyReplicationBatch entries))) :
    (keepsDurable c jobs).SafeOp i (fun r γ' => ∀ n, r = .ok n → Logged jobs i γ')
      (storeReplicated c env entries) γ := by
  refine Discipline.safe_bind (Discipline.safe_withGuard (safe_quiet (fun st => ?_) fun γ₁ _ => ?_))
  · rw [resolve_eq entries st.1 st.2]
    exact ⟨rfl, st.1.symbolDict.prefix_resolveEntries entries, fun _ => id, id⟩
  rw [resolve_eq entries γ₁.1.1 γ₁.1.2]
  have hfixed : Job.Fixed (.write (.applyReplicationBatch entries))
      (γ₁.1.1.symbolDict.resolveEntries entries).1
      (γ₁.1.1.symbolDict.resolveEntries entries).2 := by
    intro e he
    rw [Job.rows, SymbolDictionary.resolveEntries_of_grown he]
  refine Discipline.safe_bind (Discipline.Safe.mono ?_ (safe_logBatch hjob hfixed))
  rintro (e | n) γ₂ hlogged
  · exact fun _ h => by cases h
  refine safe_after_log (Discipline.safe_withGuard (Discipline.safe_bind
    (safe_quiet (fun st => ?_) fun γ₃ _ => ?_))) (hlogged n rfl)
  · rw [insertResolved_eq _ st.1 st.2]
    exact quiet_take st.1 _
  · rw [insertResolved_eq _ γ₃.1.1 γ₃.1.2]
    exact Discipline.safe_gets fun _ _ _ => trivial

theorem safe_applyReplicationBatch {entries : List ReplicationEntry}
    (hjob : jobs[i]? = some (.write (.applyReplicationBatch entries))) :
    (keepsDurable c jobs).SafeOp i (fun r γ' => ∀ n, r = .ok n → Logged jobs i γ')
      (applyReplicationBatch p c env entries) γ := by
  unfold applyReplicationBatch
  split_ifs with hnil
  · exact Discipline.safe_pure fun _ _ => logged_of_rows_nil hjob fun e => by rw [hnil]; rfl
  refine Discipline.safe_bind (Discipline.safe_gets fun γ₁ _ _ => ?_)
  dsimp only
  split_ifs
  · exact Discipline.safe_throw fun _ h => by cases h
  refine Discipline.safe_bind (Discipline.Safe.mono ?_ (safe_storeReplicated hjob))
  rintro (e | n) γ₂ hlogged
  · exact fun _ h => by cases h
  refine safe_after_log (Discipline.safe_bind (Discipline.Safe.mono ?_ (safe_flushIfFull n)))
    (hlogged n rfl)
  rintro (e | _) γ₃ -
  · trivial
  refine Discipline.safe_bind (Discipline.safe_withGuard (safe_quiet (quiet_advance _) fun γ₄ _ => ?_))
  split
  · exact Discipline.safe_pure trivial
  · trivial

theorem safe_op (hjob : jobs[i]? = some job) :
    (keepsDurable c jobs).SafeOp i (fun r γ' => r = .ok () → Logged jobs i γ')
      (job.op p c env) γ := by
  cases job with
  | flush =>
    exact Discipline.Safe.mono (fun _ _ h hok => h () hok)
      (safe_after_log safe_flushMemtable (logged_of_rows_nil hjob fun _ => rfl))
  | write call =>
    cases call with
    | insertion call => exact Discipline.Safe.mono (fun _ _ h hok => h () hok) (safe_insertCall hjob)
    | applyReplicationBatch entries =>
      refine Discipline.safe_bind (Discipline.Safe.mono ?_ (safe_applyReplicationBatch hjob))
      rintro (e | n) γ₁ hlogged
      · exact fun h => by cases h
      · exact Discipline.safe_pure fun _ => hlogged n rfl

end Operations

/-- Jobs of several threads, about to start. -/
def working (p : Platform) (c : Codec) (env : Env) (jobs : List Job) (s : LsmTree) (time : Nat) :
    Config Lock (LsmTree × Nat) Trace (Except (Stop LsmError) Unit) :=
  Config.start (jobs.map (Job.op p c env)) (s, time) ⟨[], []⟩

/-- Every tick of a call that has returned Ok, its key not replaced by a later call, is in
the log or in a registered table. -/
def KeepsAcknowledged (c : Codec) (jobs : List Job)
    (cfg : Config Lock (LsmTree × Nat) Trace (Except (Stop LsmError) Unit)) : Prop :=
  ∀ i x, cfg.resultAt i = some (.ok ()) →
    firstAt Tick.key (rowsOf jobs i cfg.state.1.symbolDict).reverse x.key = some x →
    ¬ cfg.ghost.Replaced i x.key → Durable c cfg.state.1 x

/-- Along a schedule in which flushes are kept apart from the appends as `allowed` says,
acknowledged ticks are durable at all times. -/
theorem acknowledged_stays_durable (p : Platform) (c : Codec) (env : Env) (jobs : List Job)
    (s : LsmTree) (time : Nat) (schedule : List Nat)
    (h : Guarded (Config.step (watch jobs)) (Config.Allows (watch jobs) allowed)
      (working p c env jobs s time) schedule) :
    Always (Config.step (watch jobs)) (KeepsAcknowledged c jobs) (working p c env jobs s time)
      schedule := by
  have hstart : (working p c env jobs s time).Good (keepsDurable c jobs)
      fun i r γ => r = .ok () → Logged jobs i γ := by
    refine Config.good_start (fun x hx => by cases hx) fun i op hop => ?_
    rw [List.getElem?_map, Option.map_eq_some_iff] at hop
    obtain ⟨job, hjob, rfl⟩ := hop
    exact safe_op hjob
  have hgood := Config.always_good (fun i r γ γ' hlogged hgrows hok => (hlogged hok).mono hgrows)
    hstart h
  intro front hfront i x hresult hlast hnot
  obtain ⟨job, ticks, hjob, hfixed, hlogged⟩ := (hgood front hfront).post hresult rfl
  have hrows : rowsOf jobs i (run (Config.step (watch jobs)) (working p c env jobs s time)
      front).state.1.symbolDict = ticks := by
    rw [rowsOf, hjob]
    exact hfixed _ List.prefix_rfl
  rw [hrows] at hlast
  rcases hlogged with rfl | hmem
  · cases hlast
  · exact (hgood front hfront).inv x (Trace.newest_of_not_replaced hmem hlast hnot)

/-- A step that appends while nobody is draining, and drains all that was ever written. -/
def orderly (jobs : List Job)
    (cfg : Config Lock (LsmTree × Nat) Trace (Except (Stop LsmError) Unit)) (i : Nat) : Bool :=
  match cfg.threads[i]? with
  | some ⟨_, .act f _⟩ =>
    let after := f cfg.state
    (cfg.ghost.draining = [] || (watch jobs i cfg.state after cfg.ghost).written = cfg.ghost.written) &&
      (cfg.state.1.memtable.chain = [] || after.1.memtable.chain ≠ [] ||
        (cfg.ghost.written.flatMap Prod.snd).all fun x => cfg.state.1.memtable.chain.contains x)
  | _ => true

theorem allows_of_orderly {jobs : List Job}
    {cfg : Config Lock (LsmTree × Nat) Trace (Except (Stop LsmError) Unit)} {i : Nat}
    (h : orderly jobs cfg i = true) : cfg.Allows (watch jobs) allowed i := by
  intro held f rest hthread
  rw [orderly, hthread] at h
  simp only [Bool.and_eq_true, Bool.or_eq_true, decide_eq_true_eq] at h
  obtain ⟨hwritten, hdrained⟩ := h
  refine ⟨fun hne k hk => ?_, fun hne hnil x hx => Or.inl ?_⟩
  · rcases hwritten with hnone | hsame
    · rw [hnone] at hk
      cases hk
    · exact absurd hsame hne
  · obtain ⟨hmem, -⟩ := firstAt_eq_some Tick.key hx
    rcases hdrained with (h | h) | h
    · exact absurd h hne
    · exact absurd hnil h
    · simpa using List.all_eq_true.mp h x (List.mem_reverse.mp hmem)

/-- An insert, and a flush once it has returned. -/
theorem acknowledged_stays_durable_insert_then_flush :
    Always (Config.step (watch [.write (.insertion (.insert "A" (flatTick 7 5 1))), .flush]))
      (KeepsAcknowledged (Codec.forTicks [flatTick 0 5 1])
        [.write (.insertion (.insert "A" (flatTick 7 5 1))), .flush])
      (working .simple (Codec.forTicks [flatTick 0 5 1]) .calm
        [.write (.insertion (.insert "A" (flatTick 7 5 1))), .flush] (LsmTree.fresh 10 .primary) 0)
      (List.replicate 20 0 ++ List.replicate 14 1) :=
  acknowledged_stays_durable .simple (Codec.forTicks [flatTick 0 5 1]) .calm
    [.write (.insertion (.insert "A" (flatTick 7 5 1))), .flush] (LsmTree.fresh 10 .primary) 0 _
    (Guarded.mono (fun _ _ => allows_of_orderly) (by decide +kernel))

/-- An insert between a flush's drain and its cut of the log. -/
def overtaken : List Job :=
  [.write (.insertion (.insert "A" (flatTick 7 5 1))), .flush,
    .write (.insertion (.insert "A" (flatTick 7 6 2)))]

/-- The second insert returns Ok; then the log is cut off, and its tick is in no table. -/
theorem append_during_flush_is_lost :
    (run (Config.step (watch overtaken)) (working .simple
      (Codec.forTicks [flatTick 0 5 1, flatTick 0 6 2]) .calm overtaken (LsmTree.fresh 10 .primary) 0)
      (List.replicate 20 0 ++ [1, 1, 1] ++ List.replicate 20 2 ++ List.replicate 11 1)).resultAt 2 =
        some (.ok ()) ∧
    ¬ KeepsAcknowledged (Codec.forTicks [flatTick 0 5 1, flatTick 0 6 2]) overtaken
      (run (Config.step (watch overtaken)) (working .simple
        (Codec.forTicks [flatTick 0 5 1, flatTick 0 6 2]) .calm overtaken
          (LsmTree.fresh 10 .primary) 0)
        (List.replicate 20 0 ++ [1, 1, 1] ++ List.replicate 20 2 ++ List.replicate 11 1)) := by
  refine ⟨by decide +kernel, fun h => ?_⟩
  have hdurable := h 2 (flatTick 0 6 2) (by decide +kernel) (by decide +kernel) (by decide +kernel)
  rcases hdurable with hlog | htable
  · have hempty : (run (Config.step (watch overtaken)) (working .simple
        (Codec.forTicks [flatTick 0 5 1, flatTick 0 6 2]) .calm overtaken
          (LsmTree.fresh 10 .primary) 0)
        (List.replicate 20 0 ++ [1, 1, 1] ++ List.replicate 20 2 ++
          List.replicate 11 1)).state.1.wal.file = [] := by decide +kernel
    rw [hempty] at hlog
    exact Wal.not_framed_nil _ _ hlog
  · revert htable
    unfold InTable
    decide +kernel

end Graphite
