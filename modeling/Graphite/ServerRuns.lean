import Graphite.ReplicaCopies
import Graphite.Server

/-! A server that answers one request after the other. What it says ok to, ticks on a
primary and batches on a replica, is what its database then answers with; the health page
counts it, and a primary with replicas has spawned a push task for each of its ticks. -/

namespace Graphite
open LockProgram GuardedRuns LsmTree NamedHistory

/-- The flush at the threshold interns and counts nothing. -/
theorem LsmTree.flushIfFull_keeps (p : Platform) (env : Env) {s : LsmTree}
    (hlevels : s.compaction.levels ≠ []) (memtableLen time : Nat) :
    (exec (flushIfFull p env memtableLen) [] (s, time)).state.1.symbolDict = s.symbolDict ∧
      (exec (flushIfFull p env memtableLen) [] (s, time)).state.1.totalRows = s.totalRows := by
  rw [flushIfFull, exec_bind_ok (exec_gets _ _ _)]
  split_ifs
  · have hends := flush_ends p env hlevels time
    generalize exec (LsmTree.flushMemtable p env) [] (s, time) = outcome at hends
    cases hends with
    | nothing => exact ⟨rfl, rfl⟩
    | unwritten => exact ⟨rfl, rfl⟩
    | written => exact ⟨rfl, rfl⟩
  · exact ⟨rfl, rfl⟩

/-- What is counted is what goes into the memtable. -/
theorem LsmTree.totalRows_apply (p : Platform) (c : Codec) (env : Env) {s : LsmTree}
    (hrole : s.role = .replica) (hlevels : s.compaction.levels ≠ []) (time : Nat)
    {entries : List ReplicationEntry} (hne : entries ≠ []) :
    (exec (applyReplicationBatch p c env entries) [] (s, time)).state.1.totalRows =
      s.totalRows + if takesBatch c env (s, time) entries then
        (s.symbolDict.resolveEntries entries).1.length else 0 := by
  rw [applyReplicationBatch, if_neg hne, exec_bind_ok (exec_gets _ _ _),
    if_neg (by simpa using hrole), takesBatch]
  cases hlog : (s.logReplicated c (env.disk time) entries).1 with
  | error e =>
    rw [exec_bind_error (exec_storeReplicated_of_error hlog), exec_storeReplicated_of_error hlog]
    rfl
  | ok n =>
    rw [exec_bind_ok (exec_storeReplicated_of_ok hlog), exec_storeReplicated_of_ok hlog]
    generalize hstored : (s.logged c (env.disk time) entries).take
      (s.symbolDict.resolveEntries entries).1 = s₀
    generalize (s.take (s.symbolDict.resolveEntries entries).1).memtable.len = memtableLen
    have hlevels₀ : s₀.compaction.levels ≠ [] := by
      rw [← hstored]
      exact hlevels
    obtain ⟨r, s₁, time₁, hflush, -⟩ := exec_flushIfFull_alone p env hlevels₀ memtableLen (time + 1)
    have hkept := (flushIfFull_keeps p env hlevels₀ memtableLen (time + 1)).2
    rw [hflush, ← hstored] at hkept
    have hcounted : s₁.totalRows = s.totalRows + (s.symbolDict.resolveEntries entries).1.length :=
      hkept
    cases r with
    | error e =>
      rw [exec_bind_error hflush]
      exact hcounted
    | ok _ =>
      rw [exec_bind_ok hflush]
      obtain ⟨r, time₂, hadvance⟩ :=
        exec_advance_return env (Replica.maxSeq entries) entries.length s₁ time₁
      have hafter : (exec (do
          withGuard Lock.replication .write (attempt (advance env (Replica.maxSeq entries)))
          return entries.length : LsmOp Nat) [] (s₁, time₁)).state.1.totalRows = s₁.totalRows := by
        rw [hadvance]
        change (if _ then _ else _ : LsmTree).totalRows = _
        split_ifs <;> rfl
      exact hafter.trans hcounted

/-- A single insert that comes to its end puts its row in, or leaves the rows alone. -/
theorem InsertCall.clean_of_not_blocked {p : Platform} {c : Codec} {env : Env} {s : LsmTree}
    {time : Nat} {symbol : String} {tick : Tick}
    (h : ¬ (exec ((insert symbol tick).op p c env) [] (s, time)).Blocked) :
    (insert symbol tick).clean c env s time = true := by
  have hends := (insert symbol tick).ends p c env s time
  generalize exec ((insert symbol tick).op p c env) [] (s, time) = outcome at h hends
  rw [clean]
  cases hrefused : (insert symbol tick).refused s.role with
  | true => rfl
  | false =>
    cases hlog : ((insert symbol tick).log c (env.disk time) s
      [tick.withSymbol (s.symbolDict.getOrInsert symbol).1]).1 with
    | error e => simp [isEmpty, stored, hlog, stopsAtOnce]
    | ok m =>
      have hstores : (insert symbol tick).Stores c env s time
          [tick.withSymbol (s.symbolDict.getOrInsert symbol).1] (s.symbolDict.getOrInsert symbol).2 :=
        ⟨hrefused, rfl, rfl, m, hlog⟩
      cases hends with
      | empty _ hempty => cases hempty
      | failed hnot => exact absurd hstores (hnot _ _)
      | @stored ticks dict hstores' hlt =>
        cases hstores.stored.symm.trans hstores'.stored
        simpa [isEmpty, InsertCall.stored, hlog] using hlt
      | blocked => exact absurd trivial h

namespace AppState

/-- The texts of a socket come one by one. -/
inductive Request where
  | health
  | replicationStatus
  | replicationWal (query : WalQuery)
  | replicationApply (entries : List ReplicationEntry)
  | insertTick (payload : TickPayload)
  | text (s : String)
  deriving DecidableEq, Repr

inductive Answer where
  | health (r : HealthResponse)
  | replicationStatus (r : ReplicationStatus)
  | replicationWal (r : Except StatusCode WalStreamResponse)
  | replicationApply (r : Except StatusCode TickResponse)
  | insertTick (code : StatusCode) (r : TickResponse)
  | text (r : TickResponse)

/-- The server says that it has taken what was handed in. -/
def Answer.ok : Answer → Bool
  | .health _ => false
  | .replicationStatus _ => false
  | .replicationWal _ => false
  | .replicationApply (.ok r) => r.ok
  | .replicationApply (.error _) => false
  | .insertTick _ r => r.ok
  | .text r => r.ok

/-- The rows that a request hands in. -/
def Request.rows (fromStr : String → Except String TickPayload) : Request → List (String × Tick)
  | .health => []
  | .replicationStatus => []
  | .replicationWal _ => []
  | .replicationApply entries => entries.filterMap ReplicationEntry.row
  | .insertTick payload => payload.call.named
  | .text s => match fromStr s with
    | .ok payload => payload.call.named
    | .error _ => []

variable (p : Platform) (c : Codec) (env : Env) (fromStr : String → Except String TickPayload)

def serve (s : AppState) : Request → Option Answer × AppState
  | .health => s.health.map (Option.map .health) id
  | .replicationStatus => s.replicationStatus.map (Option.map .replicationStatus) id
  | .replicationWal query => (s.replicationWal c query).map (Option.map .replicationWal) id
  | .replicationApply entries =>
    (s.replicationApply p c env entries).map (Option.map .replicationApply) id
  | .insertTick payload =>
    (s.insertTick p c env payload).map (Option.map fun r => .insertTick r.1 r.2) id
  | .text s' => (s.answerText p c env fromStr s').map (Option.map .text) id

end AppState

/-- A server with the rows that it has said ok to. -/
structure Serving where
  server : AppState
  taken : List (String × Tick)

namespace Serving
open AppState

def start (role : NodeRole) (replicaUrls : List String) (flushThreshold : Nat) : Serving :=
  ⟨AppState.start role replicaUrls flushThreshold, []⟩

variable (p : Platform) (c : Codec) (env : Env) (fromStr : String → Except String TickPayload)

def step (n : Serving) (r : Request) : Serving :=
  ⟨(n.server.serve p c env fromStr r).2,
    if (n.server.serve p c env fromStr r).1.any Answer.ok then n.taken ++ r.rows fromStr
    else n.taken⟩

/-- The entries of a batch name their symbols, and if it is stored, the flush behind it is
harmless and its position is saved. -/
def StoresWell (n : Serving) : Request → Prop
  | .replicationApply entries => n.server.role = .replica → entries ≠ [] →
    (∀ e ∈ entries, e.Named) ∧ (takesBatch c env n.server.db entries = true →
      FlushesWell p c env (withBatch c env n.server.db entries, n.server.db.2 + 1) ∧
        (n.server.replicationApply p c env entries).1 = some (.ok ⟨true, none⟩))
  | _ => True

instance (n : Serving) (r : Request) : Decidable (n.StoresWell p c env r) :=
  match r with
  | .replicationApply _ => inferInstanceAs (Decidable (_ → _ → _ ∧ (_ → _)))
  | .health => isTrue trivial
  | .replicationStatus => isTrue trivial
  | .replicationWal _ => isTrue trivial
  | .insertTick _ => isTrue trivial
  | .text _ => isTrue trivial

/-- The request gets its answer, there is room for its symbols, and batches are stored well. -/
def Orderly (n : Serving) (r : Request) : Prop :=
  (n.server.serve p c env fromStr r).1.isSome = true ∧
    (n.server.serve p c env fromStr r).2.db.1.symbolDict.len ≤ 65536 ∧ n.StoresWell p c env r

instance (n : Serving) (r : Request) : Decidable (n.Orderly p c env fromStr r) :=
  inferInstanceAs (Decidable (_ ∧ _ ∧ _))

/-- The push tasks that a server with these rows has spawned. -/
def pushes (s : AppState) (taken : List (String × Tick)) : Nat :=
  if s.replicaUrls = [] ∨ s.role ≠ .primary then 0 else taken.length

/-- The database answers with the rows that the server has said ok to, and the server counts
them. -/
structure Serves (n : Serving) : Prop where
  answers : AnswersAsMap (ofRows n.server.db n.taken)
  health : n.server.health.1 = some ⟨"ok", n.server.role, n.taken.length⟩
  pushed : n.server.pushTasks = pushes n.server n.taken

structure Inv (n : Serving) : Prop where
  holds : NamedHistory.Inv (ofRows n.server.db n.taken)
  role : n.server.db.1.role = n.server.role
  counted : n.server.db.1.totalRows = n.taken.length
  pushed : n.server.pushTasks = pushes n.server n.taken

variable {p c env fromStr} {n : Serving} {s s' : AppState} {taken more : List (String × Tick)}

theorem inv_start (role : NodeRole) (replicaUrls : List String) (flushThreshold : Nat) :
    Inv (start role replicaUrls flushThreshold) where
  holds := (NamedHistory.inv_start flushThreshold role).rebuilt 0
  role := rfl
  counted := rfl
  pushed := (ite_self 0).symm

theorem health_eq (s : AppState) : s.health = (some ⟨"ok", s.role, s.db.1.totalRows⟩, s) := by
  have hexec : exec stats [] s.db = .finished (.ok _) [] s.db := exec_withGuard_gets (by decide) _ _
  rw [AppState.health, AppState.call, hexec]

theorem serves_of_inv (h : Inv n) : Serves n where
  answers := answersAsMap_of_inv h.holds
  health := by rw [health_eq, h.counted]
  pushed := h.pushed

theorem replicationStatus_eq (s : AppState) : ∃ status, s.replicationStatus = (some status, s) := by
  have hwal : exec (withGuard .wal .read (gets fun st => st.1.wal.sequence) : LsmOp Nat) [] s.db =
      .finished (.ok s.db.1.wal.sequence) [] s.db := exec_withGuard_gets (by decide) _ _
  have hexec : ∃ status, exec LsmTree.replicationStatus [] s.db = .finished (.ok status) [] s.db := by
    rw [LsmTree.replicationStatus, exec_bind_ok hwal]
    exact ⟨_, exec_withGuard_gets (by decide) _ _⟩
  obtain ⟨status, hexec⟩ := hexec
  exact ⟨status, by rw [AppState.replicationStatus, AppState.call, hexec]⟩

/-- Reading the log takes time. -/
theorem exec_read (c : Codec) (after : Option Nat) (limit : Nat) (st : LsmTree × Nat) :
    ∃ r, exec (readWalForReplication c after limit) [] st = .finished r [] (st.1, st.2 + 1) := by
  have hread : exec (withGuard Lock.wal Mode.read
      (attempt (onWal fun _ w => (Wal.readForReplication c w after limit, w)))) [] st =
      .finished _ [] (st.1, st.2 + 1) := exec_withGuard_attempt (by decide) rfl
  rw [readWalForReplication]
  cases hentries : (Wal.readForReplication c st.1.wal after limit).mapError (Stop.map LsmError.wal) with
  | error e => exact ⟨_, exec_bind_error (by rw [hread, hentries]) _⟩
  | ok entries =>
    exact ⟨_, (exec_bind_ok (by rw [hread, hentries]) _).trans
      (exec_withGuard_gets (by decide) _ _)⟩

theorem replicationWal_state (c : Codec) (s : AppState) (query : WalQuery) :
    ∃ time, (s.replicationWal c query).2 = { s with db := (s.db.1, time) } := by
  rw [AppState.replicationWal]
  split_ifs
  · exact ⟨s.db.2, rfl⟩
  refine ⟨s.db.2 + 1, ?_⟩
  obtain ⟨r, hexec⟩ := exec_read c query.after query.limit s.db
  rw [AppState.call, hexec]
  cases r with
  | ok entries =>
    obtain ⟨status, hstatus⟩ := replicationStatus_eq { s with db := (s.db.1, s.db.2 + 1) }
    dsimp only
    rw [hstatus]
  | error stop => cases stop <;> rfl

theorem Inv.later (h : Inv ⟨s, taken⟩) (time : Nat) :
    Inv ⟨{ s with db := (s.db.1, time) }, taken⟩ :=
  ⟨h.holds.sameStore ⟨rfl, rfl, rfl⟩ time, h.role, h.counted, h.pushed⟩

theorem not_blocked_of_call {op : LsmOp Unit} {r : Except LsmError Unit}
    (h : s.call op = (some r, s')) : ¬ (exec op [] s.db).Blocked := by
  rw [AppState.call] at h
  cases hout : exec op [] s.db with
  | finished r held st => exact id
  | blocked l m st =>
    rw [hout] at h
    cases h

/-- A tick more, and one more push task where ticks are pushed. -/
theorem Inv.schedule {s : AppState}
    (holds : NamedHistory.Inv (ofRows s.db (taken ++ more))) (role : s.db.1.role = s.role)
    (counted : s.db.1.totalRows = (taken ++ more).length)
    (pushed : s.pushTasks = pushes s taken) (hmore : more.length = 1) :
    Inv ⟨s.scheduleReplicationPush, taken ++ more⟩ := by
  rw [scheduleReplicationPush]
  split_ifs with hnot
  · refine ⟨holds, role, counted, pushed.trans ?_⟩
    rw [pushes, pushes, if_pos hnot, if_pos hnot]
  · refine ⟨holds, role, counted, ?_⟩
    change s.pushTasks + 1 = if s.replicaUrls = [] ∨ s.role ≠ .primary then 0 else _
    rw [pushed, pushes, if_neg hnot, if_neg hnot, List.length_append, hmore]

/-- A payload is taken with an ok, or not at all. -/
theorem inv_payload (h : Inv ⟨s, taken⟩) {payload : TickPayload} {r : Except LsmError Unit}
    (hcall : s.insertPayload p c env payload = (some r, s'))
    (hroom : s'.db.1.symbolDict.len ≤ 65536) : match r with
    | .ok _ => Inv ⟨s'.scheduleReplicationPush, taken ++ payload.call.named⟩
    | .error _ => Inv ⟨s', taken⟩ := by
  have hclean : payload.call.clean c env s.db.1 s.db.2 = true :=
    InsertCall.clean_of_not_blocked (p := p) (not_blocked_of_call hcall)
  obtain ⟨r', dict, rows, wal, time, hexec, hgrown, -, hrows⟩ := InsertCall.settles p hclean
  have hexec' : exec (payload.call.op p c env) [] s.db = .finished r' []
    (((s.db.1.withDict dict).take rows).withWal wal, time) := hexec
  rw [AppState.insertPayload, AppState.call, hexec'] at hcall
  rcases hrows with ⟨rfl, rfl⟩ | ⟨⟨e, rfl⟩, rfl⟩
  · cases hcall
    have hroomy : Roomy p c env (ofRows s.db taken) (.insertion payload.call) := by
      refine ⟨hclean, ?_⟩
      rw [History.step]
      change (exec (payload.call.op p c env) [] s.db).state.1.symbolDict.len ≤ 65536
      rw [hexec']
      exact hroom
    have hstep := (NamedHistory.inv_step p c env _ _ h.holds hroomy).rebuilt time
    rw [NamedHistory.step, History.step] at hstep
    change NamedHistory.Inv (ofRows ((exec (payload.call.op p c env) [] s.db).state.1, time)
      (if (exec (payload.call.op p c env) [] s.db).succeeded then taken ++ payload.call.named
        else taken)) at hstep
    rw [hexec'] at hstep
    have hlength : (taken ++ payload.call.named).length = taken.length + 1 := List.length_append
    exact Inv.schedule hstep h.role ((congrArg (· + 1) h.counted).trans hlength.symm) h.pushed rfl
  · cases e with
    | panic => cases hcall
    | error e =>
      cases hcall
      have hnone : Deliveries.HasIds dict [] := List.forall_mem_nil _
      have hmore := h.holds.take hgrown hroom hnone (List.forall_mem_nil _) wal time
      rw [List.append_nil] at hmore
      exact ⟨hmore, h.role, h.counted, h.pushed⟩

theorem db_schedule (s : AppState) : s.scheduleReplicationPush.db = s.db := by
  rw [scheduleReplicationPush]
  split_ifs <;> rfl

theorem insertTick_cases (h : Inv ⟨s, taken⟩) {payload : TickPayload}
    (hanswered : (s.insertTick p c env payload).1.isSome = true)
    (hroom : (s.insertTick p c env payload).2.db.1.symbolDict.len ≤ 65536) :
    ∃ code r s', s.insertTick p c env payload = (some (code, r), s') ∧
      Inv ⟨s', if r.ok then taken ++ payload.call.named else taken⟩ := by
  by_cases hnot : s.role ≠ .primary
  · rw [insertTick, if_pos hnot]
    exact ⟨_, _, _, rfl, h⟩
  cases hcall : s.insertPayload p c env payload with
  | mk answer s' =>
    rw [insertTick, if_neg hnot, hcall] at hanswered hroom ⊢
    cases answer with
    | none => cases hanswered
    | some r =>
      have hmore := inv_payload h hcall
      cases r with
      | ok _ =>
        rw [db_schedule] at hroom
        exact ⟨_, _, _, rfl, hmore hroom⟩
      | error e => exact ⟨_, _, _, rfl, hmore hroom⟩

theorem answerText_cases (h : Inv ⟨s, taken⟩) {text : String}
    (hanswered : (s.answerText p c env fromStr text).1.isSome = true)
    (hroom : (s.answerText p c env fromStr text).2.db.1.symbolDict.len ≤ 65536) :
    ∃ r s', s.answerText p c env fromStr text = (some r, s') ∧
      Inv ⟨s', if r.ok then taken ++ (Request.text text).rows fromStr else taken⟩ := by
  by_cases hnot : s.role ≠ .primary
  · rw [answerText, if_pos hnot]
    exact ⟨_, _, rfl, h⟩
  rw [answerText, if_neg hnot, Request.rows] at *
  cases hparse : fromStr text with
  | error e => exact ⟨_, _, rfl, h⟩
  | ok payload =>
    cases hcall : s.insertPayload p c env payload with
    | mk answer s' =>
      rw [hparse] at hanswered hroom
      dsimp only at hanswered hroom ⊢
      rw [hcall] at hanswered hroom ⊢
      cases answer with
      | none => cases hanswered
      | some r =>
        have hmore := inv_payload h hcall
        cases r with
        | ok _ =>
          rw [db_schedule] at hroom
          exact ⟨_, _, rfl, hmore hroom⟩
        | error e => exact ⟨_, _, rfl, hmore hroom⟩

/-- A replica behind a batch that it has stored, or that its log has refused. -/
theorem inv_batch (h : Inv ⟨s, taken⟩) (hreplica : s.role = .replica)
    {entries : List ReplicationEntry} (hnamed : ∀ e ∈ entries, e.Named)
    {r : Except (Stop LsmError) Nat} {tree : LsmTree}
    (happlied : Applied p c env s.db.1 s.db.2 entries r tree)
    (hcounted : tree.totalRows = s.db.1.totalRows + if takesBatch c env s.db entries then
      (s.db.1.symbolDict.resolveEntries entries).1.length else 0)
    (hroom : tree.symbolDict.len ≤ 65536)
    (hwell : takesBatch c env s.db entries = true →
      FlushesWell p c env (withBatch c env s.db entries, s.db.2 + 1)) (time : Nat) :
    Inv ⟨{ s with db := (tree, time) }, if takesBatch c env s.db entries then
      taken ++ entries.filterMap ReplicationEntry.row else taken⟩ := by
  have hgrown := s.db.1.symbolDict.prefix_resolveEntries entries
  have hnone : s.replicaUrls = [] ∨ s.role ≠ .primary := Or.inr (by rw [hreplica]; decide)
  have hpushed (taken' : List (String × Tick)) : s.pushTasks = pushes s taken' := by
    rw [h.pushed, pushes, pushes, if_pos hnone, if_pos hnone]
  rcases happlied.content with ⟨htakes, hsame⟩ | ⟨htakes, hsame⟩
  · have hno : Deliveries.HasIds (s.db.1.symbolDict.resolveEntries entries).2 [] :=
      List.forall_mem_nil _
    rw [hsame.symbolDict] at hroom
    have hmore := h.holds.take hgrown hroom hno (List.forall_mem_nil _) s.db.1.wal s.db.2
    rw [List.append_nil] at hmore
    have hsame' := hmore.sameStore ⟨hsame.memtable, hsame.compaction, hsame.symbolDict⟩ time
    rw [htakes] at hcounted ⊢
    exact ⟨hsame', happlied.role.trans h.role, hcounted.trans h.counted, hpushed _⟩
  · obtain ⟨hrows, hids⟩ := Deliveries.resolveEntries_of_named (d := s.db.1.symbolDict) hnamed
      List.prefix_rfl
    have hdict : tree.symbolDict = (s.db.1.symbolDict.resolveEntries entries).2 :=
      hsame.symbolDict.trans (flushIfFull_keeps p env
        (s := withBatch c env s.db entries) h.holds.levels _ _).1
    rw [hdict] at hroom
    have hmore := h.holds.take hgrown hroom hids (plain_filterMap entries)
      (s.db.1.logReplicated c (env.disk s.db.2) entries).2 (s.db.2 + 1)
    have hlength := congrArg List.length hrows
    rw [List.length_map] at hlength
    rw [← hrows] at hmore
    have hsame' := (hmore.flushed (hwell htakes) time).sameStore hsame time
    rw [htakes, if_pos rfl, hlength, h.counted] at hcounted
    rw [htakes]
    exact ⟨hsame', happlied.role.trans h.role, hcounted.trans List.length_append.symm, hpushed _⟩

/-- The rows of a batch are taken with an ok, or not at all. -/
theorem replicationApply_cases (h : Inv ⟨s, taken⟩) {entries : List ReplicationEntry}
    (hanswered : (s.replicationApply p c env entries).1.isSome = true)
    (hroom : (s.replicationApply p c env entries).2.db.1.symbolDict.len ≤ 65536)
    (hstores : StoresWell p c env ⟨s, taken⟩ (.replicationApply entries)) :
    ∃ r s', s.replicationApply p c env entries = (some r, s') ∧
      Inv ⟨s', if (Answer.replicationApply r).ok then
        taken ++ entries.filterMap ReplicationEntry.row else taken⟩ := by
  by_cases hreplica : s.role = .replica
  swap
  · rw [AppState.replicationApply, if_pos hreplica]
    exact ⟨_, _, rfl, h⟩
  by_cases hne : entries = []
  · subst hne
    have hempty : s.replicationApply p c env [] = (some (.ok ⟨true, none⟩), s) := by
      rw [AppState.replicationApply, if_neg (not_not.mpr hreplica)]
      rfl
    refine ⟨_, s, hempty, ?_⟩
    change Inv ⟨s, taken ++ []⟩
    rwa [List.append_nil]
  obtain ⟨hnamed, hwell⟩ := hstores hreplica hne
  obtain ⟨r, tree, time, hexec, happlied⟩ :=
    exec_apply p c env (h.role.trans hreplica) h.holds.levels s.db.2 hne
  have hcounted := totalRows_apply p c env (h.role.trans hreplica) h.holds.levels s.db.2 hne
  rw [hexec] at hcounted
  have hexec' : exec (applyReplicationBatch p c env entries) [] s.db =
    .finished r [] (tree, time) := hexec
  rw [AppState.replicationApply, if_neg (not_not.mpr hreplica), AppState.call, hexec']
    at hanswered hroom hwell ⊢
  cases r with
  | ok n =>
    have hbatch := inv_batch h hreplica hnamed happlied hcounted hroom (fun ht => (hwell ht).1) time
    rw [if_pos (by exact happlied.taken n rfl)] at hbatch
    exact ⟨_, _, rfl, hbatch⟩
  | error stop =>
    cases stop with
    | panic => cases hanswered
    | error e =>
      have hbatch := inv_batch h hreplica hnamed happlied hcounted hroom (fun ht => (hwell ht).1) time
      have hrefused : takesBatch c env s.db entries ≠ true := by
        intro htakes
        cases (hwell htakes).2
      rw [if_neg hrefused] at hbatch
      exact ⟨_, _, rfl, hbatch⟩

theorem inv_step (p : Platform) (c : Codec) (env : Env) (fromStr : String → Except String TickPayload)
    (n : Serving) (r : Request) (h : Inv n) (horderly : n.Orderly p c env fromStr r) :
    Inv (step p c env fromStr n r) := by
  obtain ⟨hanswered, hroom, hstores⟩ := horderly
  obtain ⟨s, taken⟩ := n
  have hquiet (time : Nat) (b : Bool) : Inv ⟨{ s with db := (s.db.1, time) },
      if b then taken ++ [] else taken⟩ := by
    rw [List.append_nil, ite_self]
    exact h.later time
  cases r with
  | health =>
    rw [step, serve, health_eq]
    exact hquiet s.db.2 _
  | replicationStatus =>
    obtain ⟨status, hstatus⟩ := replicationStatus_eq s
    rw [step, serve, hstatus]
    exact hquiet s.db.2 _
  | replicationWal query =>
    obtain ⟨time, hstate⟩ := replicationWal_state c s query
    rw [step, serve, Prod.map_snd, hstate]
    exact hquiet time _
  | replicationApply entries =>
    rw [serve, Prod.map_fst, Option.isSome_map] at hanswered
    rw [serve, Prod.map_snd] at hroom
    obtain ⟨r, s', hserve, hinv⟩ := replicationApply_cases h hanswered hroom hstores
    rw [step, serve, hserve]
    exact hinv
  | insertTick payload =>
    rw [serve, Prod.map_fst, Option.isSome_map] at hanswered
    rw [serve, Prod.map_snd] at hroom
    obtain ⟨code, r, s', hserve, hinv⟩ := insertTick_cases h hanswered hroom
    rw [step, serve, hserve]
    exact hinv
  | text text =>
    rw [serve, Prod.map_fst, Option.isSome_map] at hanswered
    rw [serve, Prod.map_snd] at hroom
    obtain ⟨r, s', hserve, hinv⟩ := answerText_cases h hanswered hroom
    rw [step, serve, hserve]
    exact hinv

/-- A tick with zero prices. -/
def flatPayload (volume : UInt64) : TickPayload := ⟨"A", 5, ⟨0⟩, ⟨0⟩, ⟨0⟩, ⟨0⟩, volume⟩

/-- A client that writes the volume. -/
def volumeOf (s : String) : Except String TickPayload :=
  if s = "2" then .ok (flatPayload 2) else .error "expected value"

/-- The texts among the messages of a socket. -/
def texts (messages : List (Message × Bool)) : List String :=
  messages.filterMap fun m => match m.1 with
    | .text s => some s
    | _ => none

/-- A socket is served text by text, up to the first one without an answer that gets
through. -/
theorem handleSocket_run (messages : List (Message × Bool)) (n : Serving) :
    ∃ front, front <+: texts messages ∧ (n.server.handleSocket p c env fromStr messages).2 =
      (run (step p c env fromStr) n (front.map .text)).server := by
  induction messages generalizing n with
  | nil => exact ⟨[], List.prefix_rfl, rfl⟩
  | cons m messages ih =>
    obtain ⟨message, sent⟩ := m
    cases message with
    | close => exact ⟨[], List.nil_prefix, rfl⟩
    | broken => exact ⟨[], List.nil_prefix, rfl⟩
    | other =>
      obtain ⟨front, hfront, hrun⟩ := ih n
      exact ⟨front, hfront, hrun⟩
    | text text =>
      have hserve : (n.step p c env fromStr (.text text)).server =
          (n.server.answerText p c env fromStr text).2 := rfl
      have hone : ∃ front, front <+: texts ((.text text, sent) :: messages) ∧
          (n.server.answerText p c env fromStr text).2 =
            (run (step p c env fromStr) n (front.map .text)).server :=
        ⟨[text], List.prefix_append [text] (texts messages), rfl⟩
      rw [AppState.handleSocket]
      cases hanswer : n.server.answerText p c env fromStr text with
      | mk answer s' =>
        rw [hanswer] at hone hserve
        cases answer with
        | none => exact hone
        | some response =>
          cases sent with
          | false => exact hone
          | true =>
            obtain ⟨front, hfront, hrun⟩ := ih (n.step p c env fromStr (.text text))
            rw [hserve] at hrun
            exact ⟨text :: front, (List.prefix_cons_inj text).mpr hfront, hrun⟩

end Serving

end Graphite
