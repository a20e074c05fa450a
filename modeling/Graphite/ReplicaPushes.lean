import Graphite.ReplicaPulls
import Graphite.Server

/-! A primary that pushes its log to replicas. Every insert spawns a task; any number of
tasks run side by side, over the position they share, and a request may get lost before or
after it was handled. As long as no request is answered without having been accepted and the
primary flushes only what all replicas have, the position never runs ahead of a replica. -/

namespace Graphite
open KeyedRows LockProgram GuardedRuns

/-- The position before the first push. -/
def neverPushed : Nat := 2 ^ 64 - 1

/-- Where a base URL takes batches. -/
def applyUrl (base : String) : String :=
  String.ofList (base.toList.reverse.dropWhile (· = '/')).reverse ++ "/replication/apply"

/-- How far a task of `push_to_replicas` has come. -/
inductive PushTask where
  | spawned
  | loaded (pushed : Nat)
  | posting (entries : List ReplicationEntry) (maxSeq : Nat) (left : List String)
  | ended

/-- What becomes of a request. -/
inductive PostFate where
  | lost
  | unanswered
  | answered
  deriving DecidableEq, Repr

/-- A primary, the position and the tasks of its server, the servers behind the URLs, and the
entries that each of them has stored. -/
structure Pushing where
  primary : Primary
  replicaUrls : List String
  lastPushedSeq : Nat
  tasks : List PushTask
  servers : String → AppState
  applied : String → List ReplicationEntry

namespace Pushing
open LsmTree LogShipping

inductive Event where
  | primary (call : StoreCall)
  | load (task : Nat)
  | read (task : Nat)
  | post (task : Nat) (fate : PostFate)
  | store (task : Nat)
  deriving DecidableEq, Repr

def start (flushThreshold : Nat) (replicaUrls : List String) (roles : String → NodeRole)
    (thresholds : String → Nat) : Pushing where
  primary := .start flushThreshold
  replicaUrls := replicaUrls
  lastPushedSeq := neverPushed
  tasks := []
  servers url := .start (roles url) [] (thresholds url)
  applied _ := []

def afterOf (pushed : Nat) : Option Nat := if pushed = neverPushed then none else some pushed

variable (p : Platform) (c : Codec) (env : Env)

/-- An insert that returns normally spawns a task. -/
def call (k : Pushing) (call : StoreCall) : Pushing :=
  { k with
    primary := k.primary.step p c env call
    tasks :=
      match call with
      | .insertion insertion =>
        if (exec (insertion.op p c env) [] (k.primary.tree, k.primary.time)).succeeded ∧
            k.replicaUrls ≠ [] then k.tasks ++ [.spawned]
        else k.tasks
      | .flushMemtable => k.tasks }

/-- The page behind the position; nothing to push and an error of the log end the task. -/
def readPage (k : Pushing) (task : Nat) (pushed : Nat) : Pushing :=
  match exec (readWalForReplication c (afterOf pushed) 500) [] (k.primary.tree, k.primary.time) with
  | .finished (.ok entries) _ st =>
    { k with
      primary := ⟨st.1, st.2, k.primary.appended⟩
      tasks := k.tasks.set task (if entries = [] then .ended else
        .posting entries ((entries.getLast?.map ReplicationEntry.sequence).getD pushed)
          k.replicaUrls) }
  | .finished (.error _) _ st =>
    { k with primary := ⟨st.1, st.2, k.primary.appended⟩, tasks := k.tasks.set task .ended }
  | .blocked _ _ st =>
    { k with primary := ⟨st.1, st.2, k.primary.appended⟩, tasks := k.tasks.set task .ended }

/-- What the server behind the URL answers to the batch. -/
def answerOf (k : Pushing) (url : String) (entries : List ReplicationEntry) :
    Option (Except StatusCode TickResponse) :=
  ((k.servers url).replicationApply p c env entries).1

/-- The server behind the URL handles the batch. -/
def handle (k : Pushing) (url : String) (entries : List ReplicationEntry) : Pushing :=
  { k with
    servers := Function.update k.servers url ((k.servers url).replicationApply p c env entries).2
    applied := Function.update k.applied url
      (if (k.servers url).role = .replica ∧ takesBatch c env (k.servers url).db entries then
        k.applied url ++ entries else k.applied url) }

/-- The next request of a task. A transport error ends it. -/
def post (k : Pushing) (task : Nat) (fate : PostFate) (entries : List ReplicationEntry)
    (maxSeq : Nat) (base : String) (left : List String) : Pushing :=
  match fate with
  | .lost => { k with tasks := k.tasks.set task .ended }
  | .unanswered =>
    { k.handle p c env (applyUrl base) entries with tasks := k.tasks.set task .ended }
  | .answered =>
    { k.handle p c env (applyUrl base) entries with
      tasks := k.tasks.set task (.posting entries maxSeq left) }

/-- An event that its task is not ready for changes nothing. -/
def step (env' : Env) (k : Pushing) : Event → Pushing
  | .primary call => k.call p c env call
  | .load task =>
    match k.tasks[task]? with
    | some .spawned => { k with tasks := k.tasks.set task (.loaded k.lastPushedSeq) }
    | _ => k
  | .read task =>
    match k.tasks[task]? with
    | some (.loaded pushed) => k.readPage c task pushed
    | _ => k
  | .post task fate =>
    match k.tasks[task]? with
    | some (.posting entries maxSeq (base :: left)) =>
      k.post p c env' task fate entries maxSeq base left
    | _ => k
  | .store task =>
    match k.tasks[task]? with
    | some (.posting _ maxSeq []) =>
      { k with lastPushedSeq := maxSeq, tasks := k.tasks.set task .ended }
    | _ => k

/-- Every server behind a URL of the primary has stored the entry. -/
def Everywhere (k : Pushing) (e : ReplicationEntry) : Prop :=
  ∀ base ∈ k.replicaUrls, e ∈ k.applied (applyUrl base)

instance (k : Pushing) (e : ReplicationEntry) : Decidable (k.Everywhere e) :=
  inferInstanceAs (Decidable (∀ _ ∈ _, _))

/-- The inserts log whole records, a flush cuts off nothing but what all replicas have, and
an answer is a success. -/
def Orderly (env' : Env) (k : Pushing) : Event → Prop
  | .primary call => k.primary.Logs p c env call ∧ (call = .flushMemtable →
      k.primary.tree.memtable.chain = [] ∨ ∀ e ∈ k.primary.appended, k.Everywhere e)
  | .post task fate =>
    match k.tasks[task]? with
    | some (.posting entries _ (base :: _)) => fate = .answered →
      k.answerOf p c env' (applyUrl base) entries = some (.ok ⟨true, none⟩)
    | _ => True
  | _ => True

instance (env' : Env) (k : Pushing) (e : Event) : Decidable (k.Orderly p c env env' e) :=
  match e with
  | .primary _ => inferInstanceAs (Decidable (_ ∧ (_ → _ ∨ ∀ _ ∈ _, _)))
  | .post task fate => by
    unfold Orderly
    dsimp only
    split <;> infer_instance
  | .load _ => isTrue trivial
  | .read _ => isTrue trivial
  | .store _ => isTrue trivial

/-- The position is not ahead of a replica, and replicas have nothing but what the primary
has logged. -/
structure NotAhead (k : Pushing) : Prop where
  position : k.lastPushedSeq ≠ neverPushed →
    ∀ e ∈ k.primary.appended, e.sequence ≤ k.lastPushedSeq → k.Everywhere e
  sound : ∀ url, ∀ e ∈ k.applied url, e ∈ k.primary.appended

/-- A position that every replica has reached. -/
structure Safe (k : Pushing) (pushed : Nat) : Prop where
  complete : Complete ReplicationEntry.sequence k.primary.appended k.Everywhere (afterOf pushed)
  below : ∀ s ∈ afterOf pushed, s < k.primary.tree.wal.sequence

/-- A page of the primary that closes the gap behind what all replicas have. -/
structure Fits (k : Pushing) (entries : List ReplicationEntry) : Prop where
  nonempty : entries ≠ []
  closes : Closes ReplicationEntry.sequence k.primary.appended k.Everywhere entries
  sound : ∀ e ∈ entries, e ∈ k.primary.appended

/-- What a task knows: the replicas it is done with have its page. -/
def TaskFits (k : Pushing) : PushTask → Prop
  | .spawned => True
  | .loaded pushed => k.Safe pushed
  | .posting entries maxSeq left => k.Fits entries ∧
      entries.getLast?.map ReplicationEntry.sequence = some maxSeq ∧
      ∀ base ∈ k.replicaUrls, base ∈ left ∨ ∀ e ∈ entries, e ∈ k.applied (applyUrl base)
  | .ended => True

structure Inv (c : Codec) (k : Pushing) : Prop where
  streams : ∃ gone held first, k.primary.Streams c gone held first ∧ ∀ e ∈ gone, k.Everywhere e
  roles : ∀ url, (k.servers url).db.1.role = (k.servers url).role
  levels : ∀ url, (k.servers url).db.1.compaction.levels ≠ []
  sound : ∀ url, ∀ e ∈ k.applied url, e ∈ k.primary.appended
  position : k.Safe k.lastPushedSeq
  tasks : ∀ task ∈ k.tasks, k.TaskFits task

/-- What every event does: the log and the replicas only gain entries, the log behind all
others. -/
structure Grows (k k' : Pushing) : Prop where
  urls : k'.replicaUrls = k.replicaUrls
  appended : ∃ more, k'.primary.appended = k.primary.appended ++ more ∧
    ∀ e ∈ more, k.primary.tree.wal.sequence ≤ e.sequence
  sequence : k.primary.tree.wal.sequence ≤ k'.primary.tree.wal.sequence
  applied : ∀ url, ∀ e ∈ k.applied url, e ∈ k'.applied url

variable {p c env} {env' : Env} {k k' : Pushing}

theorem Grows.everywhere (h : Grows k k') {e : ReplicationEntry} (he : k.Everywhere e) :
    k'.Everywhere e := by
  intro base hbase
  rw [h.urls] at hbase
  exact h.applied _ e (he base hbase)

theorem Grows.kept (h : Grows k k') {e : ReplicationEntry} (he : e ∈ k.primary.appended) :
    e ∈ k'.primary.appended := by
  obtain ⟨more, happended, -⟩ := h.appended
  rw [happended]
  exact List.mem_append_left more he

theorem Safe.grows {pushed : Nat} (hsafe : k.Safe pushed) (h : Grows k k') : k'.Safe pushed := by
  obtain ⟨more, happended, hmore⟩ := h.appended
  refine ⟨?_, fun s hs => (hsafe.below s hs).trans_le h.sequence⟩
  rw [happended]
  exact (hsafe.complete.mono fun e => h.everywhere).append fun e he s hs =>
    (hsafe.below s hs).trans_le (hmore e he)

theorem Fits.grows {entries : List ReplicationEntry} (hfits : k.Fits entries) (h : Grows k k')
    (hbelow : ∀ e ∈ k.primary.appended, e.sequence < k.primary.tree.wal.sequence) :
    k'.Fits entries := by
  obtain ⟨more, happended, hmore⟩ := h.appended
  refine ⟨hfits.nonempty, ?_, fun e he => h.kept (hfits.sound e he)⟩
  rw [happended]
  exact (hfits.closes.mono fun e => h.everywhere).append fun e he x hx =>
    (hbelow x (hfits.sound x hx)).trans_le (hmore e he)

theorem TaskFits.grows {task : PushTask} (htask : k.TaskFits task) (h : Grows k k')
    (hbelow : ∀ e ∈ k.primary.appended, e.sequence < k.primary.tree.wal.sequence) :
    k'.TaskFits task := by
  cases task with
  | spawned => trivial
  | loaded pushed => exact Safe.grows htask h
  | posting entries maxSeq left =>
    obtain ⟨hfits, hlast, hleft⟩ := htask
    refine ⟨hfits.grows h hbelow, hlast, fun base hbase => ?_⟩
    rw [h.urls] at hbase
    exact (hleft base hbase).imp_right fun hall e he => h.applied _ e (hall e he)
  | ended => trivial

theorem Inv.below (h : Inv c k) : ∀ e ∈ k.primary.appended, e.sequence < k.primary.tree.wal.sequence := by
  obtain ⟨gone, held, first, hstreams, -⟩ := h.streams
  exact hstreams.below

/-- An event that adds a task or takes one on. -/
theorem Inv.grow (h : Inv c k) (hgrows : Grows k k')
    (hstreams : ∃ gone held first, k'.primary.Streams c gone held first ∧ ∀ e ∈ gone, k'.Everywhere e)
    (hroles : ∀ url, (k'.servers url).db.1.role = (k'.servers url).role)
    (hlevels : ∀ url, (k'.servers url).db.1.compaction.levels ≠ [])
    (hsound : ∀ url, ∀ e ∈ k'.applied url, e ∈ k'.primary.appended)
    (hposition : k'.Safe k'.lastPushedSeq)
    (htasks : ∀ task ∈ k'.tasks, task ∈ k.tasks ∨ k'.TaskFits task) : Inv c k' :=
  ⟨hstreams, hroles, hlevels, hsound, hposition, fun task htask =>
    (htasks task htask).elim (fun hold => (h.tasks task hold).grows hgrows h.below) id⟩

theorem inv_start (c : Codec) (flushThreshold : Nat) (replicaUrls : List String)
    (roles : String → NodeRole) (thresholds : String → Nat) :
    Inv c (start flushThreshold replicaUrls roles thresholds) where
  streams := ⟨[], [], 0, Primary.streams_start c flushThreshold, List.forall_mem_nil _⟩
  roles _ := rfl
  levels _ := List.cons_ne_nil _ _
  sound _ := List.forall_mem_nil _
  position := ⟨complete_none _ _, nofun⟩
  tasks := List.forall_mem_nil _

theorem Grows.refl (k : Pushing) : Grows k k :=
  ⟨rfl, ⟨[], (List.append_nil _).symm, List.forall_mem_nil _⟩, le_rfl, fun _ _ he => he⟩

/-- Only one task moves on, and the log is read at most. -/
theorem Inv.move (h : Inv c k) {i : Nat} {task : PushTask} {time pushed : Nat}
    (hposition : k.Safe pushed) (htask : k.TaskFits task) :
    Inv c { k with
      primary := ⟨k.primary.tree, time, k.primary.appended⟩
      lastPushedSeq := pushed
      tasks := k.tasks.set i task } := by
  obtain ⟨gone, held, first, hstreams, hgone⟩ := h.streams
  have hgrows : Grows k { k with
      primary := ⟨k.primary.tree, time, k.primary.appended⟩
      lastPushedSeq := pushed
      tasks := k.tasks.set i task } :=
    ⟨rfl, ⟨[], (List.append_nil _).symm, List.forall_mem_nil _⟩, le_rfl, fun _ _ he => he⟩
  refine h.grow hgrows ⟨gone, held, first, hstreams.same ⟨List.prefix_rfl, id⟩ rfl rfl, hgone⟩
    h.roles h.levels h.sound (hposition.grows hgrows) fun other hother => ?_
  rcases List.mem_or_eq_of_mem_set hother with hold | rfl
  · exact Or.inl hold
  · exact Or.inr (htask.grows hgrows h.below)

theorem inv_insertion (h : Inv c k) {insertion : InsertCall}
    (hlogs : k.primary.Logs p c env (.insertion insertion)) :
    Inv c (k.call p c env (.insertion insertion)) := by
  obtain ⟨gone, held, first, hstreams, hgone⟩ := h.streams
  obtain ⟨new, hstreams', hnew⟩ := Primary.streams_insertion hstreams hlogs
  have happended : (k.primary.step p c env (.insertion insertion)).appended =
      k.primary.appended ++ new := by
    rw [hstreams'.appended, hstreams.appended, List.append_assoc]
  have hgrows : Grows k (k.call p c env (.insertion insertion)) := by
    refine ⟨rfl, ⟨new, happended, hnew⟩, ?_, fun _ _ he => he⟩
    exact (hstreams.sequence.trans_le (by rw [List.length_append]; omega)).trans_eq
      hstreams'.sequence.symm
  refine h.grow hgrows ⟨gone, held ++ new, first, hstreams', hgone⟩ h.roles h.levels
    (fun url e he => hgrows.kept (h.sound url e he)) (h.position.grows hgrows) fun task htask => ?_
  rw [call] at htask
  split_ifs at htask
  · rcases List.mem_append.mp htask with hold | hnew
    · exact Or.inl hold
    · rw [List.mem_singleton.mp hnew]
      exact Or.inr trivial
  · exact Or.inl htask

theorem inv_flushMemtable (h : Inv c k) (hcovered : k.primary.tree.memtable.chain = [] ∨
    ∀ e ∈ k.primary.appended, k.Everywhere e) : Inv c (k.call p c env .flushMemtable) := by
  obtain ⟨gone, held, first, hstreams, hgone⟩ := h.streams
  have hkeep (hsequence : k.primary.tree.wal.sequence =
        (k.primary.step p c env .flushMemtable).tree.wal.sequence)
      (hstreams' : ∃ gone held first, (k.primary.step p c env .flushMemtable).Streams c gone held
        first ∧ ∀ e ∈ gone, k.Everywhere e) : Inv c (k.call p c env .flushMemtable) := by
    have hgrows : Grows k (k.call p c env .flushMemtable) :=
      ⟨rfl, ⟨[], (List.append_nil _).symm, List.forall_mem_nil _⟩, hsequence.le, fun _ _ he => he⟩
    exact h.grow hgrows hstreams' h.roles h.levels h.sound (h.position.grows hgrows)
      fun task htask => Or.inl htask
  rcases Primary.streams_flushMemtable hstreams p env with hstreams' | ⟨hchain, hstreams'⟩
  · exact hkeep (hstreams.sequence.trans hstreams'.sequence.symm)
      ⟨gone, held, first, hstreams', hgone⟩
  · refine hkeep hstreams'.sequence.symm ⟨gone ++ held, [], _, hstreams', fun e he => ?_⟩
    rw [← hstreams.appended] at he
    exact hcovered.resolve_left hchain e he

/-- A task that reads gets a page behind what all replicas have. -/
theorem inv_readPage (h : Inv c k) {i pushed : Nat} (hsafe : k.Safe pushed) :
    Inv c (k.readPage c i pushed) := by
  obtain ⟨gone, held, first, hstreams, hgone⟩ := h.streams
  have hpage := SortedPages.page_sublist ReplicationEntry.sequence held (afterOf pushed) 500
  have hsorted : (held.map ReplicationEntry.sequence).Pairwise (· < ·) := by
    have hall := hstreams.increasing
    rw [hstreams.appended, List.map_append] at hall
    exact (List.pairwise_append.mp hall).2.1
  rw [readPage, hstreams.read]
  refine h.move h.position ?_
  split_ifs with hempty
  · trivial
  obtain ⟨front, last, hlast⟩ := (List.eq_nil_or_concat' _).resolve_left hempty
  refine ⟨⟨hempty, ?_, fun e he => ?_⟩, ?_, fun base hbase => Or.inl hbase⟩
  · have hcomplete := hsafe.complete
    rw [hstreams.appended] at hcomplete
    have hcloses := closes_page hsorted hcomplete hgone 500
    rwa [← hstreams.appended] at hcloses
  · rw [hstreams.appended]
    exact List.mem_append_right gone (hpage.mem he)
  · rw [hlast, List.getLast?_concat]
    rfl

/-- What a server does with a batch that is not empty. -/
theorem replicationApply_spec (p : Platform) (c : Codec) (env : Env) {s : AppState}
    (hrole : s.db.1.role = s.role) (hlevels : s.db.1.compaction.levels ≠ [])
    {entries : List ReplicationEntry} (hne : entries ≠ []) :
    (s.replicationApply p c env entries).2.db.1.role = (s.replicationApply p c env entries).2.role ∧
      (s.replicationApply p c env entries).2.db.1.compaction.levels ≠ [] ∧
      ((s.replicationApply p c env entries).1 = some (.ok ⟨true, none⟩) →
        s.role = .replica ∧ takesBatch c env s.db entries = true) := by
  rw [AppState.replicationApply]
  split_ifs with hnot
  · exact ⟨hrole, hlevels, nofun⟩
  have hreplica : s.role = .replica := not_not.mp hnot
  obtain ⟨r, s', time', hexec, happlied⟩ :=
    exec_apply p c env (hrole.trans hreplica) hlevels s.db.2 hne
  rw [AppState.call, hexec]
  have hkept : s'.role = s.role := happlied.role.trans hrole
  cases r with
  | ok n => exact ⟨hkept, happlied.levels, fun _ => ⟨hreplica, happlied.taken n rfl⟩⟩
  | error stop =>
    cases stop with
    | error e => exact ⟨hkept, happlied.levels, nofun⟩
    | panic => exact ⟨hkept, happlied.levels, nofun⟩

theorem inv_handle (h : Inv c k) {url : String} {entries : List ReplicationEntry}
    (hfits : k.Fits entries) :
    Inv c (k.handle p c env' url entries) ∧ Grows k (k.handle p c env' url entries) := by
  obtain ⟨gone, held, first, hstreams, hgone⟩ := h.streams
  obtain ⟨hrole, hlevels, -⟩ :=
    replicationApply_spec p c env' (h.roles url) (h.levels url) hfits.nonempty
  have hgrows : Grows k (k.handle p c env' url entries) := by
    refine ⟨rfl, ⟨[], (List.append_nil _).symm, List.forall_mem_nil _⟩, le_rfl, fun other e he => ?_⟩
    rw [handle]
    dsimp only
    rcases eq_or_ne other url with rfl | hother
    · rw [Function.update_self]
      split_ifs
      · exact List.mem_append_left entries he
      · exact he
    · rwa [Function.update_of_ne hother]
  refine ⟨h.grow hgrows ⟨gone, held, first, hstreams, fun e he => hgrows.everywhere (hgone e he)⟩
    (fun other => ?_) (fun other => ?_) (fun other e he => ?_) (h.position.grows hgrows)
    fun task htask => Or.inl htask, hgrows⟩
  · rw [handle]
    dsimp only
    rcases eq_or_ne other url with rfl | hother
    · rwa [Function.update_self]
    · rw [Function.update_of_ne hother]
      exact h.roles other
  · rw [handle]
    dsimp only
    rcases eq_or_ne other url with rfl | hother
    · rwa [Function.update_self]
    · rw [Function.update_of_ne hother]
      exact h.levels other
  · rw [handle] at he ⊢
    dsimp only at he ⊢
    rcases eq_or_ne other url with rfl | hother
    · rw [Function.update_self] at he
      split_ifs at he
      · exact (List.mem_append.mp he).elim (h.sound other e) (hfits.sound e)
      · exact h.sound other e he
    · rw [Function.update_of_ne hother] at he
      exact h.sound other e he

theorem applied_handle (k : Pushing) {url : String} {entries : List ReplicationEntry}
    (h : (k.servers url).role = .replica ∧ takesBatch c env' (k.servers url).db entries = true) :
    ∀ e ∈ entries, e ∈ (k.handle p c env' url entries).applied url := by
  intro e he
  rw [handle]
  dsimp only
  rw [Function.update_self, if_pos h]
  exact List.mem_append_right _ he

/-- A request of a task whose answers are successes. -/
theorem inv_post (h : Inv c k) {i maxSeq : Nat} {fate : PostFate} {entries : List ReplicationEntry}
    {base : String} {left : List String}
    (htask : k.TaskFits (.posting entries maxSeq (base :: left)))
    (hanswer : fate = .answered →
      k.answerOf p c env' (applyUrl base) entries = some (.ok ⟨true, none⟩)) :
    Inv c (k.post p c env' i fate entries maxSeq base left) := by
  obtain ⟨hfits, hlast, hleft⟩ := htask
  obtain ⟨hinv, hgrows⟩ : Inv c (k.handle p c env' (applyUrl base) entries) ∧
      Grows k (k.handle p c env' (applyUrl base) entries) := inv_handle h hfits
  cases fate with
  | lost => exact h.move h.position trivial
  | unanswered => exact hinv.move hinv.position trivial
  | answered =>
    refine hinv.move hinv.position ⟨hfits.grows hgrows h.below, hlast, fun other hother => ?_⟩
    have htakes := (replicationApply_spec p c env' (h.roles (applyUrl base)) (h.levels _)
      hfits.nonempty).2.2 (hanswer rfl)
    rcases hleft other hother with hmem | hall
    · rcases List.mem_cons.mp hmem with rfl | hmem
      · exact Or.inr (applied_handle k htakes)
      · exact Or.inl hmem
    · exact Or.inr fun e he => hgrows.applied _ e (hall e he)

/-- The number that a task stores when all its requests have been answered. -/
theorem safe_of_posted (h : Inv c k) {entries : List ReplicationEntry} {maxSeq : Nat}
    (htask : k.TaskFits (.posting entries maxSeq [])) : k.Safe maxSeq := by
  obtain ⟨hfits, hlast, hleft⟩ := htask
  have hall : ∀ e ∈ entries, k.Everywhere e := fun e he base hbase =>
    ((hleft base hbase).resolve_left List.not_mem_nil) e he
  have hcomplete := hfits.closes.complete hall
  rw [hlast] at hcomplete
  obtain ⟨x, hx, hmax⟩ := Option.map_eq_some_iff.mp hlast
  have hlt : maxSeq < k.primary.tree.wal.sequence :=
    hmax ▸ h.below x (hfits.sound x (List.mem_of_getLast? hx))
  by_cases hnever : maxSeq = neverPushed
  · have hafter : afterOf maxSeq = none := if_pos hnever
    exact ⟨hafter ▸ complete_none _ _, by rw [hafter]; exact nofun⟩
  · have hafter : afterOf maxSeq = some maxSeq := if_neg hnever
    refine ⟨hafter ▸ hcomplete, ?_⟩
    rw [hafter]
    rintro s ⟨⟩
    exact hlt

theorem Inv.notAhead (h : Inv c k) : k.NotAhead where
  position hnever e he hle :=
    h.position.complete e he k.lastPushedSeq (if_neg hnever) hle
  sound := h.sound

theorem inv_step (p : Platform) (c : Codec) (env env' : Env) (k : Pushing) (e : Event) (h : Inv c k)
    (horderly : k.Orderly p c env env' e) : Inv c (step p c env env' k e) := by
  have hget {i : Nat} {task : PushTask} (hi : k.tasks[i]? = some task) : k.TaskFits task :=
    h.tasks task (List.mem_of_getElem? hi)
  cases e with
  | primary call =>
    cases call with
    | insertion insertion => exact inv_insertion h horderly.1
    | flushMemtable => exact inv_flushMemtable h (horderly.2 rfl)
  | load i =>
    rw [step]
    split
    · exact h.move h.position h.position
    · exact h
  | read i =>
    rw [step]
    split
    · rename_i hi
      exact inv_readPage h (hget hi)
    · exact h
  | post i fate =>
    rw [step]
    rw [Orderly] at horderly
    split
    · rename_i hi
      rw [hi] at horderly
      exact inv_post h (hget hi) horderly
    · exact h
  | store i =>
    rw [step]
    split
    · rename_i hi
      exact h.move (safe_of_posted h (hget hi)) trivial
    · exact h

/-- As long as the events are orderly, the position is not ahead of a replica. -/
theorem pushes_reach_every_replica (p : Platform) (c : Codec) (env env' : Env) (flushThreshold : Nat)
    (replicaUrls : List String) (roles : String → NodeRole) (thresholds : String → Nat)
    (events : List Event) (h : Guarded (step p c env env') (Orderly p c env env')
      (start flushThreshold replicaUrls roles thresholds) events) :
    Always (step p c env env') NotAhead (start flushThreshold replicaUrls roles thresholds) events :=
  always_of_guarded (Inv c) (fun _ => Inv.notAhead) (inv_step p c env env')
    (inv_start c flushThreshold replicaUrls roles thresholds) h

set_option maxRecDepth 20000 in
/-- Two tasks for two inserts and one replica: the first request gets no answer, the second
task starts where the first one did. -/
theorem pushes_reach_every_replica_two_tasks :
    Always (step .simple History.versionsCodec .calm .calm) NotAhead
      (start 10 ["http://r/"] (fun _ => .replica) fun _ => 10)
      [.primary (History.insertA 1), .load 0, .read 0, .post 0 .unanswered,
        .primary (History.insertA 2), .load 1, .read 1, .post 1 .answered, .store 1,
        .primary .flushMemtable] :=
  pushes_reach_every_replica .simple History.versionsCodec .calm .calm 10 ["http://r/"] _ _ _
    (by decide +kernel)

end Pushing

end Graphite
