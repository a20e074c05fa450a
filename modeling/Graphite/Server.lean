import Graphite.LsmLockOrder

/-! The HTTP server of a node. Its role decides which requests reach the tree: a primary
takes ticks and serves its log, a replica takes batches. -/

namespace Graphite
open LockProgram

inductive StatusCode where
  | ok
  | badRequest
  | forbidden
  | internalServerError
  deriving DecidableEq, Repr

/-- A text, or an error of the database that is sent as its text. -/
inductive ResponseError where
  | text (s : String)
  | db (e : LsmError)
  deriving DecidableEq, Repr

structure TickResponse where
  ok : Bool
  error : Option ResponseError
  deriving DecidableEq, Repr

structure TickPayload where
  symbol : String
  timestamp : TimestampNs
  open_ : F64
  high : F64
  low : F64
  close : F64
  volume : UInt64
  deriving DecidableEq, Repr

/-- `DB::insert` of the payload. -/
def TickPayload.call (payload : TickPayload) : InsertCall :=
  .insert payload.symbol ⟨0, payload.timestamp, payload.open_, payload.high, payload.low,
    payload.close, payload.volume⟩

structure WalQuery where
  after : Option Nat
  limit : Nat
  deriving DecidableEq, Repr

def defaultLimit : Nat := 500

structure WalStreamResponse where
  entries : List ReplicationEntry
  walSequence : Nat
  deriving DecidableEq

structure HealthResponse where
  status : String
  role : NodeRole
  totalRows : Nat
  deriving DecidableEq, Repr

structure ReplicationStatus where
  role : NodeRole
  walSequence : Nat
  lastPrimarySequence : Nat
  lagEntries : Nat
  deriving DecidableEq, Repr

def parseRole (s : String) : Except String NodeRole :=
  if s.toLower = "primary" then .ok .primary
  else if s.toLower = "replica" then .ok .replica
  else .error ("invalid role: " ++ s ++ " (use primary or replica)")

namespace LsmTree

def replicationStatus : LsmOp ReplicationStatus := do
  let walSequence ← withGuard .wal .read (gets fun st => st.1.wal.sequence)
  withGuard .replication .read (gets fun st =>
    { role := st.1.role
      walSequence := walSequence
      lastPrimarySequence := st.1.lastPrimarySequence.getD 0
      lagEntries := walSequence - st.1.lastPrimarySequence.getD 0 })

end LsmTree

/-- The state of a server, with the number of push tasks it has spawned. -/
structure AppState where
  role : NodeRole
  replicaUrls : List String
  db : LsmTree × Nat
  pushTasks : Nat

namespace AppState

/-- A server on an empty directory. -/
def start (role : NodeRole) (replicaUrls : List String) (flushThreshold : Nat) : AppState :=
  ⟨role, replicaUrls, (LsmTree.fresh flushThreshold role, 0), 0⟩

variable {α : Type} (p : Platform) (c : Codec) (env : Env)

/-- A call of the database inside a handler. A handler that panics or waits for a lock that
it holds itself gives no answer. -/
def call (s : AppState) (op : LsmOp α) : Option (Except LsmError α) × AppState :=
  match exec op [] s.db with
  | .finished (.ok a) _ db => (some (.ok a), { s with db := db })
  | .finished (.error (.error e)) _ db => (some (.error e), { s with db := db })
  | .finished (.error .panic) _ db => (none, { s with db := db })
  | .blocked _ _ db => (none, { s with db := db })

def health (s : AppState) : Option HealthResponse × AppState :=
  match s.call LsmTree.stats with
  | (some (.ok stats), s') => (some ⟨"ok", s.role, stats.totalRows⟩, s')
  | (_, s') => (none, s')

def replicationStatus (s : AppState) : Option ReplicationStatus × AppState :=
  match s.call LsmTree.replicationStatus with
  | (some (.ok status), s') => (some status, s')
  | (_, s') => (none, s')

def replicationWal (s : AppState) (query : WalQuery) :
    Option (Except StatusCode WalStreamResponse) × AppState :=
  if s.role ≠ .primary then (some (.error .forbidden), s)
  else
    match s.call (LsmTree.readWalForReplication c query.after query.limit) with
    | (some (.ok entries), s') =>
      match s'.replicationStatus with
      | (some status, s'') => (some (.ok ⟨entries, status.walSequence⟩), s'')
      | (none, s'') => (none, s'')
    | (some (.error _), s') => (some (.error .internalServerError), s')
    | (none, s') => (none, s')

def replicationApply (s : AppState) (entries : List ReplicationEntry) :
    Option (Except StatusCode TickResponse) × AppState :=
  if s.role ≠ .replica then (some (.error .forbidden), s)
  else
    match s.call (LsmTree.applyReplicationBatch p c env entries) with
    | (some (.ok _), s') => (some (.ok ⟨true, none⟩), s')
    | (some (.error e), s') => (some (.ok ⟨false, some (.db e)⟩), s')
    | (none, s') => (none, s')

/-- Nothing is pushed without replicas, or from a replica. -/
def scheduleReplicationPush (s : AppState) : AppState :=
  if s.replicaUrls = [] ∨ s.role ≠ .primary then s else { s with pushTasks := s.pushTasks + 1 }

def insertPayload (s : AppState) (payload : TickPayload) : Option (Except LsmError Unit) × AppState :=
  s.call (payload.call.op p c env)

def insertTick (s : AppState) (payload : TickPayload) :
    Option (StatusCode × TickResponse) × AppState :=
  if s.role ≠ .primary then
    (some (.forbidden, ⟨false, some (.text "replica cannot accept writes")⟩), s)
  else
    match s.insertPayload p c env payload with
    | (some (.ok _), s') => (some (.ok, ⟨true, none⟩), s'.scheduleReplicationPush)
    | (some (.error e), s') => (some (.badRequest, ⟨false, some (.db e)⟩), s')
    | (none, s') => (none, s')

/-- What a client sends over its socket. -/
inductive Message where
  | text (s : String)
  | close
  | broken
  | other
  deriving DecidableEq, Repr

variable (fromStr : String → Except String TickPayload)

/-- The answer to a text on the socket. -/
def answerText (s : AppState) (text : String) : Option TickResponse × AppState :=
  if s.role ≠ .primary then (some ⟨false, some (.text "replica cannot accept writes")⟩, s)
  else
    match fromStr text with
    | .ok payload =>
      match s.insertPayload p c env payload with
      | (some (.ok _), s') => (some ⟨true, none⟩, s'.scheduleReplicationPush)
      | (some (.error e), s') => (some ⟨false, some (.db e)⟩, s')
      | (none, s') => (none, s')
    | .error e => (some ⟨false, some (.text e)⟩, s)

/-- The messages of one socket, each with whether an answer to it gets through; the answers
in order. -/
def handleSocket (s : AppState) : List (Message × Bool) → List TickResponse × AppState
  | [] => ([], s)
  | (.text text, sent) :: messages =>
    match s.answerText p c env fromStr text with
    | (some response, s') =>
      if sent then
        let rest := handleSocket s' messages
        (response :: rest.1, rest.2)
      else ([], s')
    | (none, s') => ([], s')
  | (.close, _) :: _ => ([], s)
  | (.broken, _) :: _ => ([], s)
  | (.other, _) :: messages => handleSocket s messages

end AppState

end Graphite
