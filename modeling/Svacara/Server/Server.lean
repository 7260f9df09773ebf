/-
`internal/server/server.go`: the messages of the clients.

# The state

A server has one relational database, one transaction manager (the
pool's) and, for each client connection, the pooled connection that
`handleConn` has acquired for it. The database and the manager are made
over the same store; the manager reads and writes it through `m.kv`,
which is set here to what the database's store holds before each call.
No method of the server calls `Get` or `Set` of a pooled connection, so
no transaction ever buffers anything and the manager's calls leave the
store alone (`manager_leaves_store`); the step keeps the database for
that reason.

# The answers

Every message gets one frame back. The texts that the formatting package
makes of floats and quoted strings are parameters, as is the text of a
store's error. A panic in a handler ends the process.
-/
import Svacara.Protocol.Message
import Svacara.Pool.Conn
import Svacara.Sql.Executor

namespace Svacara.Serving

open Protocol Pooling Sql Relational
open Svacara.Kvstore

/-- What is left to other packages in the texts sent: `%q`, `%g` and the
message of a failed store operation. -/
structure Formats where
  quote : Bytes → Bytes
  float : UInt64 → Bytes
  cause : Bytes

structure Server (σ : Type) where
  db : DB σ
  mgr : Transaction.Manager
  conns : Nat → Conn

/-- A message, with what Go leaves open when it is a Commit: the order in
which the pending map is visited, and which store operations fail. -/
structure Message where
  msgType : UInt8
  payload : Bytes := []
  ranges : Visit Transaction.Write := Visit.inOrder
  writes : Visit Transaction.Write := Visit.inOrder
  fails : Nat → Bool := fun _ => false

-- ========================================================= answers

def sendError (err : Bytes) : Bytes := encodeMessage msgError err

def sendReady : Bytes := encodeMessage msgReady (lit "READY")

def connErrorText (fmt : Formats) : ConnError → Bytes
  | .inProgress => lit "transaction already in progress"
  | .noTransaction => lit "no transaction in progress"
  | .commit .finished => lit "tx already finished"
  | .commit .conflict => lit "serialization conflict"
  | .commit .del => lit "commit del: " ++ fmt.cause
  | .commit .set => lit "commit set: " ++ fmt.cause

/-- The answer to a Begin or a Commit. -/
def sendOutcome (fmt : Formats) : Option ConnError → Bytes
  | some e => sendError (connErrorText fmt e)
  | none => sendReady

def valToString (fmt : Formats) (v : Value) : Bytes :=
  if v.type = typeInt64 then lit (toString v.i64.toInt)
  else if v.type = typeBytes then v.str
  else if v.type = typeBool then if v.bool then lit "true" else lit "false"
  else if v.type = typeFloat64 then fmt.float v.f64
  else lit "NULL"

/-- The loop over the columns of a record: the value at the position of
each, which must be there. -/
def rowOf (fmt : Formats) : List Bytes → List Value → Row → Except Fault Row
  | [], _, row => .ok row
  | _ :: _, [], _ => .error .index
  | col :: cols, v :: vals, row =>
      rowOf fmt cols vals (Function.update row col (some (valToString fmt v)))

/-- The loop over the records; the names sent are those of the last. -/
def rowsOf (fmt : Formats) : List Bytes → List Record →
    Except Fault (List Bytes × List Row)
  | cols, [] => .ok (cols, [])
  | _, rec :: recs => do
      let row ← rowOf fmt rec.cols rec.vals fun _ => none
      let (cols, rows) ← rowsOf fmt rec.cols recs
      return (cols, row :: rows)

/-- The answer to a query that was executed. -/
def answer (fmt : Formats) : Except SqlErr Output → Except Fault Bytes
  | .error e => .ok (sendError (e.text fmt.quote))
  | .ok (.records recs) => do
      let (cols, rows) ← rowsOf fmt [] recs
      return encodeResult cols rows
  | .ok _ => .ok sendReady

-- ======================================================== handlers

section

variable {σ : Type} (fmt : Formats) (kv : Storage σ)

/-- The executor is made over the server's own database; the connection
is not asked. -/
def handleQuery (srv : Server σ) (query : Bytes) : Except Fault (Bytes × Server σ) := do
  let (result, db) := executeRaw kv query srv.db
  let result ← result
  let reply ← answer fmt result
  return (reply, { srv with db := db })

/-- The manager with the store as it is. -/
def Server.manager (srv : Server σ) : Transaction.Manager :=
  { srv.mgr with kv := kv.get srv.db.kv }

/-- The server after a method of the connection of client `i`. -/
def Server.after (srv : Server σ) (i : Nat) (conn : Conn) (m : Transaction.Manager) :
    Server σ :=
  { srv with mgr := m, conns := Function.update srv.conns i conn }

/-- `handleMessage` for the connection of client `i`. -/
def handleMessage (srv : Server σ) (i : Nat) (msg : Message) :
    Except Fault (Bytes × Server σ) :=
  if msg.msgType = msgQuery then handleQuery fmt kv srv msg.payload
  else if msg.msgType = msgBegin then
    let (err, conn, m) := (srv.conns i).begin (srv.manager kv) 0
    .ok (sendOutcome fmt err, srv.after i conn m)
  else if msg.msgType = msgCommit then
    let (err, conn, m) :=
      (srv.conns i).commit (srv.manager kv) msg.ranges msg.writes msg.fails
    .ok (sendOutcome fmt err, srv.after i conn m)
  else if msg.msgType = msgAbort then
    let (conn, m) := (srv.conns i).abort (srv.manager kv)
    .ok (sendReady, srv.after i conn m)
  else .ok (sendError (lit "unknown message type: " ++ lit (toString msg.msgType.toNat)), srv)

/-- The answers to messages from several clients, each with the client it
goes to, and the server they leave. -/
def serve : Server σ → List (Nat × Message) → Except Fault (List (Nat × Bytes) × Server σ)
  | srv, [] => .ok ([], srv)
  | srv, (i, msg) :: msgs => do
      let (reply, srv) ← handleMessage fmt kv srv i msg
      let (replies, srv) ← serve srv msgs
      return ((i, reply) :: replies, srv)

end

end Svacara.Serving
