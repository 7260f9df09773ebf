/-
`internal/server/server.go`: the connections of a server, from `Accept`
to the return of `handleConn`.

# The state

Each client connection has its own goroutine in `handleConn`, which
waits in a `Read`; its `Phase` says which one. Between two reads it runs
to the next one, so a run of the server is a sequence of events: a
connection is accepted, a read returns bytes or an error, or `Shutdown`
is called. A read returns no more than its buffer holds.

# What is left open

The clock readings of the pool and what Go leaves open in a Commit come
with the event. What `Close` does to the store is a parameter; the
connections that are open go on after it. A panic in any goroutine ends
the process.
-/
import Svacara.Server.ReadLoop
import Svacara.Server.Server
import Svacara.Pool.Pool

namespace Svacara.Serving

open Protocol Pooling Relational
open Svacara.Kvstore

/-- Where a goroutine is: in the read of the token, or in the loop, with
its pooled connection. -/
inductive Phase where
  | unseen
  | greeting
  | serving (conn : Nat)
  | gone

/-- What the goroutines share. -/
structure Host (σ : Type) where
  authToken : Bytes
  db : DB σ
  pool : Pool
  shutdown : Bool

structure Net (σ : Type) where
  host : Host σ
  phase : Nat → Phase

/-- The clock, and what Go leaves open in a Commit. -/
structure Env where
  clock : Clock
  ranges : Visit Transaction.Write := Visit.inOrder
  writes : Visit Transaction.Write := Visit.inOrder
  fails : Nat → Bool := fun _ => false

/-- What happens to one connection. -/
inductive ConnEvent where
  | accept (clock : Clock)
  | read (data : Bytes) (env : Env)
  | fail (now : Time)

inductive NetEvent where
  | conn (i : Nat) (e : ConnEvent)
  | shutdown

-- ================================================== authentication

/-- `make([]byte, 512)`. -/
def authSize : Nat := 512

/-- `buf[i] == '\n' || buf[i] == '\r'`. -/
def isBreak (b : UInt8) : Bool := b = 10 || b = 13

/-- What stands before the first end of a line, nothing if there is
none. -/
def tokenOf (data : Bytes) : Bytes :=
  match data.findIdx? isBreak with
  | some i => data.take i
  | none => []

def authFailed : Bytes := encodeMessage msgError (lit "authentication failed")

def authenticated : Bytes := encodeMessage msgReady (lit "AUTHENTICATED")

-- ====================================================== handleConn

section

variable {σ : Type}

/-- `Acquire`, and on to the loop. -/
def Host.enter (h : Host σ) (clock : Clock) :
    Except Fault (List Bytes × Phase × Host σ) := do
  let (res, p) ← h.pool.acquire clock
  match res with
  | .ok c => return ([], .serving c, { h with pool := p })
  | .error e => return ([sendError (lit "pool: " ++ lit e)], .gone, { h with pool := p })

/-- The first read. What it has behind the token is dropped. -/
def Host.authenticate (h : Host σ) (data : Bytes) (clock : Clock) :
    Except Fault (List Bytes × Phase × Host σ) :=
  if tokenOf (data.take authSize) ≠ h.authToken then .ok ([authFailed], .gone, h)
  else do
    let (replies, ph, h) ← h.enter clock
    return (authenticated :: replies, ph, h)

/-- The part of the host that the messages are about. -/
def Host.server (h : Host σ) : Server σ where
  db := h.db
  mgr := h.pool.mgr
  conns := h.pool.heap

def Host.put (h : Host σ) (srv : Server σ) : Host σ :=
  { h with db := srv.db, pool := { h.pool with mgr := srv.mgr, heap := srv.conns } }

variable (fmt : Formats) (kv : Storage σ)

/-- One round of the loop, on connection `c`. -/
def Host.round (h : Host σ) (c : Nat) (data : Bytes) (env : Env) :
    Except Fault (List Bytes × Phase × Host σ) := do
  match ← handleRead (data.take bufSize) with
  | .sendError err => return ([Serving.sendError (lit err)], .serving c, h)
  | .handleMessage msgType payload =>
      let (reply, srv) ← handleMessage fmt kv h.server c
        ⟨msgType, payload, env.ranges, env.writes, env.fails⟩
      return ([reply], .serving c, h.put srv)

/-- `handleConn`, from one read to the next: the frames it sends, where
it goes, and what it does to the shared state. A closed listener accepts
nothing, and without a token none is asked for. A failed read ends it,
and with it what it has acquired is released. -/
def Host.handleConn (h : Host σ) :
    Phase → ConnEvent → Except Fault (List Bytes × Phase × Host σ)
  | .unseen, .accept clock =>
      if h.shutdown then .ok ([], .unseen, h)
      else if h.authToken = [] then h.enter clock
      else .ok ([], .greeting, h)
  | .greeting, .read data env => h.authenticate data env.clock
  | .greeting, .fail _ => .ok ([], .gone, h)
  | .serving c, .read data env => h.round fmt kv c data env
  | .serving c, .fail now => .ok ([], .gone, { h with pool := h.pool.release c now })
  | ph, _ => .ok ([], ph, h)

variable (closeStore : σ → σ)

/-- A second call does nothing. -/
def Host.shut (h : Host σ) : Host σ :=
  if h.shutdown then h
  else { h with
    shutdown := true, pool := h.pool.close, db := { h.db with kv := closeStore h.db.kv } }

/-- The frames that an event sends, each with its client, and the state
it leaves. -/
def Net.step (s : Net σ) : NetEvent → Except Fault (List (Nat × Bytes) × Net σ)
  | .conn i e => do
      let (frames, ph, host) ← s.host.handleConn fmt kv (s.phase i) e
      return (frames.map (i, ·), ⟨host, Function.update s.phase i ph⟩)
  | .shutdown => .ok ([], { s with host := s.host.shut closeStore })

def Net.run : Net σ → List NetEvent → Except Fault (List (Nat × Bytes) × Net σ)
  | s, [] => .ok ([], s)
  | s, e :: events => do
      let (frames, s) ← s.step fmt kv closeStore e
      let (rest, s) ← s.run events
      return (frames ++ rest, s)

end

/-- `NewServer` on a store that has been opened. -/
def newNet {σ : Type} (kv : Storage σ) (store : σ) (authToken : Bytes) (maxConns : Int)
    (readings : Nat → Time × Time) : Net σ where
  host :=
    { authToken := authToken
      db := openDB store
      pool := newPool (kv.get store) ⟨maxConns, 2, 10 * minute, 0, sessionMode⟩ readings
      shutdown := false }
  phase := fun _ => .unseen

end Svacara.Serving
