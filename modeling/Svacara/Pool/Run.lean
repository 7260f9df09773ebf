/-
Runs of a pool by its clients.

`Acquire`, `Release` and `Close` hold the pool's mutex, so a run is a
sequence of calls. `held` records who has acquired what and not yet
released it. A client only releases a connection, and only calls its
methods, while it holds it, as the server does between its `Acquire` and
the deferred `Release`; any other such call cannot be made and changes
nothing.
-/
import Svacara.Pool.Pool

namespace Svacara.Pooling

open Transaction

structure Sys where
  pool : Pool
  held : List (Nat × Nat)

/-- A call by the first-named client. -/
inductive Call where
  | acquire (client : Nat) (clock : Clock)
  | release (client conn : Nat) (now : Time)
  | close
  | method (client conn : Nat) (call : ConnCall)

inductive Answer where
  | none
  | acquired (res : Except String Nat)
  | method (ans : ConnAnswer)

def Sys.init (db : Store) (config : Config) (readings : Nat → Time × Time) : Sys where
  pool := newPool db config readings
  held := []

/-- A call of a connection's method. -/
def Pool.onConn (p : Pool) (c : Nat) (call : ConnCall) : ConnAnswer × Pool :=
  let (a, conn, m) := (p.heap c).call p.mgr call
  (a, { p with heap := Function.update p.heap c conn, mgr := m })

def step (s : Sys) : Call → Except Fault (Answer × Sys)
  | .acquire client clock => do
      let (res, p) ← s.pool.acquire clock
      match res with
      | .ok c => return (.acquired (.ok c), ⟨p, (client, c) :: s.held⟩)
      | .error e => return (.acquired (.error e), ⟨p, s.held⟩)
  | .release client c now =>
      if (client, c) ∈ s.held then
        .ok (.none, ⟨s.pool.release c now, s.held.erase (client, c)⟩)
      else .ok (.none, s)
  | .close => .ok (.none, ⟨s.pool.close, s.held⟩)
  | .method client c call =>
      if (client, c) ∈ s.held then
        let (a, p) := s.pool.onConn c call
        .ok (.method a, ⟨p, s.held⟩)
      else .ok (.none, s)

/-- The state after a run in which every call returned. -/
def run : Sys → List Call → Except Fault Sys
  | s, [] => .ok s
  | s, c :: calls => do
      let (_, s) ← step s c
      run s calls

end Svacara.Pooling
