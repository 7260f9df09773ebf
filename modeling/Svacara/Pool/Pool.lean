/-
`internal/pool/pool.go`: the pool.

# The state

Connections are allocated and never freed, and the slices of the pool
hold pointers to them. A pointer is the number of its allocation, the
connections are kept in a heap by pointer, and `next` is the first number
not yet used; the `id` field is the source's own counter, which wraps.

# Time

Every reading of the clock is an argument, in the order in which the code
reads it. `Sub` saturates at the bounds of a Duration.

# The walk over the free list

`removeConn` takes an index into `free` and removes the element at that
index from `conns`. The loop of `Acquire` then looks at the same element
of `free` again, so a round either shortens `conns` or moves on, and the
lengths of the two are fuel enough (`acquireLoop_ne_fuel`).
-/
import Svacara.Pool.Conn
import Svacara.Lib.Outcome

namespace Svacara.Pooling

open Transaction Outcome

/-- `PoolMode` is an int with two named values. -/
abbrev PoolMode := Int

def sessionMode : PoolMode := 0
def transactionMode : PoolMode := 1

/-- A duration, in nanoseconds. -/
abbrev Duration := Int

/-- `t.Sub(u)`. -/
def sub (t u : Time) : Duration := max (-2 ^ 63) (min (t - u) (2 ^ 63 - 1))

def minute : Duration := 60 * 1000000000
def hour : Duration := 60 * minute

structure Config where
  maxConns : Int
  minConns : Int
  maxIdleTime : Duration
  maxLifetime : Duration
  mode : PoolMode

structure Pool where
  config : Config
  mgr : Manager
  heap : Nat → Conn
  next : Nat
  conns : List Nat
  free : List Nat
  nextID : UInt64
  closed : Bool

/-- The clock readings of one `Acquire`: its own and the two of
`createConn`. -/
structure Clock where
  now : Time
  created : Time
  used : Time

-- ======================================================== creation

/-- Zero fields of the configuration stand for defaults. -/
def Config.withDefaults (config : Config) : Config where
  maxConns := if config.maxConns = 0 then 50 else config.maxConns
  minConns := if config.minConns = 0 then 2 else config.minConns
  maxIdleTime := if config.maxIdleTime = 0 then 10 * minute else config.maxIdleTime
  maxLifetime := if config.maxLifetime = 0 then hour else config.maxLifetime
  mode := config.mode

def Pool.createConn (p : Pool) (created used : Time) : Nat × Pool :=
  let c : Conn :=
    { id := p.nextID + 1, tx := none, createdAt := created, lastUsed := used, inUse := false }
  (p.next,
    { p with
      nextID := p.nextID + 1
      heap := Function.update p.heap p.next c
      next := p.next + 1
      conns := p.conns ++ [p.next]
      free := p.free ++ [p.next] })

/-- `n` calls of `createConn`, with their clock readings. -/
def Pool.createConns (p : Pool) (readings : Nat → Time × Time) : Nat → Pool
  | 0 => p
  | n + 1 =>
      let p := p.createConns readings n
      (p.createConn (readings n).1 (readings n).2).2

/-- A heap cell no pointer refers to. -/
def Conn.blank : Conn where
  id := 0
  tx := none
  createdAt := 0
  lastUsed := 0
  inUse := false

def newPool (db : Store) (config : Config) (readings : Nat → Time × Time) : Pool :=
  let config := config.withDefaults
  let p : Pool :=
    { config := config, mgr := newManager db, heap := fun _ => Conn.blank, next := 0,
      conns := [], free := [], nextID := 0, closed := false }
  p.createConns readings config.minConns.toNat

-- ========================================================= methods

def Pool.removeConn (p : Pool) (idx : Nat) : Except Fault Pool :=
  if idx < p.conns.length then .ok { p with conns := p.conns.eraseIdx idx }
  else .error .index

/-- `now.Sub(c.lastUsed) > p.config.MaxIdleTime && len(p.conns) >
p.config.MinConns`. -/
def Pool.idle (p : Pool) (now : Time) (c : Nat) : Bool :=
  p.config.maxIdleTime < sub now (p.heap c).lastUsed && p.config.minConns < p.conns.length

/-- `now.Sub(c.createdAt) > p.config.MaxLifetime`. -/
def Pool.expired (p : Pool) (now : Time) (c : Nat) : Bool :=
  p.config.maxLifetime < sub now (p.heap c).createdAt

/-- The connection at `c` changed by `f`. -/
def Pool.modify (p : Pool) (c : Nat) (f : Conn → Conn) : Pool :=
  { p with heap := Function.update p.heap c (f (p.heap c)) }

/-- The loop of `Acquire`, at index `i` of the free list. -/
def acquireLoop (now : Time) : Nat → Nat → Pool → Except Fault (Option Nat × Pool)
  | 0, _, _ => .error .fuel
  | n + 1, i, p =>
      match p.free[i]? with
      | none => .ok (none, p)
      | some c =>
          if p.idle now c then do
            let p ← p.removeConn i
            acquireLoop now n i p
          else if p.expired now c then do
            let p ← p.removeConn i
            acquireLoop now n i p
          else if (p.heap c).inUse = false then
            let p := p.modify c fun c => { c with inUse := true, lastUsed := now }
            .ok (some c, { p with free := p.free.eraseIdx i })
          else acquireLoop now n (i + 1) p

/-- The end of `Acquire`, where the free list had nothing. -/
def Pool.create (p : Pool) (clock : Clock) : Except String Nat × Pool :=
  if p.conns.length < p.config.maxConns then
    let (c, p) := p.createConn clock.created clock.used
    let p := p.modify c fun c => { c with inUse := true }
    (.ok c, { p with free := p.free.dropLast })
  else (.error "no available connections", p)

def Pool.acquire (p : Pool) (clock : Clock) : Except Fault (Except String Nat × Pool) :=
  if p.closed then .ok (.error "pool is closed", p)
  else do
    let (c, p) ← acquireLoop clock.now (p.free.length + p.conns.length + 1) 0 p
    match c with
    | some c => return (.ok c, p)
    | none => return p.create clock

/-- `p.mgr.Abort(c.tx)` and `c.tx = nil`, where there is a transaction. -/
def Pool.dropTx (p : Pool) (c : Nat) : Pool :=
  let (conn, m) := (p.heap c).abort p.mgr
  { p with heap := Function.update p.heap c conn, mgr := m }

def Pool.release (p : Pool) (c : Nat) (now : Time) : Pool :=
  if (p.heap c).inUse = false then p
  else
    let p := if p.config.mode = transactionMode then p.dropTx c else p
    let p := p.modify c fun c => { c with inUse := false, lastUsed := now }
    { p with free := p.free ++ [c] }

def Pool.close (p : Pool) : Pool := { p with closed := true, conns := [], free := [] }

end Svacara.Pooling
