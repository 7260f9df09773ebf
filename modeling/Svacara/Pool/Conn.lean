/-
`internal/pool/pool.go`: a connection and its methods.

A connection holds the transaction it has begun, if any. Nothing else
refers to that transaction, so it is kept in the connection by value. The
store behind `db` is the one behind the manager, `m.kv`; a `Set` outside
a transaction stores a nil value as an empty one, inside it is the mark
of a deletion. Which store operations fail is an argument, as it is for
the manager's `Commit`.
-/
import Svacara.Transaction.Tx

namespace Svacara.Pooling

open Transaction

/-- A clock reading, in nanoseconds. -/
abbrev Time := Int

structure Conn where
  id : UInt64
  tx : Option Tx
  createdAt : Time
  lastUsed : Time
  inUse : Bool

/-- The errors of `Begin` and `Commit`; those of the manager are passed
on. -/
inductive ConnError where
  | inProgress
  | noTransaction
  | commit (err : CommitError)
  deriving DecidableEq

def Conn.begin (c : Conn) (m : Manager) (isolation : IsolationLevel) :
    Option ConnError × Conn × Manager :=
  match c.tx with
  | some _ => (some .inProgress, c, m)
  | none =>
      let (tx, m) := Transaction.begin m isolation
      (none, { c with tx := some tx }, m)

/-- The transaction stays with the connection, whatever became of it. -/
def Conn.commit (c : Conn) (m : Manager) (ranges writes : Visit Write) (fails : Nat → Bool) :
    Option ConnError × Conn × Manager :=
  match c.tx with
  | none => (some .noTransaction, c, m)
  | some tx =>
      let (err, tx, m) := Transaction.commit true m tx ranges writes fails
      (err.map .commit, { c with tx := some tx }, m)

def Conn.abort (c : Conn) (m : Manager) : Conn × Manager :=
  match c.tx with
  | none => (c, m)
  | some tx =>
      let (_, m) := Transaction.abort m tx
      ({ c with tx := none }, m)

def Conn.get (c : Conn) (m : Manager) (key : Bytes) : Option Bytes × Conn :=
  match c.tx with
  | some tx =>
      let (val, tx) := tx.get m.kv key
      (val, { c with tx := some tx })
  | none => (m.kv key, c)

/-- Whether the store reported an error, which only a `Set` that reaches
it can. -/
def Conn.set (c : Conn) (m : Manager) (key : Bytes) (val : Option Bytes) (fails : Bool) :
    Bool × Conn × Manager :=
  match c.tx with
  | some tx => (false, { c with tx := some (tx.set key val) }, m)
  | none =>
      if fails then (true, c, m)
      else
        (false, c, { m with kv := Function.update m.kv key (some (val.getD [])) })

-- =========================================================== calls

/-- A call of a method of a connection. -/
inductive ConnCall where
  | begin (isolation : IsolationLevel)
  | get (key : Bytes)
  | set (key : Bytes) (val : Option Bytes) (fails : Bool)
  | commit (ranges writes : Visit Write) (fails : Nat → Bool)
  | abort

/-- What it returns. -/
inductive ConnAnswer where
  | done
  | begun (err : Option ConnError)
  | got (val : Option Bytes)
  | stored (err : Bool)
  | committed (err : Option ConnError)
  deriving DecidableEq

def Conn.call (c : Conn) (m : Manager) : ConnCall → ConnAnswer × Conn × Manager
  | .begin isolation =>
      let (err, c, m) := c.begin m isolation
      (.begun err, c, m)
  | .get key =>
      let (val, c) := c.get m key
      (.got val, c, m)
  | .set key val fails =>
      let (err, c, m) := c.set m key val fails
      (.stored err, c, m)
  | .commit ranges writes fails =>
      let (err, c, m) := c.commit m ranges writes fails
      (.committed err, c, m)
  | .abort =>
      let (c, m) := c.abort m
      (.done, c, m)

end Svacara.Pooling
