/-
`internal/transaction/tx.go`: the transaction manager.

# The state

The store behind the manager is a map, as `kvstore.Storage` promises. A
transaction's `pending` is a Go map from keys to values in which nil
marks a deletion; an association list without duplicate keys is that map
up to order, and the order in which `Commit` visits it is an argument of
the call (`Visit`), once for the write ranges and once for the writes
themselves. Versions count up from 0, one for each `Begin`; they are
`uint64` there and naturals here, which is the same up to 2^64 - 1
transactions (`versions_uint64` in `Proofs/Trim.lean`). The snapshot that
`Begin` stores in the transaction is left out: no method of the package
reads it.

# The calls

The manager's methods hold its mutex and a transaction's own methods are
atomic, so a run is a sequence of calls; a transaction is named by the
number of its `Begin`. A store operation that fails leaves the store as
it was; which of a `Commit`'s operations fail is again an argument.
-/
import Svacara.Btree.Node
import Mathlib.Data.List.AList

namespace Svacara.Transaction

-- =========================================================== state

/-- A correct map from keys to values. -/
abbrev Store := Bytes → Option Bytes

/-- `IsolationLevel` is an int with three named values. -/
abbrev IsolationLevel := Int

def readCommitted : IsolationLevel := 1
def snapshotIsolation : IsolationLevel := 2
def serializable : IsolationLevel := 3

/-- A range of keys; an empty `stop` is none. -/
structure KeyRange where
  start : Bytes
  stop : Bytes
  deriving DecidableEq

structure CommittedTX where
  version : Nat
  writes : List KeyRange
  deriving DecidableEq

/-- `map[string][]byte`, with `none` for a nil value. -/
abbrev Pending := AList fun _ : Bytes => Option Bytes

/-- One entry of a pending map. -/
abbrev Write := Sigma fun _ : Bytes => Option Bytes

structure Tx where
  version : Nat
  isolation : IsolationLevel
  pending : Pending
  reads : List KeyRange
  committed : Bool
  aborted : Bool

/-- `tx.committed || tx.aborted`. -/
def Tx.finished (tx : Tx) : Bool := tx.committed || tx.aborted

structure Manager where
  kv : Store
  version : Nat
  ongoing : List Nat
  history : List CommittedTX
  minVer : Nat

def newManager (kv : Store) : Manager where
  kv := kv
  version := 0
  ongoing := []
  history := []
  minVer := 0

-- ================================================== conflict check

def versionBefore (a b : Nat) : Bool := a < b

def keyRangeOverlap (a b : KeyRange) : Bool :=
  if 0 < b.stop.length ∧ 0 < Btree.compareKeys a.start b.stop then false
  else if 0 < a.stop.length ∧ 0 < Btree.compareKeys b.start a.stop then false
  else true

def rangesOverlap (reads writes : List KeyRange) : Bool :=
  reads.any fun r => writes.any fun w => keyRangeOverlap r w

/-- The loop of `detectConflicts`, over the history from its end. -/
def scanConflicts (tx : Tx) : List CommittedTX → Bool
  | [] => false
  | h :: rest =>
      if !versionBefore tx.version h.version then false
      else if rangesOverlap tx.reads h.writes then true
      else scanConflicts tx rest

def detectConflicts (m : Manager) (tx : Tx) : Bool :=
  scanConflicts tx m.history.reverse

-- ==================================================== housekeeping

/-- The loop of `updateMinVer`: the least of `least` and the versions. -/
def leastVersion (least : Nat) : List Nat → Nat
  | [] => least
  | v :: vs => leastVersion (if v < least then v else least) vs

def updateMinVer (m : Manager) : Manager :=
  { m with minVer := leastVersion m.version m.ongoing }

/-- The index at which `trimHistory` cuts: that of the first entry that
is not older than `minVer`, 0 if there is none. -/
def trimCut (minVer : Nat) (history : List CommittedTX) : Nat :=
  (history.findIdx? fun h => minVer ≤ h.version).getD 0

def trimHistory (m : Manager) : Manager :=
  { m with history := m.history.drop (trimCut m.minVer m.history) }

-- ========================================================= methods

def begin (m : Manager) (isolation : IsolationLevel) : Tx × Manager :=
  let ver := m.version + 1
  ({ version := ver, isolation := isolation, pending := ∅, reads := [],
     committed := false, aborted := false },
   { m with version := ver, ongoing := ver :: m.ongoing })

/-- `delete(m.ongoing, tx.version)`. -/
def endOngoing (m : Manager) (tx : Tx) : Manager :=
  { m with ongoing := m.ongoing.filter (· ≠ tx.version) }

/-- The errors of `Commit`: "tx already finished", "serialization
conflict", and a failed store operation ("commit del", "commit set"). -/
inductive CommitError where
  | finished
  | conflict
  | del
  | set
  deriving DecidableEq

/-- The second loop of `Commit`: the writes go to the store one by one.
`fails n` says that the `n`-th store operation reports an error, which
ends the loop. -/
def applyWrites (fails : Nat → Bool) : Nat → List Write → Store →
    Store × Option CommitError
  | _, [], kv => (kv, none)
  | n, ⟨k, none⟩ :: ws, kv =>
      if fails n then (kv, some .del)
      else applyWrites fails (n + 1) ws (Function.update kv k none)
  | n, ⟨k, some v⟩ :: ws, kv =>
      if fails n then (kv, some .set)
      else applyWrites fails (n + 1) ws (Function.update kv k (some v))

/-- `Commit`. With `trim` false, `trimHistory` does nothing. -/
def commit (trim : Bool) (m : Manager) (tx : Tx) (ranges writes : Visit Write)
    (fails : Nat → Bool) : Option CommitError × Tx × Manager :=
  if tx.finished then (some .finished, tx, m)
  else if serializable ≤ tx.isolation ∧ detectConflicts m tx then
    (some .conflict, { tx with aborted := true }, endOngoing m tx)
  else if tx.pending.entries.length = 0 then
    (none, { tx with committed := true }, updateMinVer (endOngoing m tx))
  else
    let ws := (ranges.order tx.pending.entries).map fun w => KeyRange.mk w.1 w.1
    let m := { m with history := m.history ++ [CommittedTX.mk tx.version ws] }
    match applyWrites fails 0 (writes.order tx.pending.entries) m.kv with
    | (kv, some e) => (some e, tx, { m with kv := kv })
    | (kv, none) =>
        let m := updateMinVer (endOngoing { m with kv := kv } tx)
        (none, { tx with committed := true }, if trim then trimHistory m else m)

def abort (m : Manager) (tx : Tx) : Tx × Manager :=
  if tx.finished then (tx, m)
  else ({ tx with aborted := true }, updateMinVer (endOngoing m tx))

/-- `Tx.Get`: `none` for `(nil, false)`. -/
def Tx.get (tx : Tx) (kv : Store) (key : Bytes) : Option Bytes × Tx :=
  let tx := { tx with reads := tx.reads ++ [⟨key, key⟩] }
  match tx.pending.lookup key with
  | some val => (val, tx)
  | none => (kv key, tx)

/-- `Tx.Set`; the value may be a nil slice. -/
def Tx.set (tx : Tx) (key : Bytes) (val : Option Bytes) : Tx :=
  { tx with pending := tx.pending.insert key val }

def Tx.del (tx : Tx) (key : Bytes) : Tx :=
  { tx with pending := tx.pending.insert key none }

/-- `Tx.Seek`, as far as the transaction is concerned: the iterator it
returns reads the store. -/
def Tx.seek (tx : Tx) (key : Bytes) : Tx :=
  { tx with reads := tx.reads ++ [⟨key, []⟩] }

-- ============================================================ runs

/-- One manager and the transactions begun on it, in order. -/
structure Sys where
  manager : Manager
  txs : List Tx

def Sys.init (kv : Store) : Sys := ⟨newManager kv, []⟩

/-- A call; transactions are named by the number of their `Begin`. -/
inductive Call where
  | begin (isolation : IsolationLevel)
  | get (i : Nat) (key : Bytes)
  | seek (i : Nat) (key : Bytes)
  | set (i : Nat) (key : Bytes) (val : Option Bytes)
  | del (i : Nat) (key : Bytes)
  | commit (i : Nat) (ranges writes : Visit Write) (fails : Nat → Bool)
  | abort (i : Nat)

/-- What a call returns. -/
inductive Answer where
  | none
  | got (val : Option Bytes)
  | committed (err : Option CommitError)
  deriving DecidableEq

/-- The transaction a call is made on. -/
def Call.tx : Call → Option Nat
  | .begin _ => .none
  | .get i _ | .seek i _ | .set i _ _ | .del i _ | .commit i _ _ _ | .abort i => some i

/-- The effect of a call on its transaction and the manager. -/
def callOn (trim : Bool) (m : Manager) (tx : Tx) : Call → Answer × Tx × Manager
  | .begin _ => (.none, tx, m)
  | .get _ key =>
      let (val, tx) := tx.get m.kv key
      (.got val, tx, m)
  | .seek _ key => (.none, tx.seek key, m)
  | .set _ key val => (.none, tx.set key val, m)
  | .del _ key => (.none, tx.del key, m)
  | .commit _ ranges writes fails =>
      let (err, tx, m) := commit trim m tx ranges writes fails
      (.committed err, tx, m)
  | .abort _ =>
      let (tx, m) := abort m tx
      (.none, tx, m)

/-- One call. A call on a transaction that was never begun cannot be made
and changes nothing. -/
def step (trim : Bool) (s : Sys) : Call → Answer × Sys
  | .begin isolation =>
      let (tx, m) := begin s.manager isolation
      (.none, ⟨m, s.txs ++ [tx]⟩)
  | c =>
      match c.tx with
      | .none => (.none, s)
      | some i =>
          match s.txs[i]? with
          | .none => (.none, s)
          | some tx =>
              let (a, tx, m) := callOn trim s.manager tx c
              (a, ⟨m, s.txs.set i tx⟩)

end Svacara.Transaction
