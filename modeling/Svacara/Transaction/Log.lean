/-
Runs of the transaction manager, and what an observer writes down.

The observer sees calls and answers only. For every transaction it keeps
the events up to now, and at every `Commit` that returns nil it notes
the transaction with the events that lie before that `Commit`. What the
manager is for is stated over this log: `after` executes events one
after another on a map, and `ReadsFrom` says that every read among them
returns what the map holds at that point.
-/
import Svacara.Transaction.Tx

namespace Svacara.Transaction

-- ========================================================== events

/-- An access of a transaction. A read carries its result and, as a time
stamp, the number of commits before it. -/
inductive Event where
  | get (key : Bytes) (val : Option Bytes) (seen : Nat)
  | set (key : Bytes) (val : Option Bytes)
  | del (key : Bytes)
  deriving DecidableEq

/-- The effect of an event executed on a map. -/
def Event.apply (kv : Store) : Event → Store
  | .get _ _ _ => kv
  | .set key val => Function.update kv key val
  | .del key => Function.update kv key none

/-- The map after events in program order. -/
def after (kv : Store) (es : List Event) : Store := es.foldl Event.apply kv

/-- Executed one after another from `kv`, the events read what is
there. -/
def ReadsFrom (kv : Store) : List Event → Prop
  | [] => True
  | .get key val _ :: es => val = kv key ∧ ReadsFrom kv es
  | .set key val :: es => ReadsFrom (Function.update kv key val) es
  | .del key :: es => ReadsFrom (Function.update kv key none) es

instance decidableReadsFrom (kv : Store) :
    (es : List Event) → Decidable (ReadsFrom kv es)
  | [] => isTrue trivial
  | .get key val _ :: es =>
      have := decidableReadsFrom kv es
      inferInstanceAs (Decidable (val = kv key ∧ ReadsFrom kv es))
  | .set key val :: es => decidableReadsFrom (Function.update kv key val) es
  | .del key :: es => decidableReadsFrom (Function.update kv key none) es

/-- What an event writes to `k`, if anything. -/
def Event.effect (k : Bytes) : Event → Option (Option Bytes)
  | .get _ _ _ => none
  | .set key val => if k = key then some val else none
  | .del key => if k = key then some none else none

/-- What events leave at `k`, `none` if they do not write it. -/
def net (es : List Event) (k : Bytes) : Option (Option Bytes) :=
  es.foldl (fun acc e => (e.effect k).or acc) none

-- ========================================================= the log

/-- What is known of one transaction: the number of commits before its
`Begin`, and its accesses so far. -/
structure TxLog where
  began : Nat
  events : List Event

/-- Transactions in the order of their `Begin`, and the successful
commits in theirs. -/
structure Log where
  txs : List TxLog
  commits : List (Nat × List Event)

def Log.empty : Log := ⟨[], []⟩

def Log.events (l : Log) (i : Nat) : List Event :=
  (l.txs[i]?.map TxLog.events).getD []

def Log.add (l : Log) (i : Nat) (e : Event) : Log :=
  { l with txs := l.txs.modify i fun t => { t with events := t.events ++ [e] } }

/-- One more call with its answer. -/
def observe (l : Log) : Call → Answer → Log
  | .begin _, _ => { l with txs := l.txs ++ [⟨l.commits.length, []⟩] }
  | .get i key, .got val => l.add i (.get key val l.commits.length)
  | .set i key val, _ => l.add i (.set key val)
  | .del i key, _ => l.add i (.del key)
  | .commit i _ _ _, .committed none =>
      { l with commits := l.commits ++ [(i, l.events i)] }
  | _, _ => l

/-- The events of the committed transactions, in commit order. -/
def Log.committed (l : Log) : List Event := l.commits.flatMap Prod.snd

/-- The events of the commits after the first `n`. -/
def Log.since (l : Log) (n : Nat) : List Event := (l.commits.drop n).flatMap Prod.snd

-- ============================================================ runs

/-- One observed call. -/
def tick (trim : Bool) (x : Sys × Log) (c : Call) : Sys × Log :=
  ((step trim x.1 c).2, observe x.2 c (step trim x.1 c).1)

/-- A run from a new manager over the store `kv`. -/
def trace (trim : Bool) (kv : Store) (calls : List Call) : Sys × Log :=
  calls.foldl (tick trim) (Sys.init kv, Log.empty)

/-- `ok` holds of every call of a run from `x`, at the moment it is
made. -/
def Along (ok : Sys × Log → Call → Prop) (trim : Bool) : Sys × Log → List Call → Prop
  | _, [] => True
  | x, c :: calls => ok x c ∧ Along ok trim (tick trim x c) calls

/-- The store operations of this call do not fail. -/
def Call.StoreOk : Call → Prop
  | .commit _ _ _ fails => ∀ n, fails n = false
  | _ => True

/-- A `Begin` asks for `Serializable`. -/
def Call.IsSerializable : Call → Prop
  | .begin isolation => isolation = serializable
  | _ => True

-- ===================================================== stale reads

/-- Among `es` is a read of `k` with its result, after `pre`. -/
def ReadAfter (es pre : List Event) (k : Bytes) (val : Option Bytes) (n : Nat) : Prop :=
  ∃ post, es = pre ++ .get k val n :: post

/-- Transaction `i` has read from the store, not from its own writes, a
key that a commit has written since. -/
def Stale (l : Log) (i : Nat) : Prop :=
  ∃ pre k val n, ReadAfter (l.events i) pre k val n ∧ net pre k = none
    ∧ net (l.since n) k ≠ none

/-- A commit wrote a key that transaction `i` has asked for, and its
transaction has begun after `i`, as has every other that committed
writes after it. -/
def Caught (l : Log) (i : Nat) : Prop :=
  ∃ earlier j es later k, l.commits = earlier ++ (j, es) :: later ∧ i < j
    ∧ net es k ≠ none ∧ (∃ val n, Event.get k val n ∈ l.events i)
    ∧ ∀ p ∈ later, (∃ k, net p.2 k ≠ none) → i < p.1

/-- A `Commit` of an unfinished transaction with a stale read is
caught. -/
def StaleCaught (x : Sys × Log) : Call → Prop
  | .commit i _ _ _ => ∀ tx, x.1.txs[i]? = some tx → tx.finished = false →
      Stale x.2 i → Caught x.2 i
  | _ => True

-- ================================================== failed commits

/-- What an error of `Commit` leaves: the store as it was, and no entry
for the transaction in the history. -/
def AllOrNothing (m : Manager) (tx : Tx) (ranges writes : Visit Write)
    (fails : Nat → Bool) : Prop :=
  let (err, _, m') := commit true m tx ranges writes fails
  err ≠ none → m'.kv = m.kv ∧ ∀ h ∈ m'.history, h.version ≠ tx.version

/-- `Commit` returns an error before it touches the history. -/
def Refused (m : Manager) (tx : Tx) : Prop :=
  tx.finished = true ∨ serializable ≤ tx.isolation ∧ detectConflicts m tx = true

end Svacara.Transaction
