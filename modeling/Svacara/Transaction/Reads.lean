/-
What one transaction observes of an ordered store, beside the ranges it
records.

The calls are `Get`, `Seek` and `Next` on the iterators that the seeks
returned. A `Get` observes its key; a `Seek` or a `Next` the key that the
iterator comes to stand on. `Seek` records the range from the key sought
on, while its iterator starts on the key before it if the key itself is
not there.
-/
import Svacara.Transaction.Tx
import Svacara.Kvstore.Storage

namespace Svacara.Transaction

open SortedMap Kvstore

/-- The key lies in the range; an empty `stop` is none. -/
def KeyRange.Has (r : KeyRange) (key : Bytes) : Prop :=
  r.start ≤ key ∧ (r.stop = [] ∨ key ≤ r.stop)

inductive Look where
  | get (key : Bytes)
  | seek (key : Bytes)
  | next (iter : Nat)

/-- A transaction, its iterators in the order of the seeks, and the keys
observed. -/
structure Reading where
  tx : Tx
  iters : List (List (Bytes × Bytes))
  observed : List Bytes

/-- The key that an iterator stands on, if it is valid. -/
def standsOn (iter : List (Bytes × Bytes)) : Option Bytes := iter.head?.map Prod.fst

namespace Reading

def start (m : Manager) (isolation : IsolationLevel) : Reading :=
  ⟨(begin m isolation).1, [], []⟩

section Store

variable {σ : Type} (kv : Storage σ) (s : σ)

/-- `Next` on an iterator that is not valid indexes an empty path. -/
def step (x : Reading) : Look → Except Fault Reading
  | .get key => .ok { x with
      tx := (x.tx.get (kv.get s) key).2
      observed := x.observed ++ [key] }
  | .seek key => .ok {
      tx := x.tx.seek key
      iters := x.iters ++ [kv.seek s key]
      observed := x.observed ++ (standsOn (kv.seek s key)).toList }
  | .next i =>
      match x.iters[i]? with
      | some (_ :: rest) => .ok { x with
          iters := x.iters.set i rest
          observed := x.observed ++ (standsOn rest).toList }
      | _ => .error .index

def run (x : Reading) : List Look → Except Fault Reading
  | [] => .ok x
  | c :: looks => do
      let x ← x.step kv s c
      x.run looks

end Store

/-- Every observed key lies in a recorded range. -/
def Covered (x : Reading) : Prop :=
  ∀ key ∈ x.observed, ∃ r ∈ x.tx.reads, r.Has key

end Reading

/-- The range that a call records has the key: a `Get` of it or of the
empty key, a `Seek` of it or of a smaller one. -/
def Look.Guards (key : Bytes) : Look → Prop
  | .get k => k = key ∨ k = []
  | .seek k => k ≤ key
  | .next _ => False

/-- Whenever the key sought is not in the store and one before it is, one
of the calls guards the one before. -/
def Guarded (content : List (Bytes × Bytes)) (looks : List Look) : Prop :=
  ∀ k before, .seek k ∈ looks → floorKey k content = some before → before < k →
    ∃ c ∈ looks, c.Guards before

end Svacara.Transaction
