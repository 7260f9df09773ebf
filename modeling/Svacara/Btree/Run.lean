/-
Sequences of calls on one tree, and the map they are meant to compute.

`run` issues calls one after another, as a user of `BTree` would. What
the answers should be is said without the tree: `bound calls k` is what
the last call that touches `k` left there, and `answers` reads every
answer off the calls made before it.
-/
import Svacara.Btree.Delete

namespace Svacara.Btree

/-- A call of one of the three public methods. -/
inductive Call where
  | insert (key val : Bytes)
  | delete (key : Bytes)
  | get (key : Bytes)
  deriving DecidableEq

/-- What a call returns: nothing, the bool of `Delete`, or the value of
`Get` if its bool is true. -/
inductive Answer where
  | done
  | deleted (found : Bool)
  | got (val : Option Bytes)
  deriving DecidableEq

-- ======================================================== the tree

section Ops

variable {σ : Type} (ops : PageOps σ) (fuel : Nat)

def step (tree : BTree σ) : Call → Except Fault (Answer × BTree σ)
  | .insert key val => do
      let tree ← insert ops fuel tree key val
      return (.done, tree)
  | .delete key => do
      let (found, tree) ← delete ops fuel tree key
      return (.deleted found, tree)
  | .get key => do
      let val ← get ops fuel tree key
      return (.got val, tree)

def run (tree : BTree σ) : List Call → Except Fault (List Answer × BTree σ)
  | [] => .ok ([], tree)
  | c :: calls => do
      let (a, tree) ← step ops fuel tree c
      let (as, tree) ← run tree calls
      return (a :: as, tree)

end Ops

-- ========================================================= the map

/-- What a call does to the key `k`: bind it, unbind it, or nothing. -/
def Call.effect (k : Bytes) : Call → Option (Option Bytes)
  | .insert key val => if k = key then some (some val) else none
  | .delete key => if k = key then some none else none
  | .get _ => none

/-- The value of `k` after the calls: the last one with an effect on it
decides. -/
def bound (calls : List Call) (k : Bytes) : Option Bytes :=
  (calls.reverse.findSome? (Call.effect k)).join

/-- The answer to a call, from the calls made before it. -/
def expected (before : List Call) : Call → Answer
  | .insert _ _ => .done
  | .delete key => .deleted (bound before key).isSome
  | .get key => .got (bound before key)

/-- The answers to a sequence of calls. -/
def answers (before : List Call) : List Call → List Answer
  | [] => []
  | c :: calls => expected before c :: answers (before ++ [c]) calls

/-- The row store's calls: 13-byte keys, values of at most 1000 bytes. -/
def Call.IsRow : Call → Prop
  | .insert key val => key.length = 13 ∧ val.length ≤ 1000
  | .delete key => key.length = 13
  | .get key => key.length = 13

instance : DecidablePred Call.IsRow
  | .insert _ _ => inferInstanceAs (Decidable (_ ∧ _))
  | .delete _ => inferInstanceAs (Decidable (_ = _))
  | .get _ => inferInstanceAs (Decidable (_ = _))

end Svacara.Btree
