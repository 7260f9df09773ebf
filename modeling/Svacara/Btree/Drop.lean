/-
What deletions need of the pages, in runs of calls with keys of any size.

`Delete` rebuilds the nodes on its path in buffers of one page and splits
none of them. It is safe if it returns and hands no node to `NewPage`
that is larger than a page (`DeleteSafe`). Whether it is can be computed
from the sizes of the keys: `Outline.drop` is `Delete` on shapes, and has
no value if a node outgrows its page. `CallsFit` is the same for a whole
run.
-/
import Svacara.Btree.Oversize
import Svacara.Btree.Proofs.Shrink
import Svacara.Btree.Run

namespace Svacara.Btree

-- =================================================== the condition

/-- `Delete` on shapes. A miss changes nothing, and a root without keys
is dropped. -/
def Outline.drop (key : Bytes) : Outline → Option Outline
  | .empty => some .empty
  | .tree h b =>
      if (flat h b).lookup key = none then some (.tree h b)
      else (shrink key h b).map fun b' =>
        if entries h b' = [] then .empty else .tree h b'

/-- A call on shapes, with everything it writes in its buffer. -/
inductive Outline.Step : Call → Outline → Outline → Prop where
  | insert {key val : Bytes} {o o' : Outline} (hput : Put key val o o') :
      Step (.insert key val) o o'
  | delete {key : Bytes} {o o' : Outline} (hdrop : o.drop key = some o') :
      Step (.delete key) o o'
  | get {key : Bytes} {o : Outline} : Step (.get key) o o

inductive Outline.Steps : Outline → List Call → Outline → Prop where
  | nil {o : Outline} : Steps o [] o
  | cons {o₁ o₂ o₃ : Outline} {call : Call} {calls : List Call}
      (hstep : Step call o₁ o₂) (hrest : Steps o₂ calls o₃) : Steps o₁ (call :: calls) o₃

/-- Issued one after the other on an empty tree, the calls all fit. -/
def CallsFit (calls : List Call) : Prop := ∃ o, Outline.Steps .empty calls o

-- ==================================================== the property

/-- The deletion returns, and what it stored fits a page. -/
def DeleteSafe {σ : Type} (ops : PageOps σ) (fuel : Nat) (tree : BTree σ) (key : Bytes) :
    Prop :=
  ∃ found tree', delete (logged ops) fuel ⟨tree.root, (tree.pages, [])⟩ key
      = .ok (found, tree') ∧ StoredFit tree'.pages

/-- The key and the value are within the limits. -/
def Call.Admissible : Call → Prop
  | .insert key val => key.length ≤ btreeMaxKeySize ∧ val.length ≤ btreeMaxValSize
  | .delete key => key.length ≤ btreeMaxKeySize
  | .get key => key.length ≤ btreeMaxKeySize

end Svacara.Btree
