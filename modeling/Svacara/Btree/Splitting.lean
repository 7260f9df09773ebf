/-
What splitting a node should do, and the nodes it is applied to.

`nodeSplit3` meets three kinds of nodes, each filled into a buffer of two
pages from a node that fits one: a leaf that got a pair inserted or
replaced, and an internal node in which the parts of a kid took the kid's
place. `Filling` lists them, with the list of entries each should hold.

`SplitSound` is the contract, in terms of the accessors alone.
`SplitsWell` is a condition on the sizes of the entries: the cuts that
`nodeSplit2` makes leave no part that is larger than a page.
-/
import Svacara.Btree.Proofs.Split

namespace Svacara.Btree

-- ==================================================== the contract

/-- A node's entries, as the accessors read them. -/
def readEntries (node : BNode) : Except Fault (List Entry) := do
  let n ← nkeys node
  (List.range n).mapM fun i => do
    let ptr ← getPtr node i
    let key ← getKey node i
    let val ← getVal node i
    return ⟨ptr, key, val⟩

/-- A node with a key, that fits a page. -/
def PageSized (node : BNode) : Prop :=
  ∃ n size, nkeys node = .ok n ∧ 0 < n ∧ nbytes node = .ok size ∧ size ≤ btreePageSize

/-- `nodeSplit3` returns one to three such nodes, and they have the
entries of the node that was split. -/
def SplitSound (old : BNode) : Prop :=
  ∃ nodes parts es, nodeSplit3 old = .ok nodes ∧ 1 ≤ nodes.length ∧ nodes.length ≤ 3
    ∧ (∀ node ∈ nodes, PageSized node) ∧ nodes.mapM readEntries = .ok parts
    ∧ readEntries old = .ok es ∧ parts.flatten = es

-- =================================================== the condition

/-- The parts `nodeSplit3` cuts entries into, whatever their sizes: it
leaves a node that fits a page alone, cuts any other in two, and cuts the
left part again if that does not fit. -/
inductive CutInto (es : List Entry) : List (List Entry) → Prop where
  | whole (hfit : nodeSize es ≤ btreePageSize) : CutInto es [es]
  | once {c : Nat} (hover : btreePageSize < nodeSize es)
      (hcut : IsCut (nodeSize es / 2) es c)
      (hleft : nodeSize (es.take c) ≤ btreePageSize) :
      CutInto es [es.take c, es.drop c]
  | twice {c d : Nat} (hover : btreePageSize < nodeSize es)
      (hcut : IsCut (nodeSize es / 2) es c)
      (hleft : btreePageSize < nodeSize (es.take c))
      (hcut' : IsCut (nodeSize (es.take c) / 2) (es.take c) d) :
      CutInto es [(es.take c).take d, (es.take c).drop d, es.drop c]

/-- No part is larger than a page. -/
def SplitsWell (es : List Entry) : Prop :=
  ∃ parts, CutInto es parts ∧ ∀ part ∈ parts, nodeSize part ≤ btreePageSize

-- ==================================================== the fillings

/-- How a node comes to be split. -/
inductive Filling where
  | insert (idx : Nat) (key val : Bytes)
  | update (idx : Nat) (key val : Bytes)
  | replaceKid (idx : Nat) (kids : List BNode)

/-- The type of the node filled from. -/
def Filling.nodeType : Filling → Nat
  | .insert .. => bnodeLeaf
  | .update .. => bnodeLeaf
  | .replaceKid .. => bnodeInternal

/-- The store may refuse a page with this error. -/
def Refusal {σ : Type} (ops : PageOps σ) (e : Fault) : Prop :=
  ∃ s kid, ops.newPage s kid = .error e

/-- The new node, in a buffer of two pages. -/
def Filling.run {σ : Type} (ops : PageOps σ) (node : BNode) (s : σ) :
    Filling → Except Fault (BNode × σ)
  | .insert idx key val => do
      let new ← leafInsert (make (2 * btreePageSize)) node idx key val
      return (new, s)
  | .update idx key val => do
      let new ← leafUpdate (make (2 * btreePageSize)) node idx key val
      return (new, s)
  | .replaceKid idx kids =>
      nodeReplaceKidN ops (make (2 * btreePageSize)) node idx kids s

/-- The entry a kid gets in its parent, without the page number. -/
def kidHead (kid : BNode) : Entry := ⟨0, (getKey kid 0).toOption.getD [], []⟩

/-- The entries the new node should have, for a node with entries `es`;
the page numbers of new kids are not known and stand at 0. -/
def Filling.entries (es : List Entry) : Filling → List Entry
  | .insert idx key val => es.take idx ++ ⟨0, key, val⟩ :: es.drop idx
  | .update idx key val => es.take idx ++ ⟨0, key, val⟩ :: es.drop (idx + 1)
  | .replaceKid idx kids => es.take idx ++ (kids.map kidHead ++ es.drop (idx + 1))

/-- A position in the node, a pair within the limits on keys and values,
one to three kids with a first key within its limit. -/
def Filling.Admissible (es : List Entry) : Filling → Prop
  | .insert idx key val => idx ≤ es.length ∧ key.length ≤ btreeMaxKeySize
      ∧ val.length ≤ btreeMaxValSize
  | .update idx key val => idx < es.length ∧ key.length ≤ btreeMaxKeySize
      ∧ val.length ≤ btreeMaxValSize
  | .replaceKid idx kids => idx < es.length ∧ 1 ≤ kids.length ∧ kids.length ≤ 3
      ∧ ∀ kid ∈ kids, ∃ key, getKey kid 0 = .ok key ∧ key.length ≤ btreeMaxKeySize

end Svacara.Btree
