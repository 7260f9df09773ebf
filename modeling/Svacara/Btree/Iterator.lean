/-
`internal/btree/iterator.go`: a cursor over the leaves of a tree.

`path` and `pos` of a `BIter` are appended to, overwritten and emptied
together, so they are one list of nodes with positions here, the root
first. The tree is only read, and only by `tree.getPtr(node.getPtr(i))`;
the functions take that reading as `kid`. `kidOf` is what the source
does, and `innerKidOf` is the same with a watch on it: it reports a
pointer that is taken out of a leaf.

`scan` is the loop every user of the iterator writes: seek, then yield
and step until `Valid` is false.
-/
import Svacara.Btree.Insert

namespace Svacara.Btree

structure BIter where
  path : List (BNode × Nat)
  deriving DecidableEq

/-- `tree.getPtr(node.getPtr(idx))`. -/
def kidOf {σ : Type} (ops : PageOps σ) (s : σ) (node : BNode) (idx : Nat) :
    Except Fault BNode := do
  let ptr ← getPtr node idx
  ops.getPage s ptr

/-- The same, where a pointer stored in a leaf is a fault. -/
def innerKidOf {σ : Type} (ops : PageOps σ) (s : σ) (node : BNode) (idx : Nat) :
    Except Fault BNode := do
  let ty ← btype node
  if ty = bnodeLeaf then .error (.panic "pointer of a leaf")
  else kidOf ops s node idx

section Kid

variable (kid : BNode → Nat → Except Fault BNode)

/-- The loop of `SeekLE`, with the path so far. -/
def seekLoop (key : Bytes) : Nat → BNode → List (BNode × Nat) → Except Fault BIter
  | 0, _, _ => .error .fuel
  | fuel + 1, node, path => do
      let idx ← nodeLookupLE node key
      let path := path ++ [(node, idx)]
      let ty ← btype node
      if ty = bnodeLeaf then return ⟨path⟩
      let node ← kid node idx
      seekLoop key fuel node path

/-- The inner loop of `Next`: append the first kids down to a leaf. -/
def descend : Nat → BNode → List (BNode × Nat) → Except Fault BIter
  | 0, _, _ => .error .fuel
  | fuel + 1, child, path => do
      let ty ← btype child
      if ty = bnodeInternal then
        let child ← kid child 0
        descend fuel child (path ++ [(child, 0)])
      else return ⟨path⟩

/-- `path[level] = entry`. -/
def setAt (path : List (BNode × Nat)) (level : Nat) (entry : BNode × Nat) :
    Except Fault (List (BNode × Nat)) :=
  if level < path.length then .ok (path.set level entry) else .error .index

/-- The outer loop of `Next`, entered with `level`. -/
def climb (fuel : Nat) (path : List (BNode × Nat)) : Nat → Except Fault BIter
  | 0 => .ok ⟨[]⟩
  | level + 1 =>
      match path[level]? with
      | none => .error .index
      | some (node, pos) => do
          let n ← nkeys node
          if u16 (pos + 1) < n then
            let path ← setAt path level (node, u16 (pos + 1))
            let child ← kid node (u16 (pos + 1))
            -- only `path[level+1]` is replaced, what lies behind it stays
            let path ← setAt path (level + 1) (child, 0)
            descend kid fuel child path
          else climb fuel path level

def BIter.next (fuel : Nat) (iter : BIter) : Except Fault BIter :=
  match iter.path.getLast? with
  | none => .error .index
  | some (leaf, pos) => do
      let level := iter.path.length - 1
      let n ← nkeys leaf
      if u16 (pos + 1) < n then
        let path ← setAt iter.path level (leaf, u16 (pos + 1))
        return ⟨path⟩
      climb kid fuel iter.path level

end Kid

def BIter.valid (iter : BIter) : Except Fault Bool :=
  match iter.path.getLast? with
  | none => .ok false
  | some (leaf, pos) => do
      let n ← nkeys leaf
      return pos < n

def BIter.key (iter : BIter) : Except Fault Bytes :=
  match iter.path.getLast? with
  | none => .error .index
  | some (leaf, pos) => getKey leaf pos

def BIter.val (iter : BIter) : Except Fault Bytes :=
  match iter.path.getLast? with
  | none => .error .index
  | some (leaf, pos) => getVal leaf pos

section Tree

variable {σ : Type} (ops : PageOps σ) (kid : σ → BNode → Nat → Except Fault BNode)

def seekLE (fuel : Nat) (tree : BTree σ) (key : Bytes) : Except Fault BIter := do
  if tree.root = 0 then return ⟨[]⟩
  let node ← ops.getPage tree.pages tree.root
  seekLoop (kid tree.pages) key fuel node []

/-- `for iter.Valid() { … iter.Key(), iter.Val() …; iter.Next() }`, with
the pairs it comes by. -/
def drain (fuel : Nat) (s : σ) : Nat → BIter → Except Fault (List (Bytes × Bytes))
  | 0, _ => .error .fuel
  | rounds + 1, iter => do
      let more ← iter.valid
      if more then
        let k ← iter.key
        let v ← iter.val
        let iter ← iter.next (kid s) fuel
        let rest ← drain fuel s rounds iter
        return (k, v) :: rest
      else return []

def scan (fuel : Nat) (tree : BTree σ) (key : Bytes) :
    Except Fault (List (Bytes × Bytes)) := do
  let iter ← seekLE ops kid fuel tree key
  drain kid fuel tree.pages fuel iter

end Tree

end Svacara.Btree
