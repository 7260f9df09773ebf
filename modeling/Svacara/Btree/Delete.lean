/-
`internal/btree/delete.go`: deletion with merging of small siblings.

`treeDelete` returns the source's empty `BNode{}` for "key not found",
here `none`, so that a rebuilt node with no keys (a real buffer in the
source) stays distinct from it.
-/
import Svacara.Btree.Insert

namespace Svacara.Btree

/-- The merge decision: `mergeDir` -1 or 1 with the sibling's node, or 0. -/
inductive MergeDir where
  | none
  | left (sibling : BNode)
  | right (sibling : BNode)

def nodeMerge (new left right : BNode) : Except Fault BNode := do
  let ty ← btype left
  let nl ← nkeys left
  let nr ← nkeys right
  let new ← setHeader new ty (u16 (nl + nr))
  let new ← nodeAppendRange new left 0 0 nl
  nodeAppendRange new right nl 0 nr

def nodeReplace2Kid (new node : BNode) (idx : Nat) (ptr : Ptr) (key : Bytes) :
    Except Fault BNode := do
  let n ← nkeys node
  let new ← setHeader new bnodeInternal (u16sub n 1)
  let new ← nodeAppendRange new node 0 0 idx
  let new ← nodeAppendKV new idx ptr key []
  nodeAppendRange new node (u16 (idx + 1)) (u16 (idx + 2))
    (u16sub n (u16 (idx + 2)))

section Ops

variable {σ : Type} (ops : PageOps σ)

/-- The right-hand half of `shouldMerge`. -/
def shouldMergeRight (s : σ) (node : BNode) (idx : Nat) (updated : BNode) :
    Except Fault MergeDir := do
  let n ← nkeys node
  if u16 (idx + 1) < n then
    let p ← getPtr node (u16 (idx + 1))
    let sibling ← ops.getPage s p
    let ss ← nbytes sibling
    let us ← nbytes updated
    if u16sub (u16 (ss + us)) header ≤ btreePageSize then
      return .right sibling
  return .none

def shouldMerge (s : σ) (node : BNode) (idx : Nat) (updated : BNode) :
    Except Fault MergeDir := do
  let us ← nbytes updated
  if btreePageSize / 4 < us then return .none
  if 0 < idx then
    let p ← getPtr node (u16sub idx 1)
    let sibling ← ops.getPage s p
    let ss ← nbytes sibling
    if u16sub (u16 (ss + us)) header ≤ btreePageSize then
      return .left sibling
  shouldMergeRight ops s node idx updated

/-- The internal case of `treeDelete` from the merge decision on: the
kid's old page is freed, `updated` is its new node. -/
def rebuildKid (s : σ) (node : BNode) (idx : Nat) (updated : BNode) :
    Except Fault (BNode × σ) := do
  let new := make btreePageSize
  let mergeDir ← shouldMerge ops s node idx updated
  match mergeDir with
  | .left sibling =>
      let merged ← nodeMerge (make btreePageSize) sibling updated
      let p ← getPtr node (u16sub idx 1)
      let s ← ops.delPage s p
      let (ptr, s) ← ops.newPage s merged
      let k ← getKey merged 0
      let new ← nodeReplace2Kid new node (u16sub idx 1) ptr k
      return (new, s)
  | .right sibling =>
      let merged ← nodeMerge (make btreePageSize) updated sibling
      let p ← getPtr node (u16 (idx + 1))
      let s ← ops.delPage s p
      let (ptr, s) ← ops.newPage s merged
      let k ← getKey merged 0
      let new ← nodeReplace2Kid new node idx ptr k
      return (new, s)
  | .none =>
      let n ← nkeys updated
      if n = 0 then
        let new ← setHeader new bnodeInternal 0
        return (new, s)
      nodeReplaceKidN ops new node idx [updated] s

def treeDelete : Nat → σ → BNode → Bytes → Except Fault (Option BNode × σ)
  | 0, _, _, _ => .error .fuel
  | fuel + 1, s, node, key => do
      let idx ← nodeLookupLE node key
      let ty ← btype node
      if ty = bnodeLeaf then
        let k ← getKey node idx
        if cmp key k ≠ 0 then return (none, s)
        let n ← nkeys node
        let new ← setHeader (make btreePageSize) bnodeLeaf (u16sub n 1)
        let new ← nodeAppendRange new node 0 0 idx
        let new ← nodeAppendRange new node idx (u16 (idx + 1))
          (u16sub n (u16 (idx + 1)))
        return (some new, s)
      else if ty = bnodeInternal then
        let kptr ← getPtr node idx
        let knode ← ops.getPage s kptr
        let (updated?, s) ← treeDelete fuel s knode key
        match updated? with
        | none => return (none, s)
        | some updated =>
            let s ← ops.delPage s kptr
            let (new, s) ← rebuildKid ops s node idx updated
            return (some new, s)
      else return (none, s)

def delete (fuel : Nat) (tree : BTree σ) (key : Bytes) :
    Except Fault (Bool × BTree σ) := do
  if tree.root = 0 then return (false, tree)
  let node ← ops.getPage tree.pages tree.root
  let (updated?, s) ← treeDelete ops fuel tree.pages node key
  match updated? with
  | none => return (false, ⟨tree.root, s⟩)
  | some updated =>
      let s ← ops.delPage s tree.root
      let n ← nkeys updated
      if n = 0 then return (true, ⟨0, s⟩)
      let (ptr, s) ← ops.newPage s updated
      return (true, ⟨ptr, s⟩)

end Ops

end Svacara.Btree
