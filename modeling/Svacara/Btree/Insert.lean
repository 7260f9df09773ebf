/-
`internal/btree/insert.go`: insertion, node splitting and point lookup.

The tree reaches its pages through three callbacks only. `PageOps σ` is
that interface, with `σ` standing for whatever the callbacks' closures
capture (a map in the tests, the page manager and free list in the
store); a callback may fault, and the fault ends the call. Page
contents are values here: nodes are filled before they are handed to
`NewPage` and never written afterwards.

Recursion and loops that follow page pointers take fuel, since nothing
in the types keeps the pointers from forming a cycle; a cut-off is
reported as `Fault.fuel` and never returned as a result.
-/
import Svacara.Btree.Node

namespace Svacara.Btree

/-- The callbacks `GetPage`, `NewPage`, `DelPage` of a `BTree`. -/
structure PageOps (σ : Type) where
  getPage : σ → Ptr → Except Fault BNode
  newPage : σ → BNode → Except Fault (Ptr × σ)
  delPage : σ → Ptr → Except Fault σ

/-- `BTree`: the root pointer, 0 when the tree is empty, and the state
behind the callbacks. -/
structure BTree (σ : Type) where
  root : Ptr
  pages : σ

-- ================================================= node rebuilding

def leafInsert (new old : BNode) (idx : Nat) (key val : Bytes) :
    Except Fault BNode := do
  let n ← nkeys old
  let new ← setHeader new bnodeLeaf (u16 (n + 1))
  let new ← nodeAppendRange new old 0 0 idx
  let new ← nodeAppendKV new idx 0 key val
  nodeAppendRange new old (u16 (idx + 1)) idx (u16sub n idx)

def leafUpdate (new old : BNode) (idx : Nat) (key val : Bytes) :
    Except Fault BNode := do
  let n ← nkeys old
  let new ← setHeader new bnodeLeaf n
  let new ← nodeAppendRange new old 0 0 idx
  let new ← nodeAppendKV new idx 0 key val
  nodeAppendRange new old (u16 (idx + 1)) (u16 (idx + 1)) (u16sub n (u16 (idx + 1)))

/-- The loop of `nodeReplaceKidN`: allocate each kid and append its
entry, from position `idx` on. -/
def appendKids {σ : Type} (ops : PageOps σ) :
    List BNode → Nat → BNode → σ → Except Fault (BNode × σ)
  | [], _, new, s => .ok (new, s)
  | kid :: kids, idx, new, s => do
      let (ptr, s) ← ops.newPage s kid
      let key ← getKey kid 0
      let new ← nodeAppendKV new idx ptr key []
      appendKids ops kids (u16 (idx + 1)) new s

def nodeReplaceKidN {σ : Type} (ops : PageOps σ) (new old : BNode) (idx : Nat)
    (kids : List BNode) (s : σ) : Except Fault (BNode × σ) := do
  let inc := u16 kids.length
  let n ← nkeys old
  let new ← setHeader new bnodeInternal (u16sub (u16 (n + inc)) 1)
  let new ← nodeAppendRange new old 0 0 idx
  let (new, s) ← appendKids ops kids idx new s
  let new ← nodeAppendRange new old (u16 (idx + inc)) (u16 (idx + 1))
    (u16sub n (u16 (idx + 1)))
  return (new, s)

-- ======================================================= splitting

/-- The loop of `nodeSplit2`, which looks for the cut; `nkeys` rounds
are enough. -/
def splitLoop (old : BNode) (nkeys totalBytes : Nat) :
    Nat → Nat → Nat → Nat → Except Fault Nat
  | 0, _, _, splitIdx => .ok splitIdx
  | fuel + 1, i, accum, splitIdx =>
      if i < nkeys then do
        let key ← getKey old i
        let val ← getVal old i
        let kvBytes := u16 (4 + u16 key.length + u16 val.length)
        if totalBytes / 2 < u16 (accum + kvBytes) ∧ 0 < i then
          return splitIdx
        splitLoop old nkeys totalBytes fuel (u16 (i + 1))
          (u16 (accum + kvBytes)) (u16 (i + 1))
      else .ok splitIdx

def nodeSplit2 (left right old : BNode) : Except Fault (BNode × BNode) := do
  let n ← nkeys old
  let totalBytes ← nbytes old
  let splitIdx ← splitLoop old n totalBytes n 0 0 0
  let ty ← btype old
  let left ← setHeader left ty splitIdx
  let left ← nodeAppendRange left old 0 0 splitIdx
  let right ← setHeader right ty (u16sub n splitIdx)
  let right ← nodeAppendRange right old 0 splitIdx (u16sub n splitIdx)
  return (left, right)

/-- The list returned is `split[:nsplit]`. -/
def nodeSplit3 (old : BNode) : Except Fault (List BNode) := do
  let size ← nbytes old
  if size ≤ btreePageSize then return [old]
  let (left, right) ←
    nodeSplit2 (make (2 * btreePageSize)) (make btreePageSize) old
  let lsize ← nbytes left
  if lsize ≤ btreePageSize then return [left, right]
  let (leftleft, middle) ←
    nodeSplit2 (make btreePageSize) (make btreePageSize) left
  return [leftleft, middle, right]

-- ======================================================= insertion

section Ops

variable {σ : Type} (ops : PageOps σ)

def treeInsert : Nat → σ → BNode → Bytes → Bytes → Except Fault (BNode × σ)
  | 0, _, _, _, _ => .error .fuel
  | fuel + 1, s, node, key, val => do
      let new := make (2 * btreePageSize)
      let idx ← nodeLookupLE node key
      let ty ← btype node
      if ty = bnodeLeaf then
        let n ← nkeys node
        if n = 0 then
          let new ← leafInsert new node idx key val
          return (new, s)
        let k ← getKey node idx
        if cmp key k = 0 then
          let new ← leafUpdate new node idx key val
          return (new, s)
        let insertIdx := if 0 < cmp key k then u16 (idx + 1) else idx
        let new ← leafInsert new node insertIdx key val
        return (new, s)
      else if ty = bnodeInternal then
        let kptr ← getPtr node idx
        let knode ← ops.getPage s kptr
        let s ← ops.delPage s kptr
        let (knode, s) ← treeInsert fuel s knode key val
        let split ← nodeSplit3 knode
        nodeReplaceKidN ops new node idx split s
      else return (new, s)

/-- The loop of `Insert` that fills a new root over the split parts. -/
def appendSplit : List BNode → Nat → BNode → σ → Except Fault (BNode × σ)
  | [], _, root, s => .ok (root, s)
  | knode :: rest, i, root, s => do
      let (ptr, s) ← ops.newPage s knode
      let pos ← offsetPos root (u16 (i + 1))
      let root ← copyAt root pos (make 2)
      let key ← getKey knode 0
      let root ← nodeAppendKV root i ptr key []
      appendSplit rest (u16 (i + 1)) root s

def insert (fuel : Nat) (tree : BTree σ) (key val : Bytes) :
    Except Fault (BTree σ) := do
  if tree.root = 0 then
    let root ← setHeader (make btreePageSize) bnodeLeaf 1
    let root ← nodeAppendKV root 0 0 key val
    let (ptr, s) ← ops.newPage tree.pages root
    return ⟨ptr, s⟩
  let node ← ops.getPage tree.pages tree.root
  let s ← ops.delPage tree.pages tree.root
  let (node, s) ← treeInsert ops fuel s node key val
  let split ← nodeSplit3 node
  match split with
  | [single] =>
      let (ptr, s) ← ops.newPage s single
      return ⟨ptr, s⟩
  | split =>
      let root ← setHeader (make btreePageSize) bnodeInternal split.length
      let (root, s) ← appendSplit ops split 0 root s
      let (ptr, s) ← ops.newPage s root
      return ⟨ptr, s⟩

-- ========================================================== lookup

/-- The descent loop of `Get`. A node of neither type leaves `node` as it
is and the source's loop spins; here the fuel runs out. -/
def getLoop : Nat → σ → BNode → Bytes → Except Fault (Option Bytes)
  | 0, _, _, _ => .error .fuel
  | fuel + 1, s, node, key => do
      let idx ← nodeLookupLE node key
      let ty ← btype node
      if ty = bnodeLeaf then
        let k ← getKey node idx
        if cmp key k = 0 then
          let v ← getVal node idx
          return some v
        return none
      else if ty = bnodeInternal then
        let kptr ← getPtr node idx
        let node ← ops.getPage s kptr
        getLoop fuel s node key
      else getLoop fuel s node key

/-- `Get`: `some v` for `(v, true)`, `none` for `(nil, false)`. -/
def get (fuel : Nat) (tree : BTree σ) (key : Bytes) :
    Except Fault (Option Bytes) := do
  if tree.root = 0 then return none
  let node ← ops.getPage tree.pages tree.root
  getLoop ops fuel tree.pages node key

end Ops

end Svacara.Btree
