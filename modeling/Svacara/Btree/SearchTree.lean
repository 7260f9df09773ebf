/-
Search trees, as the accessors of `node.go` read them.

`SearchNode m h node kvs` says that the pages `m` hold a search tree
under `node`, of height at most `h` and with the pairs `kvs` from left to
right. Sizes are not mentioned, and neither is where in its buffer a node
keeps an entry: all that counts is what `nkeys`, `getKey`, `getVal` and
`getPtr` return. The leaves need not be at one depth.
-/
import Svacara.Btree.Node
import Svacara.Lib.SortedMap

namespace Svacara.Btree

open SortedMap

/-- A kid of an internal node: its page number, its node, and the pairs
in the tree under it. -/
structure Kid where
  ptr : Ptr
  node : BNode
  pairs : List (Bytes × Bytes)

/-- No node is empty, and every entry of an internal node carries the
first key of its kid. -/
inductive SearchNode (m : Ptr → Option BNode) :
    Nat → BNode → List (Bytes × Bytes) → Prop where
  | leaf {h : Nat} {node : BNode} {kvs : List (Bytes × Bytes)}
      (hty : btype node = .ok bnodeLeaf) (hn : nkeys node = .ok kvs.length)
      (hne : kvs ≠ [])
      (hkey : ∀ i kv, kvs[i]? = some kv → getKey node i = .ok kv.1)
      (hval : ∀ i kv, kvs[i]? = some kv → getVal node i = .ok kv.2) :
      SearchNode m h node kvs
  | inner {h : Nat} {node : BNode} {kids : List Kid}
      (hty : btype node = .ok bnodeInternal) (hn : nkeys node = .ok kids.length)
      (hne : kids ≠ [])
      (hptr : ∀ i k, kids[i]? = some k → getPtr node i = .ok k.ptr)
      (hkey : ∀ i k, kids[i]? = some k →
        ∃ sep, getKey node i = .ok sep ∧ getKey k.node 0 = .ok sep)
      (hpage : ∀ k ∈ kids, m k.ptr = some k.node)
      (hkid : ∀ k ∈ kids, SearchNode m h k.node k.pairs) :
      SearchNode m (h + 1) node (kids.flatMap Kid.pairs)

/-- A search tree at `root`, with its pairs in increasing order of their
keys; no page and no pairs if `root` is 0. -/
inductive SearchTreeAt (m : Ptr → Option BNode) (root : Ptr) (h : Nat)
    (kvs : List (Bytes × Bytes)) : Prop where
  | empty (hroot : root = 0) (hnil : kvs = [])
  | tree (hroot : root ≠ 0) (node : BNode) (hpage : m root = some node)
      (hnode : SearchNode m h node kvs) (hsorted : Sorted kvs)

/-- Where a search for `s` lands: at the greatest key that is not above
it, or at the smallest key if all are. -/
structure Lands (s : Bytes) (kvs : List (Bytes × Bytes)) (kv : Bytes × Bytes) : Prop where
  mem : kv ∈ kvs
  floor : (kv.1 ≤ s ∧ ∀ e ∈ kvs, e.1 ≤ s → e.1 ≤ kv.1)
    ∨ ((∀ e ∈ kvs, s < e.1) ∧ ∀ e ∈ kvs, kv.1 ≤ e.1)

end Svacara.Btree
