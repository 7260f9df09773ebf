/-
What a tree looks like to someone who follows its pointers.

Nothing here mentions the ghost tree: `Reach` walks from page to page
with the accessors of `node.go`, and `WellShaped` is the invariant of the
representation in those terms.
-/
import Svacara.Btree.Node

namespace Svacara.Btree

/-- `Reach m p path q`: from the page `p`, taking at each internal node
the entry that `path` names next, one gets to the page `q`. -/
inductive Reach (m : Ptr → Option BNode) : Ptr → List Nat → Ptr → Prop where
  | here (p : Ptr) : Reach m p [] p
  | down {p q r : Ptr} {i n : Nat} {path : List Nat} {node : BNode}
      (hpage : m p = some node) (hty : btype node = .ok bnodeInternal)
      (hn : nkeys node = .ok n) (hi : i < n) (hptr : getPtr node i = .ok q)
      (hreach : Reach m q path r) : Reach m p (i :: path) r

/-- A node on its own: a known type, at least one key, keys in strictly
increasing order, and no more than a page of bytes. -/
structure SoundNode (node : BNode) : Prop where
  type : btype node = .ok bnodeLeaf ∨ btype node = .ok bnodeInternal
  keys : ∃ n, nkeys node = .ok n ∧ 0 < n ∧ ∀ i j, i < j → j < n →
    ∃ a b, getKey node i = .ok a ∧ getKey node j = .ok b ∧ cmp a b < 0
  size : ∃ b, nbytes node = .ok b ∧ b ≤ btreePageSize

/-- The pages reachable from `root` form a B+tree. -/
structure WellShaped (m : Ptr → Option BNode) (root : Ptr) : Prop where
  sound : ∀ path p, Reach m root path p → ∃ node, m p = some node ∧ SoundNode node
  separator : ∀ path p node n i q, Reach m root path p → m p = some node →
    btype node = .ok bnodeInternal → nkeys node = .ok n → i < n →
    getPtr node i = .ok q →
    ∃ child k, m q = some child ∧ getKey node i = .ok k ∧ getKey child 0 = .ok k
  depth : ∀ path path' p p' node node', Reach m root path p →
    Reach m root path' p' → m p = some node → m p' = some node' →
    btype node = .ok bnodeLeaf → btype node' = .ok bnodeLeaf →
    path.length = path'.length
  unique : ∀ path path' p, Reach m root path p → Reach m root path' p → path = path'

end Svacara.Btree
