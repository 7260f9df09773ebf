/-
What an insertion does to the pairs that are there, for pairs of any
size.

`Insert` reports no errors: it returns or it panics. It does no harm if
it returns and every key then has its value, the given one for the key
inserted and the old one for any other (`Harmless`). The sizes decide
(`AllFit`): the new leaf must fit a buffer of two pages, the nodes on
the way up must split into parts of at most a page, the rebuilt parents
fit two pages and a new root one.
-/
import Svacara.Btree.Proofs.Grow

namespace Svacara.Btree

-- =================================================== the condition

/-- The shape of a tree: nothing, or a root with its height. -/
inductive Outline where
  | empty
  | tree (h : Nat) (b : Tree h)

/-- The pairs, from left to right. -/
def Outline.pairs : Outline → List (Bytes × Bytes)
  | .empty => []
  | .tree h b => flat h b

/-- `Insert` on shapes, with everything it writes in its buffer. -/
inductive Outline.Put (key val : Bytes) : Outline → Outline → Prop where
  | first (hfit : header + pairSize (key, val) ≤ btreePageSize) :
      Put key val .empty (.tree 0 [(key, val)])
  | grow {h h' : Nat} {b b' : Tree h} {bs : List (Tree h)} {c : Tree h'}
      (hgrow : Grows key val h b b') (hsplit : Splits h b' bs)
      (hroot : Rooted h bs h' c) : Put key val (.tree h b) (.tree h' c)

/-- A sequence of insertions on shapes. -/
inductive Outline.PutAll : Outline → List (Bytes × Bytes) → Outline → Prop where
  | nil {o : Outline} : PutAll o [] o
  | cons {o₁ o₂ o₃ : Outline} {kv : Bytes × Bytes} {calls : List (Bytes × Bytes)}
      (hput : Put kv.1 kv.2 o₁ o₂) (hrest : PutAll o₂ calls o₃) :
      PutAll o₁ (kv :: calls) o₃

/-- Inserted one after the other into an empty tree, the pairs all fit. -/
def AllFit (calls : List (Bytes × Bytes)) : Prop :=
  ∃ o, Outline.PutAll .empty calls o

-- ==================================================== the property

section Ops

variable {σ : Type} (ops : PageOps σ)

/-- The insertions, one after the other. -/
def insertAll (fuel : Nat) (tree : BTree σ) (calls : List (Bytes × Bytes)) :
    Except Fault (BTree σ) :=
  calls.foldlM (fun tree kv => insert ops fuel tree kv.1 kv.2) tree

/-- The insertion returns, the key has the value given and every other
key the one it had. -/
def Harmless (fuel : Nat) (tree : BTree σ) (key val : Bytes) : Prop :=
  ∃ tree', insert ops fuel tree key val = .ok tree'
    ∧ ∀ k, get ops fuel tree' k = if k = key then .ok (some val) else get ops fuel tree k

/-- What the store hands out is at most two pages long. -/
def Paged (s : σ) : Prop :=
  ∀ p node, ops.getPage s p = .ok node → node.length ≤ 2 * btreePageSize

/-- Storing such a node and freeing one keep it so. -/
structure Paging : Prop where
  newPage : ∀ s node r, Paged ops s → node.length ≤ 2 * btreePageSize →
    ops.newPage s node = .ok r → Paged ops r.2
  delPage : ∀ s p s', Paged ops s → ops.delPage s p = .ok s' → Paged ops s'

end Ops

end Svacara.Btree
