/-
`internal/kvstore/interface.go`: the store as its users see it.

`Storage` keeps the four methods the relational layer calls. An iterator
is the list of entries it has still to yield: it is valid while the list
is not empty, stands on its head, and moves on to its tail.

# What is assumed of a store

The layers above are about any store that is a correct map (`IsMap`),
the scans about one whose entries are moreover in key order and whose
`Seek` starts at the greatest key that is not above the one sought
(`IsOrdered`). How far the B-tree is such a store is the business of its
own modules. `memory` is one, so the assumptions can be met.
-/
import Svacara.Basic
import Svacara.Lib.SortedMap

namespace Svacara.Kvstore

open SortedMap

/-- The methods of a store with states in `σ`. An operation returns its
error, if any, and the state it leaves. -/
structure Storage (σ : Type) where
  get : σ → Bytes → Option Bytes
  set : σ → Bytes → Bytes → Option String × σ
  del : σ → Bytes → (Bool × Option String) × σ
  seek : σ → Bytes → List (Bytes × Bytes)

variable {σ : Type}

/-- No operation fails, and each changes the binding of its own key
only. -/
structure Storage.IsMap (kv : Storage σ) : Prop where
  set_ok : ∀ s k v, (kv.set s k v).1 = none
  get_set : ∀ s k v, kv.get (kv.set s k v).2 k = some v
  get_set_of_ne : ∀ s k v k', k' ≠ k → kv.get (kv.set s k v).2 k' = kv.get s k'
  del_ok : ∀ s k, (kv.del s k).1 = ((kv.get s k).isSome, none)
  get_del : ∀ s k, kv.get (kv.del s k).2 k = none
  get_del_of_ne : ∀ s k k', k' ≠ k → kv.get (kv.del s k).2 k' = kv.get s k'

/-- `content s` lists the entries of the store in key order. -/
structure Storage.IsOrdered (kv : Storage σ) (content : σ → List (Bytes × Bytes)) : Prop
    extends kv.IsMap where
  sorted : ∀ s, Sorted (content s)
  get_eq : ∀ s k, kv.get s k = (content s).lookup k
  seek_eq : ∀ s k, kv.seek s k = fromFloor k (content s)

-- ======================================================= in memory

/-- A sorted list of entries. -/
abbrev Memory := { l : List (Bytes × Bytes) // Sorted l }

def Memory.empty : Memory := ⟨[], List.Pairwise.nil⟩

instance : Inhabited Memory := ⟨Memory.empty⟩

def memory : Storage Memory where
  get s k := s.1.lookup k
  set s k v := (none, ⟨ins k v s.1, sorted_ins s.2⟩)
  del s k := (((s.1.lookup k).isSome, none), ⟨SortedMap.del k s.1, sorted_del s.2⟩)
  seek s k := fromFloor k s.1

theorem memory_isOrdered : memory.IsOrdered Subtype.val where
  set_ok _ _ _ := rfl
  get_set _ k _ := (lookup_ins k).trans (if_pos rfl)
  get_set_of_ne _ _ _ k' h := (lookup_ins k').trans (if_neg h)
  del_ok _ _ := rfl
  get_del _ k := (lookup_del k).trans (if_pos rfl)
  get_del_of_ne _ _ k' h := (lookup_del k').trans (if_neg h)
  sorted s := s.2
  get_eq _ _ := rfl
  seek_eq _ _ := rfl

end Svacara.Kvstore
