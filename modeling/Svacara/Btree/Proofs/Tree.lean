/-
The tree behind the pages.

`Tree h` is a tree of height `h`: at height 0 the pairs of a leaf, above
it the kids of an internal node, each with the pointer of its page. That
all leaves lie at the same depth is in the type. The tree is a ghost: no
definition of the model mentions it, the proofs exhibit one after every
step.

# From a tree to the pages

- `entries` is what the node's own buffer must hold: the pairs of a
  leaf, or for each kid its pointer and the first key of its node.
- `pages` lists the pages below the node (not its own: while an
  operation runs, the node it returns has no page yet).
- `Stored m h t` says that the heap `m` has, at every pointer of the
  tree, a buffer that encodes the kid it points to.

# From a tree to the map

`flat` is the pairs from left to right. Order is a property of `flat`
alone (`SortedMap.Sorted`); that the separators of every node are sorted
and that the search takes the right turn follows from it
(`sortedKeys_entries`, `flat_around`), as long as no kid is empty.

`Good P` puts a page predicate on every kid below the node. With
`RowPage` it says that each page is non-empty and fits.
-/
import Svacara.Btree.Proofs.Search
import Svacara.Lib.SortedMap
import Svacara.Lib.Heap
import Mathlib.Data.List.Flatten

namespace Svacara.Btree

open SortedMap

-- ======================================================= the ghost

/-- A tree of the given height. -/
def Tree : Nat → Type
  | 0 => List (Bytes × Bytes)
  | h + 1 => List (Ptr × Tree h)

/-- The first key of a node, the empty one if it has none. -/
def firstKey (es : List Entry) : Bytes := (es.head?.map Entry.key).getD []

/-- What the node's buffer holds. -/
def entries : (h : Nat) → Tree h → List Entry
  | 0, kvs => List.map (fun kv : Bytes × Bytes => ⟨0, kv.1, kv.2⟩) kvs
  | h + 1, kids =>
      List.map (fun k : Ptr × Tree h => ⟨k.1, firstKey (entries h k.2), []⟩) kids

/-- The pairs of the tree, left to right. -/
def flat : (h : Nat) → Tree h → List (Bytes × Bytes)
  | 0, kvs => kvs
  | h + 1, kids => List.flatMap (fun k : Ptr × Tree h => flat h k.2) kids

/-- The pages below the node. -/
def pages : (h : Nat) → Tree h → List Ptr
  | 0, _ => []
  | h + 1, kids =>
      List.flatMap (fun k : Ptr × Tree h => k.1 :: pages h k.2) kids

/-- The node type that goes with a height. -/
def nodeType : Nat → Nat
  | 0 => bnodeLeaf
  | _ + 1 => bnodeInternal

/-- Every kid below the node has entries with `P`. -/
def Good (P : List Entry → Prop) : (h : Nat) → Tree h → Prop
  | 0, _ => True
  | h + 1, kids => ∀ k : Ptr × Tree h, k ∈ (show List (Ptr × Tree h) from kids) →
      P (entries h k.2) ∧ Good P h k.2

/-- Every pointer of the tree leads to a buffer that encodes its kid. -/
def Stored (m : Ptr → Option BNode) : (h : Nat) → Tree h → Prop
  | 0, _ => True
  | h + 1, kids => ∀ k : Ptr × Tree h, k ∈ (show List (Ptr × Tree h) from kids) →
      (∃ buf, m k.1 = some buf ∧ Encodes buf (nodeType h) (entries h k.2))
        ∧ Stored m h k.2

/-- Two nodes of one height, side by side in one. -/
def append : (h : Nat) → Tree h → Tree h → Tree h
  | 0, a, b => List.append a b
  | _ + 1, a, b => List.append a b

section Kids

variable {h : Nat}

/-- The entry of a kid in its parent. -/
def kidEntry (k : Ptr × Tree h) : Entry := ⟨k.1, firstKey (entries h k.2), []⟩

/-- A list of kids, as the tree it is. -/
abbrev ofKids (kids : List (Ptr × Tree h)) : Tree (h + 1) := kids

theorem entries_ofKids (kids : List (Ptr × Tree h)) :
    entries (h + 1) (ofKids kids) = kids.map kidEntry := rfl

theorem getElem?_entries {kids : List (Ptr × Tree h)} {i : Nat}
    {k : Ptr × Tree h} (hk : kids[i]? = some k) :
    (entries (h + 1) (ofKids kids))[i]? = some (kidEntry k) := by
  rw [entries_ofKids, List.getElem?_map, hk]
  rfl

theorem flat_ofKids (kids : List (Ptr × Tree h)) :
    flat (h + 1) (ofKids kids) = kids.flatMap fun k => flat h k.2 := rfl

theorem pages_ofKids (kids : List (Ptr × Tree h)) :
    pages (h + 1) (ofKids kids) = kids.flatMap fun k => k.1 :: pages h k.2 := rfl

end Kids

-- =================================================== concatenation

theorem entries_append : ∀ (h : Nat) (a b : Tree h),
    entries h (append h a b) = entries h a ++ entries h b
  | 0, _, _ => List.map_append
  | _ + 1, _, _ => List.map_append

theorem flat_append : ∀ (h : Nat) (a b : Tree h),
    flat h (append h a b) = flat h a ++ flat h b
  | 0, _, _ => rfl
  | _ + 1, _, _ => List.flatMap_append

theorem pages_append : ∀ (h : Nat) (a b : Tree h),
    pages h (append h a b) = pages h a ++ pages h b
  | 0, _, _ => rfl
  | _ + 1, _, _ => List.flatMap_append

theorem good_append {P : List Entry → Prop} : ∀ {h : Nat} {a b : Tree h},
    Good P h (append h a b) ↔ Good P h a ∧ Good P h b
  | 0, _, _ => ⟨fun _ => ⟨trivial, trivial⟩, fun _ => trivial⟩
  | _ + 1, _, _ => List.forall_mem_append

theorem stored_append {m : Ptr → Option BNode} : ∀ {h : Nat} {a b : Tree h},
    Stored m h (append h a b) ↔ Stored m h a ∧ Stored m h b
  | 0, _, _ => ⟨fun _ => ⟨trivial, trivial⟩, fun _ => trivial⟩
  | _ + 1, _, _ => List.forall_mem_append

/-- A node whose entries come in two parts is two nodes. -/
theorem exists_append_of_entries : ∀ {h : Nat} {t : Tree h} {es fs : List Entry},
    entries h t = es ++ fs →
    ∃ a b : Tree h, t = append h a b ∧ entries h a = es ∧ entries h b = fs
  | 0, _, _, _, heq => by
      obtain ⟨a, b, rfl, rfl, rfl⟩ := List.map_eq_append_iff.mp heq
      exact ⟨a, b, rfl, rfl, rfl⟩
  | _ + 1, _, _, _, heq => by
      obtain ⟨a, b, rfl, rfl, rfl⟩ := List.map_eq_append_iff.mp heq
      exact ⟨a, b, rfl, rfl, rfl⟩

-- =========================================================== order

section Order

variable {P : List Entry → Prop}

/-- The first key of a non-empty node is the first key below it. The
induction is on the height, along the leftmost path. -/
theorem firstKey_eq (hP : ∀ es, P es → es ≠ []) : ∀ {h : Nat} {t : Tree h},
    Good P h t → entries h t ≠ [] →
    ∃ kv rest, flat h t = kv :: rest ∧ firstKey (entries h t) = kv.1 := by
  intro h
  induction h with
  | zero =>
      intro t _ hne
      cases t with
      | nil => exact absurd rfl hne
      | cons kv rest => exact ⟨kv, rest, rfl, rfl⟩
  | succ h ih =>
      intro t hg hne
      cases t with
      | nil => exact absurd rfl hne
      | cons k ks =>
          obtain ⟨hk, hgk⟩ := hg k (List.mem_cons_self ..)
          obtain ⟨kv, rest, hflat, hkey⟩ := ih hgk (hP _ hk)
          refine ⟨kv, rest ++ flat (h + 1) (ofKids ks), ?_, hkey⟩
          show flat h k.2 ++ flat (h + 1) (ofKids ks) = _
          rw [hflat, List.cons_append]

/-- A non-empty node has pairs below it. -/
theorem flat_ne_nil (hP : ∀ es, P es → es ≠ []) {h : Nat} {t : Tree h}
    (hg : Good P h t) (hne : entries h t ≠ []) : flat h t ≠ [] := by
  obtain ⟨kv, rest, hflat, -⟩ := firstKey_eq hP hg hne
  rw [hflat]
  exact List.cons_ne_nil _ _

theorem Sorted.flat_kid {h : Nat} {kids : List (Ptr × Tree h)}
    (hs : Sorted (flat (h + 1) (ofKids kids))) {k : Ptr × Tree h}
    (hk : k ∈ kids) : Sorted (flat h k.2) :=
  (List.pairwise_flatMap.mp hs).1 k hk

/-- Every pair below a non-empty node is at or above its first key. -/
theorem firstKey_le (hP : ∀ es, P es → es ≠ []) {h : Nat} {t : Tree h}
    (hg : Good P h t) (hne : entries h t ≠ []) (hs : Sorted (flat h t)) :
    ∀ e ∈ flat h t, firstKey (entries h t) ≤ e.1 := by
  obtain ⟨kv, rest, hflat, hkey⟩ := firstKey_eq hP hg hne
  rw [hkey, hflat]
  rw [hflat] at hs
  intro e he
  rcases List.mem_cons.mp he with rfl | he
  · exact le_refl _
  · exact (hs.allGt e he).le

/-- The first key of a non-empty node is one of the keys below it. -/
theorem firstKey_mem (hP : ∀ es, P es → es ≠ []) {h : Nat} {t : Tree h}
    (hg : Good P h t) (hne : entries h t ≠ []) :
    ∃ e ∈ flat h t, firstKey (entries h t) = e.1 := by
  obtain ⟨kv, rest, hflat, hkey⟩ := firstKey_eq hP hg hne
  exact ⟨kv, by rw [hflat]; exact List.mem_cons_self .., hkey⟩

/-- A sorted tree has sorted nodes. -/
theorem sortedKeys_entries (hP : ∀ es, P es → es ≠ []) : ∀ {h : Nat} {t : Tree h},
    Good P h t → Sorted (flat h t) → SortedKeys (entries h t)
  | 0, _, _, hs => List.pairwise_map.mpr hs
  | h + 1, kids, hg, hs => by
      refine List.pairwise_map.mpr ?_
      refine (List.pairwise_flatMap.mp hs).2.imp_of_mem ?_
      intro a b ha hb hab
      obtain ⟨x, hx, hkx⟩ := firstKey_mem hP (hg a ha).2 (hP _ (hg a ha).1)
      obtain ⟨y, hy, hky⟩ := firstKey_mem hP (hg b hb).2 (hP _ (hg b hb).1)
      show firstKey (entries h a.2) < firstKey (entries h b.2)
      rw [hkx, hky]
      exact hab x hx y hy

/-- Where the search goes in an internal node: every kid to the right
holds larger keys only, and the kid taken starts at or below the key
unless it is the first. -/
theorem lookup_kids_le (hP : ∀ es, P es → es ≠ []) {h : Nat} {buf : BNode}
    {kids : List (Ptr × Tree h)} (key : Bytes)
    (henc : Encodes buf bnodeInternal (entries (h + 1) (ofKids kids)))
    (hg : Good P (h + 1) (ofKids kids))
    (hs : Sorted (flat (h + 1) (ofKids kids))) (hne : kids ≠ []) :
    ∃ L k R, kids = L ++ k :: R ∧ nodeLookupLE buf key = .ok L.length
      ∧ AllGt key (flat (h + 1) (ofKids R))
      ∧ (L = [] ∨ firstKey (entries h k.2) ≤ key) := by
  obtain ⟨L', e, R', hsplit, hlook, hR, hL⟩ := nodeLookupLE_split key henc
    (sortedKeys_entries hP hg hs) (by simpa [entries_ofKids] using hne)
  rw [entries_ofKids] at hsplit
  obtain ⟨L, kR, rfl, rfl, hkR⟩ := List.map_eq_append_iff.mp hsplit
  obtain ⟨k, R, rfl, rfl, rfl⟩ := List.map_eq_cons_iff.mp hkR
  rw [List.length_map] at hlook
  refine ⟨L, k, R, rfl, hlook, ?_, hL.imp List.map_eq_nil_iff.mp id⟩
  -- each kid's first key is above the key
  intro e he
  obtain ⟨a, ha, hea⟩ := List.mem_flatMap.mp he
  obtain ⟨hk, hgk⟩ := hg a (by simp [ha])
  have hle := firstKey_le hP hgk (hP _ hk) (Sorted.flat_kid hs (by simp [ha]))
    e hea
  exact (hR (kidEntry a) (List.mem_map_of_mem ha)).trans_le hle

/-- Left of a kid that starts at or below the key there are smaller keys
only. -/
theorem allLt_left (hP : ∀ es, P es → es ≠ []) {h : Nat}
    {L R : List (Ptr × Tree h)} {k : Ptr × Tree h} {key : Bytes}
    (hg : Good P (h + 1) (ofKids (L ++ k :: R)))
    (hs : Sorted (flat (h + 1) (ofKids (L ++ k :: R))))
    (hL : L = [] ∨ firstKey (entries h k.2) ≤ key) :
    AllLt (flat (h + 1) (ofKids L)) key := by
  intro e he
  rcases hL with rfl | hL
  · cases he
  · obtain ⟨hk, hgk⟩ := hg k (by simp)
    obtain ⟨x, hx, hkx⟩ := firstKey_mem hP hgk (hP _ hk)
    have hcross := (List.pairwise_append.mp (List.pairwise_flatMap.mp hs).2).2.2
    obtain ⟨a, ha, hea⟩ := List.mem_flatMap.mp he
    have hlt := hcross a ha k (List.mem_cons_self ..) e hea x hx
    rw [← hkx] at hlt
    exact hlt.trans_le hL

/-- The pointer at a kid's position. -/
theorem getPtr_kid {h : Nat} {buf : BNode} {L R : List (Ptr × Tree h)}
    {k : Ptr × Tree h}
    (henc : Encodes buf bnodeInternal (entries (h + 1) (ofKids (L ++ k :: R)))) :
    getPtr buf L.length = .ok k.1 := by
  refine Holds.getPtr henc (getElem?_entries (k := k) ?_)
  rw [List.getElem?_append_right (Nat.le_refl _), Nat.sub_self]
  rfl

/-- The entries of a leaf, around one of them. -/
theorem entries_around (L : List (Bytes × Bytes)) (kv : Bytes × Bytes)
    (R : List (Bytes × Bytes)) :
    entries 0 (L ++ kv :: R) = entries 0 L ++ ⟨0, kv.1, kv.2⟩ :: entries 0 R := by
  simp [entries]

theorem getElem?_entries_around (L : List (Bytes × Bytes)) (kv : Bytes × Bytes)
    (R : List (Bytes × Bytes)) :
    (entries 0 (L ++ kv :: R))[L.length]? = some ⟨0, kv.1, kv.2⟩ := by
  have hlen : (entries 0 L).length = L.length := List.length_map ..
  rw [entries_around, ← hlen, List.getElem?_append_right (Nat.le_refl _), Nat.sub_self]
  rfl

/-- Where the search goes in a leaf. -/
theorem lookup_leaf {buf : BNode} {kvs : List (Bytes × Bytes)} (key : Bytes)
    (henc : Encodes buf bnodeLeaf (entries 0 kvs)) (hs : Sorted kvs)
    (hne : kvs ≠ []) :
    ∃ L kv R, kvs = L ++ kv :: R ∧ nodeLookupLE buf key = .ok L.length
      ∧ AllLt L key ∧ AllGt key R ∧ (L = [] ∨ kv.1 ≤ key) := by
  obtain ⟨L', e, R', hsplit, hlook, hR, hL⟩ := nodeLookupLE_split key henc
    (List.pairwise_map.mpr hs) (by simpa [entries] using hne)
  obtain ⟨L, kR, rfl, rfl, hkR⟩ := List.map_eq_append_iff.mp hsplit
  obtain ⟨kv, R, rfl, rfl, rfl⟩ := List.map_eq_cons_iff.mp hkR
  rw [List.length_map] at hlook
  refine ⟨L, kv, R, rfl, hlook, ?_, ?_, hL.imp List.map_eq_nil_iff.mp id⟩
  · intro e he
    rcases hL with hL | hL
    · rw [List.map_eq_nil_iff.mp hL] at he
      cases he
    · exact (Sorted.allLt hs e he).trans_le hL
  · intro e he
    exact hR ⟨0, e.1, e.2⟩ (List.mem_map_of_mem he)

end Order

-- ========================================================= storage

section Heap

variable {m m' : Ptr → Option BNode}

/-- Every page of a stored tree is live. -/
theorem Stored.live : ∀ {h : Nat} {t : Tree h}, Stored m h t →
    ∀ p ∈ pages h t, m p ≠ none
  | 0, _, _ => fun p hp => absurd hp List.not_mem_nil
  | h + 1, kids, hst => by
      intro p hp
      obtain ⟨k, hk, hp⟩ := List.mem_flatMap.mp hp
      obtain ⟨⟨buf, hbuf, -⟩, hsub⟩ := hst k hk
      rcases List.mem_cons.mp hp with rfl | hp
      · rw [hbuf]
        exact Option.some_ne_none buf
      · exact Stored.live hsub p hp

/-- Storage looks at the tree's own pages only. -/
theorem Stored.congr : ∀ {h : Nat} {t : Tree h}, Stored m h t →
    (∀ p ∈ pages h t, m' p = m p) → Stored m' h t
  | 0, _, _, _ => trivial
  | h + 1, kids, hst, heq => by
      intro k hk
      obtain ⟨⟨buf, hbuf, henc⟩, hsub⟩ := hst k hk
      have hmem : ∀ p ∈ k.1 :: pages h k.2, m' p = m p := fun p hp =>
        heq p (List.mem_flatMap.mpr ⟨k, hk, hp⟩)
      refine ⟨⟨buf, ?_, henc⟩, Stored.congr hsub fun p hp =>
        hmem p (List.mem_cons_of_mem _ hp)⟩
      rw [hmem k.1 (List.mem_cons_self ..), hbuf]

/-- Filling a free page disturbs no stored tree. -/
theorem Stored.put {h : Nat} {t : Tree h} {p : Ptr} {b : BNode}
    (hst : Stored m h t) (hp : m p = none) :
    Stored (Function.update m p (some b)) h t := by
  refine hst.congr fun q hq => ?_
  have hne : q ≠ p := by
    rintro rfl
    exact hst.live q hq hp
  exact Function.update_of_ne hne _ _

/-- Neither does freeing a page that is not one of its own. -/
theorem Stored.erase {h : Nat} {t : Tree h} {p : Ptr} (hst : Stored m h t)
    (hp : p ∉ pages h t) : Stored (Function.update m p none) h t := by
  refine hst.congr fun q hq => ?_
  have hne : q ≠ p := by
    rintro rfl
    exact hp hq
  exact Function.update_of_ne hne _ _

end Heap

end Svacara.Btree
