/-
The search in a tree that is only known through its accessors.

`look_leaf` and `look_inner` say where `nodeLookupLE` goes in a node of a
search tree: what lies left of the place is below the key, what lies
right of it is above. With one of them for each level the descent of
`Get` is an induction over the tree (`SearchNode.getLoop`).

A tree in the page format is a search tree in this sense
(`Stored.searchNode`), whatever the sizes of its nodes.
-/
import Svacara.Btree.SearchTree
import Svacara.Btree.Proofs.Tree
import Svacara.Btree.Proofs.Kids

namespace Svacara.Btree

open Outcome SortedMap

variable {m : Ptr → Option BNode} {h : Nat} {node : BNode} {kvs : List (Bytes × Bytes)}
  {kids : List Kid} {key : Bytes}

-- ================================================== where it goes

/-- The first key under a kid. -/
def Kid.first (k : Kid) : Bytes := (k.pairs.head?.map Prod.fst).getD []

/-- The first key of a node is that of the first pair under it. -/
theorem SearchNode.first (hnode : SearchNode m h node kvs) :
    ∃ kv rest, kvs = kv :: rest ∧ getKey node 0 = .ok kv.1 := by
  induction hnode with
  | leaf hty hn hne hkey hval =>
      obtain ⟨kv, rest, rfl⟩ := List.exists_cons_of_ne_nil hne
      exact ⟨kv, rest, rfl, hkey 0 kv rfl⟩
  | inner hty hn hne hptr hkey hpage hkid ih =>
      obtain ⟨k, ks, rfl⟩ := List.exists_cons_of_ne_nil hne
      obtain ⟨kv, rest, hpairs, hfirst⟩ := ih k (List.mem_cons_self ..)
      obtain ⟨sep, hsep, hkid0⟩ := hkey 0 k rfl
      rw [hfirst] at hkid0
      cases hkid0
      refine ⟨kv, rest ++ ks.flatMap Kid.pairs, ?_, hsep⟩
      rw [List.flatMap_cons, hpairs, List.cons_append]

/-- A kid with its first pair. -/
theorem SearchNode.pairs_eq {k : Kid} (hk : SearchNode m h k.node k.pairs) :
    ∃ kv rest, k.pairs = kv :: rest ∧ kv.1 = k.first ∧ getKey k.node 0 = .ok k.first := by
  obtain ⟨kv, rest, hpairs, hkey⟩ := hk.first
  have hfirst : kv.1 = k.first := by
    rw [Kid.first, hpairs]
    rfl
  exact ⟨kv, rest, hpairs, hfirst, by rw [← hfirst]; exact hkey⟩

theorem look_leaf (hn : nkeys node = .ok kvs.length) (hne : kvs ≠ [])
    (hkey : ∀ i kv, kvs[i]? = some kv → getKey node i = .ok kv.1) (hs : Sorted kvs)
    (key : Bytes) :
    ∃ L kv R, kvs = L ++ kv :: R ∧ nodeLookupLE node key = .ok L.length
      ∧ AllLt L key ∧ AllGt key R ∧ (L = [] ∨ kv.1 ≤ key) := by
  have hkeyed : Keyed node (kvs.map Prod.fst) := by
    refine ⟨by rw [List.length_map]; exact hn, fun i k hk => ?_⟩
    rw [List.getElem?_map] at hk
    obtain ⟨kv, hkv, rfl⟩ := Option.map_eq_some_iff.mp hk
    exact hkey i kv hkv
  obtain ⟨L, kv, R, rfl, hlook, hR, hle⟩ := nodeLookupLE_at Prod.fst key hkeyed hs hne
  refine ⟨L, kv, R, rfl, hlook, fun e he => ?_, hR, hle⟩
  exact lt_of_lt_of_le (Sorted.allLt hs e he)
    (hle.resolve_left (List.ne_nil_of_mem he))

theorem look_inner (hn : nkeys node = .ok kids.length) (hne : kids ≠ [])
    (hkey : ∀ i k, kids[i]? = some k →
      ∃ sep, getKey node i = .ok sep ∧ getKey k.node 0 = .ok sep)
    (hkid : ∀ k ∈ kids, SearchNode m h k.node k.pairs)
    (hs : Sorted (kids.flatMap Kid.pairs)) (key : Bytes) :
    ∃ L k R, kids = L ++ k :: R ∧ nodeLookupLE node key = .ok L.length
      ∧ AllLt (L.flatMap Kid.pairs) key ∧ AllGt key (R.flatMap Kid.pairs)
      ∧ (L = [] ∨ k.first ≤ key) := by
  have hkeyed : Keyed node (kids.map Kid.first) := by
    refine ⟨by rw [List.length_map]; exact hn, fun i k hk => ?_⟩
    rw [List.getElem?_map] at hk
    obtain ⟨k, hat, rfl⟩ := Option.map_eq_some_iff.mp hk
    obtain ⟨sep, hsep, hkid0⟩ := hkey i k hat
    obtain ⟨-, -, -, -, hfirst⟩ := (hkid k (List.mem_of_getElem? hat)).pairs_eq
    rw [hfirst] at hkid0
    cases hkid0
    exact hsep
  obtain ⟨-, hapart⟩ := List.pairwise_flatMap.mp hs
  have hsorted : kids.Pairwise fun a b => a.first < b.first := by
    refine hapart.imp_of_mem fun {a b} ha hb hab => ?_
    obtain ⟨x, xs, hx, hxfst, -⟩ := (hkid a ha).pairs_eq
    obtain ⟨y, ys, hy, hyfst, -⟩ := (hkid b hb).pairs_eq
    rw [← hxfst, ← hyfst]
    exact hab x (by rw [hx]; exact List.mem_cons_self ..) y
      (by rw [hy]; exact List.mem_cons_self ..)
  obtain ⟨L, k, R, rfl, hlook, hR, hle⟩ := nodeLookupLE_at Kid.first key hkeyed hsorted hne
  refine ⟨L, k, R, rfl, hlook, fun e he => ?_, fun e he => ?_, hle⟩
  · -- left of the kid everything is below the kid's first key
    obtain ⟨a, ha, he⟩ := List.mem_flatMap.mp he
    obtain ⟨kv, rest, hpairs, hfst, -⟩ := (hkid k List.mem_append_cons_self).pairs_eq
    have hlt := (List.pairwise_append.mp hapart).2.2 a ha k (List.mem_cons_self ..) e he kv
      (by rw [hpairs]; exact List.mem_cons_self ..)
    rw [hfst] at hlt
    exact lt_of_lt_of_le hlt (hle.resolve_left (List.ne_nil_of_mem ha))
  · obtain ⟨b, hb, he⟩ := List.mem_flatMap.mp he
    have hmem : b ∈ L ++ k :: R := List.mem_append_right _ (List.mem_cons_of_mem _ hb)
    obtain ⟨kv, rest, hpairs, hfst, -⟩ := (hkid b hmem).pairs_eq
    have hs' : Sorted b.pairs := (List.pairwise_flatMap.mp hs).1 b hmem
    rw [hpairs] at hs' he
    refine lt_of_lt_of_le (hR b hb) ?_
    rw [← hfst]
    rcases List.mem_cons.mp he with rfl | he
    · exact le_refl _
    · exact (Sorted.allGt hs' e he).le

/-- The pairs around a kid. -/
theorem flatMap_around (L R : List Kid) (k : Kid) :
    (L ++ k :: R).flatMap Kid.pairs
      = L.flatMap Kid.pairs ++ (k.pairs ++ R.flatMap Kid.pairs) := by
  rw [List.flatMap_append, List.flatMap_cons]

theorem getElem?_around {α : Type} (L R : List α) (x : α) :
    (L ++ x :: R)[L.length]? = some x := by
  rw [List.getElem?_append_right (Nat.le_refl _), Nat.sub_self]
  rfl

theorem sorted_kid {L R : List Kid} {k : Kid}
    (hs : Sorted ((L ++ k :: R).flatMap Kid.pairs)) : Sorted k.pairs :=
  (List.pairwise_flatMap.mp hs).1 k List.mem_append_cons_self

-- ============================================================= Get

section Get

variable {σ : Type} {ops : PageOps σ} {s : σ}

/-- The descent of `Get` finds what the pairs bind the key to. -/
theorem SearchNode.getLoop (hread : ∀ p n, m p = some n → ops.getPage s p = .ok n)
    (hnode : SearchNode m h node kvs) (key : Bytes) :
    Sorted kvs → ∀ fuel, h < fuel →
      getLoop ops fuel s node key = .ok (kvs.lookup key) := by
  induction hnode with
  | leaf hty hn hne hkey hval =>
      intro hs fuel hfuel
      obtain ⟨fuel, rfl⟩ := exists_fuel hfuel
      obtain ⟨L, kv, R, rfl, hlook, hL, hR, -⟩ := look_leaf hn hne hkey hs key
      have hat := getElem?_around L R kv
      rw [Btree.getLoop, hlook, ok_bind, hty, ok_bind, if_pos rfl, hkey _ _ hat, ok_bind,
        lookup_at kv hL hR]
      by_cases heq : cmp key kv.1 = 0
      · rw [if_pos heq, hval _ _ hat, ok_bind, pure_eq_ok, if_pos (cmp_eq_zero_iff.mp heq)]
      · rw [if_neg heq, pure_eq_ok, if_neg (mt cmp_eq_zero_iff.mpr heq)]
  | inner hty hn hne hptr hkey hpage hkid ih =>
      intro hs fuel hfuel
      obtain ⟨fuel, rfl⟩ := exists_fuel hfuel
      obtain ⟨L, k, R, rfl, hlook, hL, hR, -⟩ := look_inner hn hne hkey hkid hs key
      have hmem : k ∈ L ++ k :: R := List.mem_append_cons_self
      rw [Btree.getLoop, hlook, ok_bind, hty, ok_bind, if_neg (by decide), if_pos rfl,
        hptr _ _ (getElem?_around L R k), ok_bind, hread _ _ (hpage k hmem), ok_bind,
        ih k hmem (sorted_kid hs) fuel (Nat.lt_of_succ_lt_succ hfuel), flatMap_around,
        lookup_middle hL hR]

theorem SearchTreeAt.get {tree : BTree σ} {fuel : Nat}
    (hread : ∀ p n, m p = some n → ops.getPage tree.pages p = .ok n)
    (ht : SearchTreeAt m tree.root h kvs) (key : Bytes) (hfuel : h < fuel) :
    get ops fuel tree key = .ok (kvs.lookup key) := by
  rw [Btree.get]
  cases ht with
  | empty hroot hnil =>
      rw [if_pos hroot, hnil]
      rfl
  | tree hroot node hpage hnode hs =>
      rw [if_neg hroot, hread _ _ hpage, ok_bind]
      exact hnode.getLoop hread key hs fuel hfuel

end Get

-- ================================================= the page format

/-- A kid of a stored tree. -/
def Kid.ofTree (m : Ptr → Option BNode) (k : Ptr × Tree h) : Kid :=
  ⟨k.1, (m k.1).getD [], flat h k.2⟩

theorem SearchNode.of_leaf {kvs : List (Bytes × Bytes)}
    (henc : Encodes node bnodeLeaf (entries 0 kvs)) (hne : kvs ≠ []) :
    SearchNode m h node kvs := by
  have hat : ∀ (i : Nat) (kv : Bytes × Bytes), kvs[i]? = some kv →
      (entries 0 kvs)[i]? = some ⟨0, kv.1, kv.2⟩ := by
    intro i kv hkv
    show (kvs.map _)[i]? = _
    rw [List.getElem?_map, hkv]
    rfl
  refine .leaf (Holds.btype henc) ?_ hne ?_ ?_
  · rw [henc.nkeys]
    exact congrArg Except.ok (List.length_map _)
  · exact fun i kv hkv => Holds.getKey henc (hat i kv hkv)
  · exact fun i kv hkv => Holds.getVal henc (hat i kv hkv)

theorem SearchNode.of_kids {ks : List (Ptr × Tree h)}
    (henc : Encodes node bnodeInternal (entries (h + 1) (ofKids ks))) (hne : ks ≠ [])
    (hst : Stored m (h + 1) (ofKids ks)) (hkne : ∀ k ∈ ks, entries h k.2 ≠ [])
    (hkid : ∀ k ∈ ks, ∀ buf, m k.1 = some buf → Encodes buf (nodeType h) (entries h k.2) →
      SearchNode m h buf (flat h k.2)) :
    SearchNode m (h + 1) node (flat (h + 1) (ofKids ks)) := by
  have hpage : ∀ k ∈ ks, ∃ buf, m k.1 = some buf ∧ (Kid.ofTree m k).node = buf
      ∧ Encodes buf (nodeType h) (entries h k.2) := by
    intro k hk
    obtain ⟨⟨buf, hbuf, hencb⟩, -⟩ := hst k hk
    refine ⟨buf, hbuf, ?_, hencb⟩
    rw [Kid.ofTree, hbuf]
    rfl
  have hat : ∀ (i : Nat) (c : Kid), (ks.map (Kid.ofTree m))[i]? = some c →
      ∃ k : Ptr × Tree h, ks[i]? = some k ∧ Kid.ofTree m k = c := by
    intro i c hc
    rw [List.getElem?_map] at hc
    exact Option.map_eq_some_iff.mp hc
  rw [flat_ofKids, show (fun k : Ptr × Tree h => flat h k.2)
    = fun k => (Kid.ofTree m k).pairs from rfl, ← List.flatMap_map]
  refine .inner (Holds.btype henc) ?_ (mt List.map_eq_nil_iff.mp hne) ?_ ?_ ?_ ?_
  · rw [henc.nkeys, List.length_map]
    exact congrArg Except.ok (List.length_map _)
  · intro i c hc
    obtain ⟨k, hk, rfl⟩ := hat i c hc
    exact Holds.getPtr henc (getElem?_entries hk)
  · intro i c hc
    obtain ⟨k, hk, rfl⟩ := hat i c hc
    have hmem := List.mem_of_getElem? hk
    obtain ⟨buf, -, hnode, hencb⟩ := hpage k hmem
    refine ⟨_, Holds.getKey henc (getElem?_entries hk), ?_⟩
    rw [hnode]
    exact IsPart.getKey ⟨hencb, hkne k hmem⟩
  · intro c hc
    obtain ⟨k, hk, rfl⟩ := List.mem_map.mp hc
    obtain ⟨buf, hbuf, hnode, -⟩ := hpage k hk
    rw [hnode]
    exact hbuf
  · intro c hc
    obtain ⟨k, hk, rfl⟩ := List.mem_map.mp hc
    obtain ⟨buf, hbuf, hnode, hencb⟩ := hpage k hk
    rw [hnode]
    exact hkid k hk buf hbuf hencb

/-- A stored tree whose nodes are not empty is a search tree. -/
theorem Stored.searchNode {P : List Entry → Prop} (hP : ∀ es, P es → es ≠ []) :
    ∀ {h : Nat} {t : Tree h} {node : BNode}, Encodes node (nodeType h) (entries h t) →
      entries h t ≠ [] → Stored m h t → Good P h t → SearchNode m h node (flat h t)
  | 0, _, _, henc, hne, _, _ =>
      .of_leaf henc fun hnil => hne (List.map_eq_nil_iff.mpr hnil)
  | _ + 1, _, _, henc, hne, hst, hg =>
      .of_kids henc (fun hnil => hne (List.map_eq_nil_iff.mpr hnil)) hst
        (fun k hk => hP _ (hg k hk).1)
        fun k hk _ _ hencb => Stored.searchNode hP hencb (hP _ (hg k hk).1)
          (hst k hk).2 (hg k hk).2

end Svacara.Btree
