/-
Deleting a key that is not there.

`treeDelete` looks for the key on the way down and touches the store on
the way up, and only if a leaf had the key (`SearchNode.treeDelete`). So
`Delete` returns false exactly if the key is absent, and then it has
called neither `NewPage` nor `DelPage`; the log of `logged` says so.
-/
import Svacara.Btree.Delete
import Svacara.Btree.Pages
import Svacara.Btree.Proofs.SearchTree
import Svacara.Btree.Proofs.Seek

namespace Svacara.Btree

open Outcome SortedMap

variable {σ : Type} {ops : PageOps σ} {m : Ptr → Option BNode} {h : Nat} {node : BNode}
  {kvs : List (Bytes × Bytes)} {s : σ}

/-- What `treeDelete` answers at a leaf. -/
theorem treeDelete_at_leaf (hty : btype node = .ok bnodeLeaf)
    (hn : nkeys node = .ok kvs.length) (hne : kvs ≠ [])
    (hkey : ∀ i kv, kvs[i]? = some kv → getKey node i = .ok kv.1) (hs : Sorted kvs)
    (key : Bytes) (fuel : Nat) :
    (kvs.lookup key = none → treeDelete ops (fuel + 1) s node key = .ok (none, s))
      ∧ (kvs.lookup key ≠ none → ∀ s', treeDelete ops (fuel + 1) s node key ≠ .ok (none, s')) := by
  obtain ⟨L, kv, R, rfl, hlook, hL, hR, -⟩ := look_leaf hn hne hkey hs key
  rw [lookup_at kv hL hR, treeDelete, hlook, ok_bind, hty, ok_bind, if_pos rfl,
    hkey _ _ (getElem?_around L R kv), ok_bind]
  by_cases heq : cmp key kv.1 = 0
  · rw [if_pos (cmp_eq_zero_iff.mp heq), if_neg (not_not.mpr heq)]
    refine ⟨fun hnone => absurd hnone (Option.some_ne_none kv.2), fun _ s' hdel => ?_⟩
    -- from here on the answer is a node
    obtain ⟨_, -, hdel⟩ := bind_eq_ok.mp hdel
    obtain ⟨_, -, hdel⟩ := bind_eq_ok.mp hdel
    obtain ⟨_, -, hdel⟩ := bind_eq_ok.mp hdel
    obtain ⟨_, -, hdel⟩ := bind_eq_ok.mp hdel
    cases hdel
  · rw [if_neg (mt cmp_eq_zero_iff.mpr heq), if_pos heq]
    exact ⟨fun _ => rfl, fun habs => absurd rfl habs⟩

/-- `treeDelete` answers "not found" exactly if no pair has the key, and
has then changed nothing. -/
theorem SearchNode.treeDelete (hread : ∀ p n, m p = some n → ops.getPage s p = .ok n)
    (hnode : SearchNode m h node kvs) (key : Bytes) :
    Sorted kvs → ∀ fuel, h < fuel →
      (kvs.lookup key = none → treeDelete ops fuel s node key = .ok (none, s))
        ∧ (kvs.lookup key ≠ none → ∀ s', treeDelete ops fuel s node key ≠ .ok (none, s')) := by
  induction hnode with
  | leaf hty hn hne hkey hval =>
      intro hs fuel hfuel
      obtain ⟨fuel, rfl⟩ := exists_fuel hfuel
      exact treeDelete_at_leaf hty hn hne hkey hs key fuel
  | inner hty hn hne hptr hkey hpage hkid ih =>
      intro hs fuel hfuel
      obtain ⟨fuel, rfl⟩ := exists_fuel hfuel
      obtain ⟨L, k, R, rfl, hlook, hL, hR, -⟩ := look_inner hn hne hkey hkid hs key
      have hmem : k ∈ L ++ k :: R := List.mem_append_cons_self
      obtain ⟨habsent, hpresent⟩ := ih k hmem (sorted_kid hs) fuel
        (Nat.lt_of_succ_lt_succ hfuel)
      rw [flatMap_around, lookup_middle hL hR, Btree.treeDelete, hlook, ok_bind, hty, ok_bind,
        if_neg (by decide), if_pos rfl, hptr _ _ (getElem?_around L R k), ok_bind,
        hread _ _ (hpage k hmem), ok_bind]
      refine ⟨fun hnone => ?_, fun hsome s' hdel => ?_⟩
      · rw [habsent hnone, ok_bind]
        rfl
      · obtain ⟨⟨found, s₁⟩, hsub, hdel⟩ := bind_eq_ok.mp hdel
        cases found with
        | none => exact hpresent hsome s₁ hsub
        | some updated =>
            obtain ⟨_, -, hdel⟩ := bind_eq_ok.mp hdel
            obtain ⟨_, -, hdel⟩ := bind_eq_ok.mp hdel
            cases hdel

/-- `Delete` on any store: false for the keys that are not there, with
the tree and the store as they were. -/
theorem SearchTreeAt.delete (ops : PageOps σ) (tree : BTree σ) {fuel : Nat}
    (hread : ∀ p n, m p = some n → ops.getPage tree.pages p = .ok n)
    (ht : SearchTreeAt m tree.root h kvs) (key : Bytes) (hfuel : h < fuel) :
    (kvs.lookup key = none → delete ops fuel tree key = .ok (false, tree))
      ∧ (kvs.lookup key ≠ none → ∀ tree', delete ops fuel tree key ≠ .ok (false, tree')) := by
  rw [Btree.delete]
  cases ht with
  | empty hroot hnil =>
      rw [if_pos hroot, hnil]
      exact ⟨fun _ => rfl, fun habs => absurd rfl habs⟩
  | tree hroot node hpage hnode hs =>
      obtain ⟨habsent, hpresent⟩ := hnode.treeDelete hread key hs fuel hfuel
      rw [if_neg hroot, hread _ _ hpage, ok_bind]
      refine ⟨fun hnone => ?_, fun hsome tree' hdel => ?_⟩
      · rw [habsent hnone, ok_bind]
        rfl
      · obtain ⟨⟨found, s₁⟩, hsub, hdel⟩ := bind_eq_ok.mp hdel
        cases found with
        | none => exact hpresent hsome s₁ hsub
        | some updated =>
            obtain ⟨_, -, hdel⟩ := bind_eq_ok.mp hdel
            obtain ⟨n, -, hdel⟩ := bind_eq_ok.mp hdel
            by_cases hn : n = 0
            · rw [if_pos hn] at hdel
              cases hdel
            · rw [if_neg hn] at hdel
              obtain ⟨_, -, hdel⟩ := bind_eq_ok.mp hdel
              cases hdel

/-- `Delete` returns false exactly if the key is absent from the search
tree, and then the root is unchanged and neither `NewPage` nor `DelPage`
has been called. -/
theorem delete_absent_iff {root : Ptr} {fuel : Nat}
    (hread : ∀ p n, m p = some n → ops.getPage s p = .ok n)
    (ht : SearchTreeAt m root h kvs) (key : Bytes) (hfuel : h < fuel) :
    ((∃ tree, delete (logged ops) fuel ⟨root, (s, [])⟩ key = .ok (false, tree))
        ↔ ∀ kv ∈ kvs, kv.1 ≠ key)
      ∧ ∀ tree, delete (logged ops) fuel ⟨root, (s, [])⟩ key = .ok (false, tree) →
        tree.root = root ∧ tree.pages = (s, []) := by
  obtain ⟨habsent, hpresent⟩ := SearchTreeAt.delete (logged ops) ⟨root, (s, [])⟩
    hread ht key hfuel
  have hnone : (∀ kv ∈ kvs, kv.1 ≠ key) ↔ kvs.lookup key = none := by
    rw [List.lookup_eq_none_iff]
    refine forall₂_congr fun kv _ => ⟨fun hk => ?_, fun hk => ?_⟩
    · simpa using hk.symm
    · have hne : key ≠ kv.1 := by simpa using hk
      exact hne.symm
  rw [hnone]
  refine ⟨⟨fun ⟨tree, hdel⟩ => ?_, fun hk => ⟨_, habsent hk⟩⟩, fun tree hdel => ?_⟩
  · by_contra hk
    exact hpresent hk tree hdel
  · by_cases hk : kvs.lookup key = none
    · rw [habsent hk] at hdel
      cases hdel
      exact ⟨rfl, rfl⟩
    · exact absurd hdel (hpresent hk tree)

/-- In the tree of three levels the empty key is not found. -/
theorem delete_absent_five : ∃ tree, [0, 1, 2, 3, 4].foldlM
      (fun tree i => insert memOps 3 tree (bigRow i).1 (bigRow i).2) ⟨0, .empty⟩ = .ok tree
    ∧ ∃ tree', delete (logged memOps) 3 ⟨tree.root, (tree.pages, [])⟩ [] = .ok (false, tree')
      ∧ tree'.root = tree.root ∧ tree'.pages = (tree.pages, []) := by
  obtain ⟨tree, hrun, -, F, hshape⟩ := five_rows
  obtain ⟨t, hstrip, ht⟩ := hshape.searchTree
  have hflat : flat 2 t = ([0, 1, 2, 3, 4] : List UInt8).map bigRow := by
    rw [← flat_strip, hstrip, flat_five]
    rfl
  have hat := ht.at
  rw [hflat] at hat
  obtain ⟨hiff, hsame⟩ := delete_absent_iff (memOps_lawful.getPage _) hat []
    (show 2 < 3 by decide)
  obtain ⟨tree', hdel⟩ := hiff.mpr fun kv hkv => by
    obtain ⟨i, -, rfl⟩ := List.mem_map.mp hkv
    exact List.cons_ne_nil _ _
  exact ⟨tree, hrun, tree', hdel, hsame tree' hdel⟩

end Svacara.Btree
