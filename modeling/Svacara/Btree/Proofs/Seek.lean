/-
Where a seek lands, and that `Get` agrees.

`SeekLE` goes down as `Get` does and stops on a pair. With every level
the pairs left of the path are below the key or the path is the leftmost
one, and those right of it are above (`SearchNode.seekLoop`), so the pair
is the predecessor of the key in the whole tree, or the first of all.
-/
import Svacara.Btree.Proofs.SearchTree
import Svacara.Btree.Proofs.Iterator

namespace Svacara.Btree

open Outcome SortedMap

variable {σ : Type} {ops : PageOps σ} {m : Ptr → Option BNode} {h : Nat} {node : BNode}
  {kvs : List (Bytes × Bytes)}

/-- A tree in the page format is a search tree, its leaves at one depth. -/
theorem SearchTree.at {root : Ptr} {t : Tree h} (ht : SearchTree m root t) :
    SearchTreeAt m root h (flat h t) := by
  obtain ⟨⟨buf, hbuf, henc⟩, hst⟩ := ht.stored
  exact .tree ht.root_ne buf hbuf
    (Stored.searchNode (fun _ hne => hne) henc ht.ne hst ht.good) ht.sorted

/-- The pair in the middle of such a split is where a search lands. -/
theorem lands_split {s : Bytes} {A B : List (Bytes × Bytes)} {kv : Bytes × Bytes}
    (hs : Sorted (A ++ kv :: B)) (hB : AllGt s B) (hA : A = [] ∨ kv.1 ≤ s) :
    Lands s (A ++ kv :: B) kv where
  mem := List.mem_append_cons_self
  floor := by
    have hright : ∀ e ∈ kv :: B, kv.1 ≤ e.1 := by
      intro e he
      rcases List.mem_cons.mp he with rfl | he
      · exact le_refl _
      · exact (Sorted.allGt (List.pairwise_append.mp hs).2.1 e he).le
    by_cases hle : kv.1 ≤ s
    · refine Or.inl ⟨hle, fun e he hes => ?_⟩
      rcases List.mem_append.mp he with he | he
      · exact (Sorted.allLt hs e he).le
      · rcases List.mem_cons.mp he with rfl | he
        · exact le_refl _
        · exact absurd hes (not_le.mpr (hB e he))
    · obtain rfl := hA.resolve_right hle
      refine Or.inr ⟨fun e he => ?_, hright⟩
      exact lt_of_lt_of_le (not_le.mp hle) (hright e he)

/-- A path that ends on a pair is not empty. -/
theorem OnPair.ne_nil {path : List (BNode × Nat)} {kv : Bytes × Bytes}
    (hon : OnPair path kv) : path ≠ [] := by
  rintro rfl
  cases hon.key

/-- The descent of `SeekLE` ends on the pair that splits the others so. -/
theorem SearchNode.seekLoop {x : σ} (hread : ∀ p n, m p = some n → ops.getPage x p = .ok n)
    (hnode : SearchNode m h node kvs) (s : Bytes) :
    Sorted kvs → ∀ fuel, h < fuel →
      ∃ p A kv B, (∀ path, seekLoop (kidOf ops x) s fuel node path = .ok ⟨path ++ p⟩)
        ∧ OnPair p kv ∧ kvs = A ++ kv :: B ∧ AllGt s B ∧ (A = [] ∨ kv.1 ≤ s) := by
  induction hnode with
  | @leaf h node kvs hty hn hne hkey hval =>
      intro hs fuel hfuel
      obtain ⟨fuel, rfl⟩ := exists_fuel hfuel
      obtain ⟨L, kv, R, rfl, hlook, -, hR, hle⟩ := look_leaf hn hne hkey hs s
      have hat := getElem?_around L R kv
      refine ⟨[(node, L.length)], L, kv, R, fun path => ?_, ⟨?_, ?_, ?_⟩, rfl, hR, hle⟩
      · rw [Btree.seekLoop, hlook, ok_bind]
        dsimp only
        rw [hty, ok_bind, if_pos rfl]
        rfl
      · show (nkeys node >>= _) = _
        rw [hn, ok_bind]
        simp
      · exact hkey _ _ hat
      · exact hval _ _ hat
  | @inner h node kids hty hn hne hptr hkey hpage hkid ih =>
      intro hs fuel hfuel
      obtain ⟨fuel, rfl⟩ := exists_fuel hfuel
      obtain ⟨L, k, R, rfl, hlook, -, hR, hle⟩ := look_inner hn hne hkey hkid hs s
      have hmem : k ∈ L ++ k :: R := List.mem_append_cons_self
      obtain ⟨p, A, kv, B, hseek, hon, hpairs, hB, hA⟩ := ih k hmem (sorted_kid hs) fuel
        (Nat.lt_of_succ_lt_succ hfuel)
      refine ⟨(node, L.length) :: p, L.flatMap Kid.pairs ++ A, kv,
        B ++ R.flatMap Kid.pairs, fun path => ?_, hon.of_last ?_, ?_, ?_, ?_⟩
      · have hkidOf : kidOf ops x node L.length = .ok k.node := by
          rw [kidOf, hptr _ _ (getElem?_around L R k), ok_bind]
          exact hread _ _ (hpage k hmem)
        rw [Btree.seekLoop, hlook, ok_bind]
        dsimp only
        rw [hty, ok_bind, if_neg (by decide), hkidOf, ok_bind, hseek, List.append_assoc]
        rfl
      · obtain ⟨e, es, rfl⟩ := List.exists_cons_of_ne_nil hon.ne_nil
        rfl
      · rw [flatMap_around, hpairs]
        simp
      · intro e he
        rcases List.mem_append.mp he with he | he
        · exact hB e he
        · exact hR e he
      · -- with nothing left of it below the kid, the pair is the kid's first
        rcases hle with rfl | hle
        · exact hA
        · refine Or.inr (hA.elim (fun hnil => ?_) id)
          obtain ⟨kv', rest, hpairs', hfst, -⟩ := (hkid k hmem).pairs_eq
          rw [hpairs', hnil] at hpairs
          cases hpairs
          rw [hfst]
          exact hle

/-- In a search tree that is not empty a seek ends on the pair with the
greatest key that is not above `s`, or with the smallest key if there is
none, and `Get` returns a value exactly if the key of that pair is `s`,
and then the value of the pair. -/
theorem seekLE_lands {tree : BTree σ} {fuel : Nat}
    (hread : ∀ p n, m p = some n → ops.getPage tree.pages p = .ok n)
    (ht : SearchTreeAt m tree.root h kvs) (hne : kvs ≠ []) (s : Bytes) (hfuel : h < fuel) :
    ∃ iter kv, seekLE ops (kidOf ops) fuel tree s = .ok iter
      ∧ iter.valid = .ok true ∧ iter.key = .ok kv.1 ∧ iter.val = .ok kv.2
      ∧ Lands s kvs kv
      ∧ ∃ found, get ops fuel tree s = .ok found
        ∧ ∀ v, found = some v ↔ kv.1 = s ∧ kv.2 = v := by
  have hget := ht.get hread s hfuel
  cases ht with
  | empty hroot hnil => exact absurd hnil hne
  | tree hroot node hpage hnode hs =>
      obtain ⟨p, A, kv, B, hseek, hon, rfl, hB, hA⟩ := hnode.seekLoop hread s hs fuel hfuel
      refine ⟨⟨p⟩, kv, ?_, hon.valid, hon.key, hon.val, lands_split hs hB hA, _, hget,
        fun v => ?_⟩
      · rw [seekLE, if_neg hroot, hread _ _ hpage, ok_bind, hseek]
        rfl
      · have hbelow : AllLt A s := fun e he =>
          lt_of_lt_of_le (Sorted.allLt hs e he) (hA.resolve_left (List.ne_nil_of_mem he))
        rw [lookup_at kv hbelow hB]
        by_cases hk : s = kv.1
        · rw [if_pos hk, Option.some_inj]
          exact ⟨fun hv => ⟨hk.symm, hv⟩, fun hv => hv.2⟩
        · rw [if_neg hk]
          exact ⟨fun hv => absurd hv.symm (Option.some_ne_none v),
            fun hv => absurd hv.1.symm hk⟩

/-- In the tree of three levels a seek for the empty key, which is below
all keys, ends on the first pair. -/
theorem seekLE_lands_five : ∃ tree iter, [0, 1, 2, 3, 4].foldlM
      (fun tree i => insert memOps 3 tree (bigRow i).1 (bigRow i).2) ⟨0, .empty⟩ = .ok tree
    ∧ seekLE memOps (kidOf memOps) 3 tree [] = .ok iter ∧ iter.key = .ok (bigRow 0).1
    ∧ get memOps 3 tree [] = .ok none := by
  obtain ⟨tree, hrun, -, F, hshape⟩ := five_rows
  obtain ⟨t, hstrip, ht⟩ := hshape.searchTree
  have hflat : flat 2 t = [bigRow 0, bigRow 1, bigRow 2, bigRow 3, bigRow 4] := by
    rw [← flat_strip, hstrip, flat_five]
  have hat := ht.at
  rw [hflat] at hat
  obtain ⟨iter, kv, hseek, -, hkey, -, hlands, found, hget, hfound⟩ := seekLE_lands
    (memOps_lawful.getPage _) hat (List.cons_ne_nil _ _) [] (show 2 < 3 by decide)
  obtain ⟨i, rfl⟩ : ∃ i, kv = bigRow i := by
    obtain ⟨i, -, hi⟩ := List.mem_map.mp
      (show kv ∈ ([0, 1, 2, 3, 4] : List UInt8).map bigRow from hlands.mem)
    exact ⟨i, hi.symm⟩
  have hlow : ¬ (bigRow i).1 ≤ [] := not_le.mpr List.Lex.nil
  obtain ⟨-, hmin⟩ := hlands.floor.resolve_left fun hle => hlow hle.1
  have hzero : i = 0 := by
    by_contra hne
    exact not_lt.mpr (hmin _ (List.mem_cons_self ..))
      (bigRow_lt (UInt8.pos_iff_ne_zero.mpr hne))
  rw [hzero] at hkey
  refine ⟨tree, iter, hrun, hseek, hkey, ?_⟩
  cases found with
  | none => exact hget
  | some v => exact absurd (le_of_eq ((hfound v).mp rfl).1) hlow

end Svacara.Btree
