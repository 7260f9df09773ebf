/-
What an iteration visits.

The loop over a tree from `s` comes by the pairs from the greatest key
not above `s` on exactly if the tree is thin above `s`
(`iterates_iff`): the seek ends on that pair with a path that is clear
if and only if the tree is thin (`seekLoop_cursor`), and from a path the
loop comes by the rest exactly if it is clear (`drain_iff`).

Five insertions are enough for a tree that is not: with keys of 1000
bytes a parent has room for four leaves, and the fifth makes it split in
two with a root above them.
-/
import Svacara.Btree.Proofs.Cursor
import Svacara.Btree.Proofs.Shape
import Svacara.Btree.Proofs.Grow
import Svacara.Btree.Proofs.Room

namespace Svacara.Btree

open Outcome SortedMap

variable {s : Bytes} {h : Nat} {t : Tree h} {path : List (BNode × Nat)}
  {kv : Bytes × Bytes} {tl : List (Bytes × Bytes)} {clear : Prop}

-- ======================================================== the tree

/-- A non-empty search tree at the root `root`: no node is empty, each
entry of an internal node carries the first key of its kid, the keys
increase from left to right. That the leaves are at one depth is in the
type of `t`. -/
structure SearchTree (m : Ptr → Option BNode) (root : Ptr) {h : Nat} (t : Tree h) :
    Prop where
  root_ne : root ≠ 0
  stored : StoredAt m root t
  good : Good (· ≠ []) h t
  ne : entries h t ≠ []
  sorted : Sorted (flat h t)

/-- The loop over the tree from `s` comes by the pairs `l`, and no
pointer of a leaf is followed on the way. -/
def Iterates {σ : Type} (ops : PageOps σ) (fuel : Nat) (tree : BTree σ) (s : Bytes)
    (l : List (Bytes × Bytes)) : Prop :=
  scan ops (kidOf ops) fuel tree s = .ok l
    ∧ scan ops (innerKidOf ops) fuel tree s = .ok l

-- =============================================== a whole iteration

section Drain

variable {σ : Type} {kid : σ → BNode → Nat → Except Fault BNode}
  {m : Ptr → Option BNode} {fuel rounds : Nat} {x : σ}

theorem drain_pair {iter : BIter} (hon : OnPair path kv)
    (hnext : BIter.next (kid x) fuel ⟨path⟩ = .ok iter) :
    drain kid fuel x (rounds + 1) ⟨path⟩
      = (do let rest ← drain kid fuel x rounds iter; return kv :: rest) := by
  rw [drain, hon.valid]
  simp only [ok_bind, if_true, hon.key, hon.val, hnext]

/-- A loop that starts on a pair and returns has that pair first. -/
theorem head_of_drain (hon : OnPair path kv) {l : List (Bytes × Bytes)}
    (h : drain kid fuel x rounds ⟨path⟩ = .ok l) : l.head? = some kv := by
  cases rounds with
  | zero => cases h
  | succ rounds =>
      rw [drain, hon.valid, ok_bind, if_pos rfl, hon.key, ok_bind, hon.val, ok_bind] at h
      obtain ⟨iter, -, h⟩ := bind_eq_ok.mp h
      obtain ⟨rest, -, h⟩ := bind_eq_ok.mp h
      cases h
      rfl

/-- From a pair of the tree the loop comes by exactly the pairs still to
come if and only if the way is clear. The induction is on those pairs. -/
theorem drain_iff (hreads : Reads (kid x) m) (hst : Stored m h t)
    (hg : Good (· ≠ []) h t) (hfuel : h < fuel) :
    ∀ (tl : List (Bytes × Bytes)) (kv : Bytes × Bytes) (path : List (BNode × Nat))
      (clear : Prop) (rounds : Nat), Cursor s h t path kv tl clear →
      Sorted (kv :: tl) → tl.length + 1 < rounds →
      (drain kid fuel x rounds ⟨path⟩ = .ok (kv :: tl) ↔ clear) := by
  intro tl
  induction tl with
  | nil =>
      intro kv path clear rounds hcur _ hrounds
      obtain ⟨rounds, rfl⟩ : ∃ n, rounds = n + 1 + 1 := Nat.exists_eq_add_of_le' hrounds
      obtain ⟨hclear, hex⟩ := hcur.last hg rfl
      rw [drain_pair hcur.onPair (next_end hcur.path_ne hex)]
      exact ⟨fun _ => hclear, fun _ => rfl⟩
  | cons kv' tl ih =>
      intro kv path clear rounds hcur hs hrounds
      obtain ⟨rounds, rfl⟩ := exists_fuel hrounds
      obtain ⟨hlt, hs'⟩ := List.pairwise_cons.mp hs
      rcases hcur.step hreads hst hg hfuel kv' tl rfl with
        ⟨path', clear', hmove, hcur', hclear⟩ | ⟨hnot, path', hmove, hlast⟩
      · rw [drain_pair hcur.onPair hmove.next, hclear,
          ← ih kv' path' clear' rounds hcur' hs' (Nat.lt_of_succ_lt_succ hrounds)]
        constructor
        · intro h
          obtain ⟨rest, hrest, h⟩ := bind_eq_ok.mp h
          cases h
          exact hrest
        · intro h
          rw [h]
          rfl
      · -- the step stayed on `kv`, which is below `kv'`
        rw [drain_pair hcur.onPair hmove.next]
        refine ⟨fun h => ?_, fun h => absurd h hnot⟩
        obtain ⟨rest, hrest, h⟩ := bind_eq_ok.mp h
        cases h
        have hhead := head_of_drain (hcur.onPair.of_last hlast) hrest
        cases hhead
        exact absurd (hlt kv' (List.mem_cons_self ..)) (lt_irrefl _)

end Drain

section Seek

variable {kid : BNode → Nat → Except Fault BNode} {m : Ptr → Option BNode}

/-- The seek ends on the pair the map's search lands on, and the way from
there is clear if the tree is thin above the key. The induction is on
the height. -/
theorem seekLoop_cursor (hreads : Reads kid m) :
    ∀ (h fuel : Nat) (t : Tree h) (node : BNode), h < fuel →
      Encodes node (nodeType h) (entries h t) → entries h t ≠ [] → Stored m h t →
      Good (· ≠ []) h t → Sorted (flat h t) →
      ∃ path A kv tl clear, (∀ p, seekLoop kid s fuel node p = .ok ⟨p ++ path⟩)
        ∧ Cursor s h t path kv tl clear ∧ flat h t = A ++ kv :: tl ∧ AllGt s tl
        ∧ (A = [] ∨ kv.1 ≤ s) ∧ (clear ↔ Thin s h t) := by
  intro h
  induction h with
  | zero =>
      intro fuel t node hfuel henc hne _ _ hs
      obtain ⟨fuel, rfl⟩ := exists_fuel hfuel
      obtain ⟨L, kv, R, rfl, hlook, -, hR, hle⟩ := lookup_leaf s henc hs
        fun hnil => hne (by rw [show t = [] from hnil]; rfl)
      refine ⟨[(node, L.length)], L, kv, R, True, fun p => ?_, .leaf henc, rfl, hR, hle,
        Iff.rfl⟩
      have hty : btype node = .ok bnodeLeaf := Holds.btype henc
      rw [seekLoop, hlook, ok_bind]
      dsimp only
      rw [hty, ok_bind, if_pos rfl, pure_eq_ok]
  | succ h ih =>
      intro fuel t node hfuel henc hne hst hg hs
      obtain ⟨fuel, rfl⟩ := exists_fuel hfuel
      obtain ⟨L, k, R, rfl, hlook, hR, hle⟩ := lookup_kids_le (fun _ h => h) s henc hg hs
        fun hnil => hne (by rw [show t = ofKids [] from hnil]; rfl)
      have hmem : k ∈ L ++ k :: R := List.mem_append_cons_self
      have hL := allLt_left (fun _ h => h) hg hs hle
      obtain ⟨⟨child, hchild, hencc⟩, hstk⟩ := hst k hmem
      obtain ⟨hnek, hgk⟩ := hg k hmem
      obtain ⟨path, A, kv, tl, clear, hseek, hcur, hflat, habove, hA, hclear⟩ := ih fuel k.2
        child (Nat.lt_of_succ_lt_succ hfuel) hencc hnek hstk hgk (Sorted.flat_kid hs hmem)
      refine ⟨(node, L.length) :: ([] ++ path), flat (h + 1) (ofKids L) ++ A, kv,
        tl ++ flat (h + 1) (ofKids R), _, fun p => ?_, .node henc no_stale hR hcur, ?_, ?_,
        ?_, ?_⟩
      · have hty : btype node = .ok bnodeInternal := Holds.btype henc
        rw [seekLoop, hlook, ok_bind]
        dsimp only
        rw [hty, ok_bind, if_neg (by decide),
          hreads h node child L R k henc hchild, ok_bind, hseek, List.append_assoc]
        rfl
      · rw [flat_around, hflat]
        simp
      · intro e he
        rcases List.mem_append.mp he with he | he
        · exact habove e he
        · exact hR e he
      · -- with nothing before it below the kid, the pair is the kid's first
        rcases hle with rfl | hle
        · exact hA
        · refine Or.inr (hA.elim (fun hnil => ?_) id)
          obtain ⟨kv₁, rest, hflat₁, hkey⟩ := firstKey_eq (fun _ h => h) hgk hnek
          rw [hflat, hnil] at hflat₁
          cases hflat₁
          rwa [← hkey]
      · rw [thin_around hg hL hle hR, ← hclear]
        simp

end Seek

-- ========================================= a tree that is not thin

theorem Good.mono {P Q : List Entry → Prop} (hPQ : ∀ es, P es → Q es) :
    ∀ {h : Nat} {t : Tree h}, Good P h t → Good Q h t
  | 0, _, _ => trivial
  | _ + 1, _, hg => fun k hk => ⟨hPQ _ (hg k hk).1, (hg k hk).2.mono hPQ⟩

/-- A tree of a given shape is a search tree. -/
theorem HasShape.searchTree {F m : Ptr → Option BNode} {root : Ptr} {b : Tree h}
    (hs : HasShape F m root h b) : ∃ t, strip h t = b ∧ SearchTree m root t := by
  obtain ⟨hroot, t, hstrip, hsub⟩ := hs
  have hmem : (root, t) ∈ [(root, t)] := List.mem_singleton.mpr rfl
  obtain ⟨hpage, hg⟩ := hsub.good _ hmem
  refine ⟨t, hstrip, hroot, hsub.stored _ hmem, hg.mono fun _ => rowPage_ne, hpage.1, ?_⟩
  rw [← flat_single root t]
  exact hsub.sorted

/-- A pair with a key of 1000 bytes, of which a leaf has room for one. -/
def bigRow (i : UInt8) : Bytes × Bytes := (i :: make 999, make 1033)

@[simp] theorem pairSize_bigRow (i : UInt8) : pairSize (bigRow i) = 2047 := by
  simp [pairSize, bigRow]

theorem bigRow_lt {i j : UInt8} (hij : i < j) : (bigRow i).1 < (bigRow j).1 :=
  List.Lex.rel hij

/-- A leaf with one such pair. -/
def bigLeaf (i : UInt8) : Tree 0 := [bigRow i]

def bigKid (i : UInt8) : Ptr × Tree 0 := (0, bigLeaf i)

/-- Such leaves side by side. -/
def comb (is : List UInt8) : Tree 1 := ofKids (is.map bigKid)

theorem entries_comb (is : List UInt8) :
    entries 1 (comb is) = is.map fun i => ⟨0, (bigRow i).1, []⟩ := by
  unfold comb
  rw [entries_ofKids, List.map_map]
  rfl

theorem kvSize_comb (is : List UInt8) : kvSize (entries 1 (comb is)) = 1004 * is.length := by
  rw [entries_comb]
  induction is with
  | nil => rfl
  | cons i is ih =>
      rw [List.map_cons, kvSize_cons, ih, Entry.size, List.length_cons]
      simp only [bigRow, List.length_cons, length_make, List.length_nil]
      omega

theorem nodeSize_comb (is : List UInt8) :
    nodeSize (entries 1 (comb is)) = header + 1014 * is.length := by
  rw [nodeSize, kvSize_comb, entries_comb, List.length_map]
  omega

theorem rowPage_comb {is : List UInt8} (hne : is ≠ []) (hlen : is.length ≤ 4) :
    RowPage (entries 1 (comb is)) := by
  refine ⟨?_, ?_⟩
  · rw [entries_comb]
    exact mt List.map_eq_nil_iff.mp hne
  · rw [nodeSize_comb, header, btreePageSize]
    omega

theorem nodeSize_pair (i j : UInt8) :
    nodeSize (entries 0 (append 0 (bigLeaf i) (bigLeaf j))) = 4098 := by
  have h := nodeSize_pairs [bigRow i, bigRow j]
  simp only [List.map_cons, List.map_nil, List.sum_cons, List.sum_nil, pairSize_bigRow] at h
  exact h

theorem rowPage_bigLeaf (i : UInt8) : RowPage (entries 0 (bigLeaf i)) := by
  refine ⟨List.cons_ne_nil _ _, ?_⟩
  have h := nodeSize_pairs [bigRow i]
  simp only [List.map_cons, List.map_nil, List.sum_cons, List.sum_nil, pairSize_bigRow] at h
  exact Nat.le_trans (Nat.le_of_eq h) (by decide)

/-- A leaf with two such pairs is cut between them. -/
theorem splits_pair (i j : UInt8) :
    Splits 0 (append 0 (bigLeaf i) (bigLeaf j)) [bigLeaf i, bigLeaf j] := by
  refine .cut ?_ ?_ (rowPage_bigLeaf i) (rowPage_bigLeaf j)
  · rw [nodeSize_pair]
    decide
  · rw [nodeSize_pair]
    refine ⟨Nat.one_pos, by simp [entries, append, bigLeaf], Or.inl rfl, fun e he => ?_⟩
    have he' : (⟨0, (bigRow j).1, (bigRow j).2⟩ : Entry) = e := Option.some.inj he
    have hone : kvSize ((entries 0 (append 0 (bigLeaf i) (bigLeaf j))).take
        (entries 0 (bigLeaf i)).length) = (bigRow i).1.length + (bigRow i).2.length + 4 := by
      show kvSize [⟨0, (bigRow i).1, (bigRow i).2⟩] = _
      rw [kvSize_cons, kvSize_nil, Entry.size]
      simp only
      omega
    rw [hone, ← he', Entry.size]
    simp [bigRow]

/-- A further pair makes its leaf hold two. -/
theorem grows_pair {i j : UInt8} (hij : i < j) :
    Grows (bigRow j).1 (bigRow j).2 0 (bigLeaf i) (append 0 (bigLeaf i) (bigLeaf j)) := by
  have hins : ins (bigRow j).1 (bigRow j).2 (bigLeaf i)
      = append 0 (bigLeaf i) (bigLeaf j) := by
    refine ins_end fun e he => ?_
    rw [List.mem_singleton.mp he]
    exact bigRow_lt hij
  rw [← hins]
  refine .leaf ?_
  rw [hins, nodeSize_pair]
  decide

/-- A further pair lengthens the comb. -/
theorem grows_comb {is : List UInt8} {i j : UInt8} (hij : i < j) (hlen : is.length ≤ 5) :
    Grows (bigRow j).1 (bigRow j).2 1 (comb (is ++ [i])) (comb (is ++ [i, j])) := by
  have hlong : comb (is ++ [i, j])
      = ofKids (is.map bigKid ++ ([bigLeaf i, bigLeaf j].map (Prod.mk 0) ++ [])) := by
    unfold comb
    rw [List.map_append]
    rfl
  have hshort : comb (is ++ [i]) = ofKids (is.map bigKid ++ bigKid i :: []) := by
    unfold comb
    rw [List.map_append]
    rfl
  have hsize := nodeSize_comb (is ++ [i, j])
  rw [hlong] at hsize ⊢
  rw [hshort]
  refine .node (fun _ he => absurd he List.not_mem_nil) (Or.inr (bigRow_lt hij).le)
    (grows_pair hij) (splits_pair i j) (Nat.le_trans (Nat.le_of_eq hsize) ?_)
  simp only [List.length_append, List.length_cons, List.length_nil, header, btreePageSize]
  omega

/-- Five leaves are more than one parent has room for. -/
theorem splits_comb : Splits 1 (comb [0, 1, 2, 3, 4]) [comb [0, 1], comb [2, 3, 4]] := by
  have hsize := nodeSize_comb [0, 1, 2, 3, 4]
  have htwo : kvSize ((entries 1 (comb [0, 1, 2, 3, 4])).take 2) = 2008 := by
    rw [entries_comb, ← List.map_take]
    have h := kvSize_comb [0, 1]
    rw [entries_comb] at h
    exact h
  have happ : append 1 (comb [0, 1]) (comb [2, 3, 4]) = comb [0, 1, 2, 3, 4] := rfl
  have hlen : (entries 1 (comb [0, 1])).length = 2 := by
    rw [entries_comb, List.length_map]
    rfl
  rw [← happ] at hsize htwo ⊢
  refine .cut (by rw [hsize]; decide) ?_ (rowPage_comb (List.cons_ne_nil _ _) (by decide))
    (rowPage_comb (List.cons_ne_nil _ _) (by decide))
  rw [hsize, hlen]
  refine ⟨by decide, ?_, Or.inr ?_, fun e he => ?_⟩
  · rw [happ, entries_comb, List.length_map]
    decide
  · rw [htwo]
    decide
  · have hmem := List.mem_of_getElem? he
    rw [happ, entries_comb] at hmem
    obtain ⟨i, -, rfl⟩ := List.mem_map.mp hmem
    rw [htwo, Entry.size]
    simp [bigRow, header]

/-- A root has room for two kids with such keys. -/
theorem rooted_two {u v : Tree h} {i j : UInt8}
    (hu : firstKey (entries h u) = (bigRow i).1) (hv : firstKey (entries h v) = (bigRow j).1) :
    Rooted h [u, v] (h + 1) (ofKids [(0, u), (0, v)]) := by
  refine .two ?_
  simp [kidsSize, hu, hv, bigRow, header, btreePageSize]

/-- A tree in memory with addresses left. -/
structure Shaped (tree : BTree MemStore) (n : Nat) (h : Nat) (b : Tree h) : Prop where
  room : tree.pages.next ≤ n
  shape : ∃ F, HasShape F tree.pages.pages tree.root h b

/-- One insertion of such a pair. -/
theorem Shaped.insert {tree : BTree MemStore} {n h' : Nat} {b b' : Tree h}
    {bs : List (Tree h)} {c : Tree h'} {i : UInt8} (ht : Shaped tree n h b)
    (hn : n + 13 ≤ 2 ^ 64) (hh : h < 3)
    (hgrow : Grows (bigRow i).1 (bigRow i).2 h b b') (hsplit : Splits h b' bs)
    (hroot : Rooted h bs h' c) :
    ∃ tree', insert memOps 3 tree (bigRow i).1 (bigRow i).2 = .ok tree'
      ∧ Shaped tree' (n + 13) h' c := by
  obtain ⟨hroom, F, hshape⟩ := ht
  obtain ⟨tree', heq, hshape', hnext⟩ := memOps_numbered.returns (insert_calls ..) (by omega)
    ((insert_grows memOps_lawful hh hgrow hsplit hroot hshape).mono fun _ h => h.1)
  exact ⟨tree', heq, by omega, F, hshape'⟩

/-- Two insertions into an empty tree in memory make two leaves. -/
theorem two_rows : ∃ tree, [0, 1].foldlM
      (fun tree i => insert memOps 3 tree (bigRow i).1 (bigRow i).2) ⟨0, .empty⟩ = .ok tree
    ∧ Shaped tree 27 1 (comb [0, 1]) := by
  have hfirst : header + pairSize ((bigRow 0).1, (bigRow 0).2) ≤ btreePageSize := by
    rw [Prod.mk.eta, pairSize_bigRow]
    decide
  obtain ⟨t₀, h₀, hs₀, hn₀⟩ := memOps_numbered.returns (insert_calls ..) (by decide)
    (insert_first memOps_lawful .empty 3 (bigRow 0).1 (bigRow 0).2 hfirst)
  have ht₀ : Shaped t₀ 14 0 (bigLeaf 0) := ⟨hn₀, _, hs₀⟩
  obtain ⟨t₁, h₁, ht₁⟩ := ht₀.insert (i := 1) (by decide) (by decide) (grows_pair (by decide))
    (splits_pair 0 1) (rooted_two (i := 0) (j := 1) rfl rfl)
  refine ⟨t₁, ?_, ht₁⟩
  simp only [List.foldlM_cons, List.foldlM_nil, h₀, h₁, ok_bind, pure_eq_ok]

/-- Three more make three levels. -/
theorem five_rows : ∃ tree, [0, 1, 2, 3, 4].foldlM
      (fun tree i => insert memOps 3 tree (bigRow i).1 (bigRow i).2) ⟨0, .empty⟩ = .ok tree
    ∧ Shaped tree 66 2 (ofKids [(0, comb [0, 1]), (0, comb [2, 3, 4])]) := by
  obtain ⟨t₁, h₁, ht₁⟩ := two_rows
  obtain ⟨t₂, h₂, ht₂⟩ := Shaped.insert (b := comb ([0] ++ [1])) (i := 2) ht₁ (by decide)
    (by decide) (grows_comb (by decide) (by decide))
    (.fits (rowPage_comb (List.cons_ne_nil _ _) (by decide)).2) .one
  obtain ⟨t₃, h₃, ht₃⟩ := Shaped.insert (b := comb ([0, 1] ++ [2])) (i := 3) ht₂ (by decide)
    (by decide) (grows_comb (by decide) (by decide))
    (.fits (rowPage_comb (List.cons_ne_nil _ _) (by decide)).2) .one
  obtain ⟨t₄, h₄, ht₄⟩ := Shaped.insert (b := comb ([0, 1, 2] ++ [3])) (i := 4) ht₃ (by decide)
    (by decide) (grows_comb (by decide) (by decide)) splits_comb
    (rooted_two (i := 0) (j := 2) rfl rfl)
  refine ⟨t₄, ?_, ht₄⟩
  have hlist : ([0, 1, 2, 3, 4] : List UInt8) = [0, 1] ++ [2, 3, 4] := rfl
  rw [hlist, List.foldlM_append, h₁, ok_bind]
  simp only [List.foldlM_cons, List.foldlM_nil, h₂, h₃, h₄, ok_bind, pure_eq_ok]

/-- The pairs of that tree. -/
theorem flat_five : flat 2 (ofKids [(0, comb [0, 1]), (0, comb [2, 3, 4])])
    = [bigRow 0, bigRow 1, bigRow 2, bigRow 3, bigRow 4] := rfl

/-- Its second parent of leaves has three kids. -/
theorem not_thin_five {t : Tree 2}
    (hstrip : strip 2 t = ofKids [(0, comb [0, 1]), (0, comb [2, 3, 4])]) :
    ¬ Thin [] 2 t := by
  obtain ⟨k, ks, rfl, -, hks⟩ := List.map_eq_cons_iff.mp hstrip
  obtain ⟨k', rfl, hk'⟩ := List.map_eq_singleton_iff.mp hks
  have hcomb : strip 1 k'.2 = comb [2, 3, 4] := congrArg Prod.snd hk'
  have hentries : (entries 1 k'.2).map Entry.bare
      = [2, 3, 4].map fun i => ⟨0, (bigRow i).1, []⟩ := by
    rw [← entries_strip, hcomb, entries_comb]
  intro ⟨_, htail⟩
  have hone := htail rfl k' (List.mem_singleton.mpr rfl) (by
    rw [← firstKey_bare, hentries]
    exact List.Lex.nil)
  have hthree := congrArg List.length hentries
  rw [List.length_map, List.length_map, hone] at hthree
  cases hthree

-- ====================================================== the result

section Scan

variable {σ : Type} {refusal : Fault} {ops : PageOps σ} {live : σ → Ptr → Option BNode}
  {kid : σ → BNode → Nat → Except Fault BNode} {tree : BTree σ} {fuel : Nat}

theorem scan_eq_iff (hl : Lawful refusal ops live)
    (hreads : Reads (kid tree.pages) (live tree.pages))
    (ht : SearchTree (live tree.pages) tree.root t)
    (hfuel : h + (flat h t).length + 1 < fuel) :
    scan ops kid fuel tree s = .ok (fromFloor s (flat h t)) ↔ Thin s h t := by
  obtain ⟨⟨buf, hbuf, henc⟩, hst⟩ := ht.stored
  obtain ⟨path, A, kv, tl, clear, hseek, hcur, hflat, habove, hA, hclear⟩ :=
    seekLoop_cursor hreads h fuel t buf (by omega) henc ht.ne hst ht.good ht.sorted
  have hs := ht.sorted
  rw [hflat] at hs hfuel
  rw [List.length_append, List.length_cons] at hfuel
  rw [scan, seekLE, if_neg ht.root_ne, hl.getPage _ _ _ hbuf, ok_bind, hseek, ok_bind,
    hflat, fromFloor_split hs habove hA, ← hclear, List.nil_append]
  exact drain_iff hreads hst ht.good (by omega) tl kv path clear fuel hcur
    (List.pairwise_append.mp hs).2.1 (by omega)

/-- An iteration from `s` visits the pairs from the greatest key not
above `s` on, or all if there is none, each once and in order, without
following a pointer of a leaf, exactly if every parent of leaves that
starts above `s` and is not its own parent's first kid has one kid. -/
theorem iterates_iff (hl : Lawful refusal ops live) (ht : SearchTree (live tree.pages) tree.root t)
    (s : Bytes) (hfuel : h + (flat h t).length + 1 < fuel) :
    Iterates ops fuel tree s (fromFloor s (flat h t)) ↔ Thin s h t := by
  unfold Iterates
  rw [scan_eq_iff hl (kidOf_reads hl _) ht hfuel,
    scan_eq_iff hl (innerKidOf_reads hl _) ht hfuel, and_self_iff]

end Scan

/-- Nothing is below the empty key. -/
theorem fromFloor_nil {kv : Bytes × Bytes} {l : List (Bytes × Bytes)} (hs : Sorted (kv :: l)) :
    fromFloor [] (kv :: l) = kv :: l := by
  refine fromFloor_split (A := []) hs (fun e he => ?_) (Or.inl rfl)
  exact lt_of_le_of_lt (not_lt.mp (List.not_lt_nil _)) (Sorted.allGt hs e he)

/-- A root over two leaves is thin: the loop visits both. -/
theorem iterates_iff_two_leaves : ∃ tree, [0, 1].foldlM
      (fun tree i => insert memOps 3 tree (bigRow i).1 (bigRow i).2) ⟨0, .empty⟩ = .ok tree
    ∧ Iterates memOps 5 tree [] [bigRow 0, bigRow 1] := by
  obtain ⟨tree, hrun, -, F, hshape⟩ := two_rows
  obtain ⟨t, hstrip, ht⟩ := hshape.searchTree
  have hflat : flat 1 t = [bigRow 0, bigRow 1] := by
    rw [← flat_strip, hstrip]
    rfl
  have hs := ht.sorted
  rw [hflat] at hs
  refine ⟨tree, hrun, ?_⟩
  rw [← fromFloor_nil hs, ← hflat]
  exact (iterates_iff memOps_lawful ht [] (by rw [hflat]; decide)).mpr
    ⟨fun _ _ => trivial, fun h => (nomatch h)⟩

/-- A tree built by five insertions over which the loop goes wrong: it
does not come by the five pairs. -/
theorem repeats_after_carry : ∃ tree, [0, 1, 2, 3, 4].foldlM
      (fun tree i => insert memOps 3 tree (bigRow i).1 (bigRow i).2) ⟨0, .empty⟩ = .ok tree
    ∧ (∃ t : Tree 2, SearchTree tree.pages.pages tree.root t
      ∧ flat 2 t = [bigRow 0, bigRow 1, bigRow 2, bigRow 3, bigRow 4])
    ∧ ∀ fuel, 8 < fuel → scan memOps (kidOf memOps) fuel tree []
      ≠ .ok [bigRow 0, bigRow 1, bigRow 2, bigRow 3, bigRow 4] := by
  obtain ⟨tree, hrun, -, F, hshape⟩ := five_rows
  obtain ⟨t, hstrip, ht⟩ := hshape.searchTree
  have hflat : flat 2 t = [bigRow 0, bigRow 1, bigRow 2, bigRow 3, bigRow 4] := by
    rw [← flat_strip, hstrip, flat_five]
  refine ⟨tree, hrun, ⟨t, ht, hflat⟩, fun fuel hfuel hscan => not_thin_five hstrip ?_⟩
  have hs := ht.sorted
  rw [hflat] at hs
  rw [← fromFloor_nil hs, ← hflat] at hscan
  exact (scan_eq_iff memOps_lawful (kidOf_reads memOps_lawful _) ht
    (by rw [hflat]; exact hfuel)).mp hscan

end Svacara.Btree
