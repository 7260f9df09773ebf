/-
The tree as a whole.

A tree with a root page is the one kid of a node that is not there, so
the contracts of one level apply at the root as they are: `HasTree`
says that the root pointer is 0 and no page is held, or that
`ofKids [(root, t)]` is a subtree. Its bound `n` on the height is what
the fuel of the calls has to reach; an insertion raises the height by at
most one.
-/
import Svacara.Btree.Proofs.Insert
import Svacara.Btree.Proofs.SearchTree

namespace Svacara.Btree

open Outcome Heap SortedMap

variable {σ : Type} {refusal : Fault} {ops : PageOps σ} {live : σ → Ptr → Option BNode}

/-- Beside the frame `F` the heap `m` has exactly the pages of a tree of
height below `n` with the root `root` and the pairs `l`. -/
inductive HasTree (F m : Ptr → Option BNode) (n : Nat) (root : Ptr)
    (l : List (Bytes × Bytes)) : Prop where
  | empty (hroot : root = 0) (hnil : l = []) (hown : Owned F m [])
  | tree (hroot : root ≠ 0) (h : Nat) (t : Tree h) (hn : h < n)
      (hsub : Subtree F m RowPage (h + 1) (ofKids [(root, t)]))
      (hflat : flat h t = l)

theorem flat_single {h : Nat} (root : Ptr) (t : Tree h) :
    flat (h + 1) (ofKids [(root, t)]) = flat h t := by
  rw [flat_ofKids, List.flatMap_singleton]

theorem restPages_nil {h : Nat} :
    restPages ([] : List (Ptr × Tree h)) [] = [] := rfl

/-- The tree under the root as a call on its page sees it: whatever the
call makes of it is the whole tree once the page of the root is freed. -/
theorem Subtree.root (hl : Lawful refusal ops live) {F : Ptr → Option BNode} {h : Nat} {root : Ptr}
    {t : Tree h} {s : σ} (hsub : Subtree F (live s) RowPage (h + 1) (ofKids [(root, t)])) :
    ∃ buf G, ops.getPage s root = .ok buf ∧ Encodes buf (nodeType h) (entries h t)
      ∧ RowPage (entries h t) ∧ Subtree G (live s) RowPage h t
      ∧ ∀ s₁ t', Subtree G (live s₁) RowPage h t' →
        ∃ s₂, ops.delPage s₁ root = .ok s₂ ∧ Subtree F (live s₂) RowPage h t' := by
  obtain ⟨buf, hbuf, henc⟩ := Subtree.kid (L := []) (R := []) hl hsub
  obtain ⟨hpage, -⟩ := hsub.good _ (List.mem_singleton.mpr rfl)
  obtain ⟨G, hkid, hback⟩ := Subtree.focus (L := []) (R := []) hsub
  refine ⟨buf, G, hbuf, henc, hpage, hkid, fun s₁ t' ht' => ?_⟩
  obtain ⟨hown, -⟩ := hback _ _ ht'.owned
  obtain ⟨s₂, hdel, hown₂, hst₂, -⟩ := delPage_unused hl hown ht'.stored
  rw [restPages_nil, List.append_nil] at hown₂
  exact ⟨s₂, hdel, hown₂, hst₂, ht'.good, ht'.sorted⟩

/-- The same for a call that is made after the page has been freed. -/
theorem Subtree.root_freed (hl : Lawful refusal ops live) {F : Ptr → Option BNode} {h : Nat}
    {root : Ptr} {t : Tree h} {s : σ}
    (hsub : Subtree F (live s) RowPage (h + 1) (ofKids [(root, t)])) :
    ∃ buf s₁ G, ops.getPage s root = .ok buf ∧ ops.delPage s root = .ok s₁
      ∧ Encodes buf (nodeType h) (entries h t) ∧ RowPage (entries h t)
      ∧ Subtree G (live s₁) RowPage h t
      ∧ ∀ m t', Subtree G m RowPage h t' → Subtree F m RowPage h t' := by
  have hmem : (root, t) ∈ [(root, t)] := List.mem_singleton.mpr rfl
  obtain ⟨⟨buf, hbuf, henc⟩, -⟩ := hsub.stored _ hmem
  obtain ⟨hpage, -⟩ := hsub.good _ hmem
  obtain ⟨s₁, hdel, hs₁⟩ := hl.delPage s root (by rw [hbuf]; exact Option.some_ne_none buf)
  obtain ⟨G, hkid, hback⟩ := Subtree.focus_freed (L := []) (R := []) hsub
  rw [← hs₁] at hkid
  refine ⟨buf, s₁, G, hl.getPage _ _ _ hbuf, hdel, henc, hpage, hkid, fun m t' ht' => ?_⟩
  obtain ⟨hown, -⟩ := hback _ _ ht'.owned
  rw [restPages_nil, List.append_nil] at hown
  exact ⟨hown, ht'.stored, ht'.good, ht'.sorted⟩

/-- The root is 0 exactly when there are no pairs. -/
theorem HasTree.root_eq_zero {F m : Ptr → Option BNode} {n : Nat} {root : Ptr}
    {l : List (Bytes × Bytes)} (ht : HasTree F m n root l) :
    root = 0 ↔ l = [] := by
  cases ht with
  | empty hroot hnil _ => exact ⟨fun _ => hnil, fun _ => hroot⟩
  | tree hroot h t hn hsub hflat =>
      obtain ⟨hpage, hg⟩ := hsub.good _ (List.mem_singleton.mpr rfl)
      have hne := flat_ne_nil (fun _ => rowPage_ne) hg hpage.1
      rw [hflat] at hne
      exact ⟨fun h => absurd h hroot, fun h => absurd h hne⟩

theorem HasTree.mono {F m : Ptr → Option BNode} {n n' : Nat} {root : Ptr}
    {l : List (Bytes × Bytes)} (ht : HasTree F m n root l) (hn : n ≤ n') :
    HasTree F m n' root l := by
  cases ht with
  | empty hroot hnil hown => exact .empty hroot hnil hown
  | tree hroot h t hlt hsub hflat =>
      exact .tree hroot h t (Nat.lt_of_lt_of_le hlt hn) hsub hflat

/-- A finished node gets a page of its own: `NewPage` at the end of
`Insert` and `Delete`. -/
theorem newPage_root (hl : Lawful refusal ops live) {F : Ptr → Option BNode} {h : Nat}
    {s : σ} {b : BNode} {t : Tree h}
    (henc : Encodes b (nodeType h) (entries h t))
    (hpage : RowPage (entries h t)) (hsub : Subtree F (live s) RowPage h t) :
    Returns refusal (ops.newPage s b) fun r =>
      r.1 ≠ 0 ∧ Subtree F (live r.2) RowPage (h + 1) (ofKids [(r.1, t)]) := by
  have hown : Owned F (live s) (pages h t ++ []) := by
    rw [List.append_nil]
    exact hsub.owned
  refine (newPage_part hl ⟨henc, hpage.1⟩ hown hsub.stored).mono ?_
  rintro ⟨p, s'⟩ ⟨hp0, hown', hst', -⟩
  refine ⟨hp0, hown', hst', ?_, ?_⟩
  · exact List.forall_mem_singleton.mpr ⟨hpage, hsub.good⟩
  · rw [flat_single]
    exact hsub.sorted

/-- It becomes the root. -/
theorem newRoot (hl : Lawful refusal ops live) {F : Ptr → Option BNode} {h : Nat}
    (n : Nat) {s : σ} {b : BNode} {t : Tree h}
    (henc : Encodes b (nodeType h) (entries h t))
    (hpage : RowPage (entries h t)) (hsub : Subtree F (live s) RowPage h t)
    (hn : h < n) :
    Returns refusal (ops.newPage s b) fun r => HasTree F (live r.2) n r.1 (flat h t) :=
  (newPage_root hl henc hpage hsub).mono fun _ ⟨hp0, hsub'⟩ => .tree hp0 h t hn hsub' rfl

-- ========================================================== Insert

/-- The first insertion builds a leaf with one pair. -/
theorem firstLeaf_fits (key val : Bytes) (hfit : header + pairSize (key, val) ≤ btreePageSize) :
    ∃ b₀ b, setHeader (make btreePageSize) bnodeLeaf 1 = .ok b₀
      ∧ nodeAppendKV b₀ 0 0 key val = .ok b
      ∧ Encodes b bnodeLeaf [⟨0, key, val⟩] ∧ b.length = btreePageSize := by
  have hlen : (make btreePageSize).length = 4096 := length_make _
  have hhd : header = 4 := rfl
  simp only [pairSize, btreePageSize] at hfit
  obtain ⟨b₀, hb₀, hh₀, hl₀⟩ := holds_setHeader (make btreePageSize)
    bnodeLeaf 1 (by omega) (by decide) (by omega)
  obtain ⟨b, hb, hh, hl⟩ := nodeAppendKV_holds (e := ⟨0, key, val⟩) hh₀
    (by decide) (by
      rw [kvSize_nil, Entry.size]
      show 4 + 10 * 1 + 0 + (4 + key.length + val.length) ≤ b₀.length
      omega)
  exact ⟨b₀, b, hb₀, hb, hh, hl.trans (hl₀.trans hlen)⟩

theorem pairSize_row {key val : Bytes} (hk : key.length = 13) (hv : val.length ≤ 1000) :
    header + pairSize (key, val) ≤ btreePageSize := by
  simp only [pairSize, header, btreePageSize]
  omega

/-- A tree that was left in one part is that part. -/
theorem Parts.subtree_one {F m : Ptr → Option BNode} {h : Nat} {t u : Tree h}
    {bufs : List BNode} (hparts : Parts m h t bufs [u]) (hsub : Subtree F m RowPage h t) :
    Subtree F m RowPage h u ∧ flat h u = flat h t := by
  have hflat : flat h u = flat h t := by
    rw [← hparts.flat_eq, List.flatMap_singleton]
  have hpages : pages h u = pages h t := by
    rw [← hparts.pages_eq, List.flatMap_singleton]
  have hu : u ∈ [u] := List.mem_singleton.mpr rfl
  refine ⟨⟨?_, hparts.stored u hu, hparts.good u hu, ?_⟩, hflat⟩
  · rw [hpages]
    exact hsub.owned
  · rw [hflat]
    exact hsub.sorted

/-- The new root over the parts of the old one, if it is a page. -/
theorem growRoot_fits (hl : Lawful refusal ops live) {F : Ptr → Option BNode} {h : Nat}
    {s : σ} {t : Tree h} {bufs : List BNode} {ts : List (Tree h)}
    (hsub : Subtree F (live s) RowPage h t) (hparts : Parts (live s) h t bufs ts)
    (hfit : header + 10 * ts.length + kidsSize ts ≤ btreePageSize) :
    Returns refusal (do
      let root ← setHeader (make btreePageSize) bnodeInternal bufs.length
      let (root, s) ← appendSplit ops bufs 0 root s
      let (ptr, s) ← ops.newPage s root
      return (⟨ptr, s⟩ : BTree σ)) fun tree =>
        tree.root ≠ 0 ∧ ∃ ks : List (Ptr × Tree h), ks.map Prod.snd = ts
          ∧ flat (h + 1) (ofKids ks) = flat h t
          ∧ Subtree F (live tree.pages) RowPage (h + 2)
            (ofKids [(tree.root, ofKids ks)]) := by
  have hlen : (make btreePageSize).length = 4096 := length_make _
  have hhd : header = 4 := rfl
  have hpg : btreePageSize = 4096 := rfl
  have hcount := hparts.count
  have hbufs := hparts.parts.length_eq
  obtain ⟨b₀, hb₀, hh₀, hl₀⟩ := holds_setHeader (make btreePageSize)
    bnodeInternal bufs.length (by omega) (by decide) (by omega)
  rw [hb₀, ok_bind, appendSplit_eq]
  have hown : Owned F (live s) (ts.flatMap (pages h) ++ []) := by
    rw [hparts.pages_eq, List.append_nil]
    exact hsub.owned
  refine (appendLoop_spec hl keeps_clearOffset bufs ts b₀ [] s [] hparts.parts hh₀
    (by rw [List.length_nil]; omega) (by rw [kvSize_nil]; omega) hown
    hparts.stored).bind ?_
  rintro ⟨root, s₁⟩ ⟨ks, hks, hhold, -, hown₁, hst₁, -⟩
  have hkslen : ks.length = ts.length := by
    rw [← hks, List.length_map]
  have hflat : flat (h + 1) (ofKids ks) = flat h t :=
    (flat_of_snd hks).trans hparts.flat_eq
  have hg := hparts.good_kids hks
  have henc : Encodes root (nodeType (h + 1)) (entries (h + 1) (ofKids ks)) := by
    rw [Encodes, entries_ofKids, List.length_map, hkslen, ← hbufs]
    exact hhold
  have hpage : RowPage (entries (h + 1) (ofKids ks)) := by
    refine ⟨?_, ?_⟩
    · rw [entries_ofKids]
      refine List.ne_nil_of_length_pos ?_
      rw [List.length_map]
      omega
    · rw [nodeSize, entries_ofKids, List.length_map, hkslen, kvSize_kidEntry, hks]
      exact hfit
  rw [List.append_nil] at hown₁
  refine (newPage_root hl henc hpage ⟨hown₁, hst₁, hg, ?_⟩).bind ?_
  · rw [hflat]
    exact hsub.sorted
  · rintro ⟨p, s₂⟩ ⟨hp0, hsub'⟩
    exact Meets.ok ⟨hp0, ks, hks, hflat, hsub'⟩

-- ============================================================= Get

/-- A tree of pages is a search tree. -/
theorem HasTree.searchTree {F m : Ptr → Option BNode} {n : Nat} {root : Ptr}
    {l : List (Bytes × Bytes)} (ht : HasTree F m n root l) :
    l = [] ∧ root = 0 ∨ ∃ h < n, SearchTreeAt m root h l := by
  cases ht with
  | empty hroot hnil hown => exact Or.inl ⟨hnil, hroot⟩
  | tree hroot h t hn hsub hflat =>
      have hmem : (root, t) ∈ [(root, t)] := List.mem_singleton.mpr rfl
      obtain ⟨⟨buf, hbuf, henc⟩, hst⟩ := hsub.stored _ hmem
      obtain ⟨hpage, hg⟩ := hsub.good _ hmem
      have hs := hsub.sorted
      rw [flat_single, hflat] at hs
      have hnode := Stored.searchNode (fun _ => rowPage_ne) henc hpage.1 hst hg
      rw [hflat] at hnode
      exact Or.inr ⟨h, hn, .tree hroot buf hbuf hnode hs⟩

theorem get_spec (hl : Lawful refusal ops live) {F : Ptr → Option BNode} {n fuel : Nat}
    {tree : BTree σ} {l : List (Bytes × Bytes)} (key : Bytes) (hfuel : n ≤ fuel)
    (ht : HasTree F (live tree.pages) n tree.root l) :
    get ops fuel tree key = .ok (l.lookup key) := by
  rcases ht.searchTree with ⟨rfl, hroot⟩ | ⟨h, hn, ht⟩
  · rw [get, if_pos hroot]
    rfl
  · exact ht.get (hl.getPage _) key (by omega)

end Svacara.Btree
