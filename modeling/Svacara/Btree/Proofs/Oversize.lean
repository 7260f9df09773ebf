/-
When an insertion does no harm.

One direction is `insert_grows`: if everything fits, the tree after the
insertion is the one computed. For the other, every way of not fitting
is followed to its end. An internal node that has no room for its kids
faults, as does splitting one into parts larger than a page, and a leaf
larger than two pages cannot be split. What is left is a leaf that was
split into parts of which one is larger than a page: the call may return
then, but the parts lack a pair (`pieces_lack`), and so does everything
above them (`Lost`), up to the root. `treeInsert_ends` is that analysis,
by induction on the height, `insert_ends` closes it at the root.

Pairs longer than two pages are left out of it: their lengths may wrap
around and the nodes built from them be garbage, but what does not fit a
buffer cannot be read back from one (`Harmless.length_le`).
-/
import Svacara.Btree.Oversize
import Svacara.Btree.Proofs.Attach
import Svacara.Btree.Proofs.Lacks
import Svacara.Btree.Proofs.Lengths
import Svacara.Btree.Proofs.Room

namespace Svacara.Btree

open Outcome Heap SortedMap

variable {h : Nat} {key val : Bytes}

-- ================================================== parts that fit

/-- Entries that split well make a tree that does. -/
theorem splits_of_splitsWell {b : Tree h} (hne : entries h b ≠ [])
    (hwell : SplitsWell (entries h b)) : ∃ bs, Splits h b bs := by
  obtain ⟨parts, hparts, hfit⟩ := hwell
  have hnil := hparts.ne_nil hne hfit
  cases hparts with
  | whole hle => exact ⟨[b], .fits hle⟩
  | @once c hover hcut hleft =>
      obtain ⟨u, v, rfl, hu, hv⟩ := exists_append_of_entries
        (List.take_append_drop c (entries h b)).symm
      have hlen : (entries h u).length = c := by
        rw [hu, List.length_take_of_le hcut.le]
      refine ⟨[u, v], .cut hover (by rw [hlen]; exact hcut) ⟨?_, ?_⟩ ⟨?_, ?_⟩⟩
      · rw [hu]
        exact hnil _ (by simp)
      · rw [hu]
        exact hleft
      · rw [hv]
        exact hnil _ (by simp)
      · rw [hv]
        exact hfit _ (by simp)
  | @twice c d hover hcut hleft hcut' =>
      obtain ⟨uv, w, rfl, huv, hw⟩ := exists_append_of_entries
        (List.take_append_drop c (entries h b)).symm
      have hlen : (entries h uv).length = c := by
        rw [huv, List.length_take_of_le hcut.le]
      rw [← huv] at hleft hcut' hfit hnil
      rw [← hw] at hfit hnil
      obtain ⟨u, v, rfl, hu, hv⟩ := exists_append_of_entries
        (List.take_append_drop d (entries h uv)).symm
      have hlen' : (entries h u).length = d := by
        rw [hu, List.length_take_of_le hcut'.le]
      rw [← hu, ← hv] at hfit hnil
      have hpage : ∀ part ∈ [entries h u, entries h v, entries h w], RowPage part :=
        fun part hmem => ⟨hnil part hmem, hfit part hmem⟩
      exact ⟨[u, v, w], .cutTwice hover (by rw [hlen]; exact hcut) hleft
        (by rw [hlen']; exact hcut') (hpage _ (by simp)) (hpage _ (by simp))
        (hpage _ (by simp))⟩

/-- The entries of attached parts have the sizes of the parts' keys. -/
theorem Attached.sizes {m : Ptr → Option BNode} {ks : List Entry} {nodes : List BNode}
    {ts : List (Tree h)} (hks : Attached m ks nodes) (hparts : List.Forall₂ IsPart nodes ts) :
    ks.map Entry.size = ts.map fun t => 4 + (firstKey (entries h t)).length := by
  induction hks generalizing ts with
  | nil =>
      cases hparts
      rfl
  | cons he _ ih =>
      cases hparts with
      | cons hp hparts =>
          obtain ⟨hval, -, hkey⟩ := he
          rw [hp.getKey] at hkey
          rw [List.map_cons, List.map_cons, ih hparts, Entry.size, hval,
            ← Except.ok.inj hkey]
          rfl

-- ===================================================== the bad end

/-- An internal node below which no search finds the pair. -/
structure Lost (m : Ptr → Option BNode) (kv : Bytes × Bytes) (node : BNode) : Prop where
  lost : ∃ es, Encodes node bnodeInternal es ∧ es ≠ [] ∧ (∀ e ∈ es, e.val = [])
    ∧ ∀ e ∈ es, ∃ kid, m e.ptr = some kid ∧ Lacks m kv.1 kv.2 kid

/-- The parts of such a node lack the pair as well. -/
theorem Lost.split {m : Ptr → Option BNode} {kv : Bytes × Bytes} {node : BNode}
    {nodes : List BNode} (h : Lost m kv node) (hlen : node.length ≤ 2 * btreePageSize)
    (hsplit : nodeSplit3 node = .ok nodes) :
    nodes ≠ [] ∧ nodes.length ≤ 3 ∧ ∀ part ∈ nodes, Lacks m kv.1 kv.2 part := by
  obtain ⟨es, henc, hne, hbare, hkids⟩ := h
  obtain ⟨parts, hparts, hencs, hfit⟩ := nodeSplit3_bare henc hne
    (Nat.le_trans henc.nodeSize_le hlen) hbare hsplit
  have hlen := hencs.length_eq
  obtain ⟨hone, hthree⟩ := hparts.length_le
  refine ⟨List.ne_nil_of_length_pos (by omega), by omega, fun part hmem => ?_⟩
  obtain ⟨i, hi, rfl⟩ := List.getElem_of_mem hmem
  have henci := (List.forall₂_iff_get.mp hencs).2 i hi (by omega)
  have hpart : parts.get ⟨i, by omega⟩ ∈ parts := List.get_mem ..
  refine lacks_of_kids henci (hparts.ne_nil hne hfit _ hpart) fun e he => hkids e ?_
  rw [← hparts.flatten_eq]
  exact List.mem_flatten.mpr ⟨_, hpart, he⟩

/-- The two ways in which `treeInsert` returns, and the one in which its
caller cannot go on. -/
inductive Ends (key val : Bytes) (h : Nat) (t : Tree h) (m : Ptr → Option BNode)
    (node : BNode) : Prop where
  | grown {b' : Tree h} (hgrow : Grows key val h (strip h t) b')
  | stuck (hsplit : ∀ nodes, nodeSplit3 node ≠ .ok nodes)
  | lost {kv : Bytes × Bytes} (hmem : kv ∈ ins key val (flat h t)) (hlost : Lost m kv node)

-- ========================================================== a leaf

/-- The leaf's parts, if they do not all fit, lack a pair. -/
theorem leaf_parts_lack {kvs : List (Bytes × Bytes)} {parts : List (List Entry)}
    {nodes : List BNode} (hs : Sorted kvs) (hcut : CutInto (entries 0 kvs) parts)
    (hall : List.Forall₂ (IsPiece bnodeLeaf) nodes parts)
    (hbig : ¬ ∀ part ∈ parts, nodeSize part ≤ btreePageSize) :
    ∃ kv ∈ kvs, ∀ m, ∀ node ∈ nodes, Lacks m kv.1 kv.2 node := by
  have hkeys : (parts.flatten.map Entry.key).Nodup := by
    have hmap : (entries 0 kvs).map Entry.key = kvs.map Prod.fst := List.map_map
    rw [hcut.flatten_eq, hmap]
    exact List.pairwise_map.mpr (hs.imp fun h => ne_of_lt h)
  obtain ⟨e, hmem, -, hlacks⟩ := pieces_lack hall hkeys (by
    obtain ⟨part, hpart⟩ := not_forall.mp hbig
    obtain ⟨hmem, hover⟩ := Classical.not_imp.mp hpart
    exact ⟨part, hmem, Nat.lt_of_not_le hover⟩)
  rw [hcut.flatten_eq] at hmem
  obtain ⟨kv, hkv, rfl⟩ := List.mem_map.mp hmem
  exact ⟨kv, hkv, hlacks⟩

/-- Parts of a node that do not all fit lack a pair; those of an internal
node always fit. -/
theorem parts_lack {t : Tree h} {new : BNode} {parts : List (List Entry)}
    {nodes : List BNode} (henc : Encodes new (nodeType h) (entries h t))
    (hne : entries h t ≠ []) (hle : nodeSize (entries h t) ≤ 2 * btreePageSize)
    (hs : Sorted (flat h t)) (hsplit : nodeSplit3 new = .ok nodes)
    (hcut : CutInto (entries h t) parts)
    (hbig : ¬ ∀ part ∈ parts, nodeSize part ≤ btreePageSize) :
    ∃ kv ∈ flat h t, ∀ m, ∀ node ∈ nodes, Lacks m kv.1 kv.2 node := by
  cases h with
  | zero =>
      obtain ⟨parts', hcut', hpieces, -⟩ := nodeSplit3_pieces henc hne hle
      rw [hcut'.unique hcut] at hpieces
      exact leaf_parts_lack hs hcut (hpieces nodes hsplit) hbig
  | succ h =>
      obtain ⟨parts', hcut', -, hfit⟩ := nodeSplit3_bare henc hne hle (by
        intro e he
        obtain ⟨k, -, rfl⟩ := List.mem_map.mp he
        rfl) hsplit
      rw [hcut'.unique hcut] at hfit
      exact absurd hfit hbig

/-- The shape splits as the node does. -/
theorem splits_of_grown {t : Tree h} (hne : entries h t ≠ [])
    (hwell : SplitsWell (entries h t)) : ∃ bs, Splits h (strip h t) bs := by
  have hsizes : (entries h t).map Entry.size = (entries h (strip h t)).map Entry.size := by
    rw [entries_strip, List.map_map]
    rfl
  refine splits_of_splitsWell ?_ (hwell.congr hsizes)
  rw [entries_strip]
  exact mt List.map_eq_nil_iff.mp hne

theorem nodeSize_ins_lt {kvs : List (Bytes × Bytes)}
    (hsize : nodeSize (entries 0 kvs) ≤ btreePageSize)
    (hk : key.length ≤ 2 * btreePageSize) (hv : val.length ≤ 2 * btreePageSize) :
    nodeSize (entries 0 (ins key val kvs)) < 65536 := by
  have hins := nodeSize_ins key val kvs
  simp only [pairSize, btreePageSize] at *
  omega

section Store

variable {σ : Type} {refusal : Fault} {ops : PageOps σ} {live : σ → Ptr → Option BNode}

theorem treeInsert_leaf_ends {fuel : Nat} {s : σ} {node : BNode}
    {kvs : List (Bytes × Bytes)} {r : BNode × σ} {m : Ptr → Option BNode}
    (hk : key.length ≤ 2 * btreePageSize) (hv : val.length ≤ 2 * btreePageSize)
    (hnode : Encodes node bnodeLeaf (entries 0 kvs)) (hpage : RowPage (entries 0 kvs))
    (hs : Sorted kvs) (h : treeInsert ops (fuel + 1) s node key val = .ok r) :
    r.2 = s ∧ Ends key val 0 kvs m r.1 := by
  have hne : kvs ≠ [] := fun hnil => hpage.1 (by rw [hnil]; rfl)
  rw [treeInsert_leaf_eq ops fuel s key val hnode hs hne] at h
  obtain ⟨new, hnew, h⟩ := bind_eq_ok.mp h
  cases h
  refine ⟨rfl, ?_⟩
  dsimp only
  by_cases hfit : nodeSize (entries 0 (ins key val kvs)) ≤ 2 * btreePageSize
  · exact .grown (.leaf hfit)
  · obtain ⟨hw, hlen⟩ := build_written (by rw [length_make]; decide) (by decide)
      (nodeSize_ins_lt hpage.2 hk hv) hnew
    rw [length_make] at hlen
    have hpg : btreePageSize = 4096 := rfl
    exact .stuck (nodeSplit3_cut_faults hw (by omega) (by omega))

-- ================================================== internal nodes

/-- A kid's parts that lack a pair make the parent lack it, since its
siblings do not have the key. -/
theorem lost_parent {F m₀ m : Ptr → Option BNode}
    {L R : List (Ptr × Tree h)} {k : Ptr × Tree h} {kv : Bytes × Bytes} {new : BNode}
    {ks : List Entry} {nodes : List BNode}
    (hsub : Subtree F m₀ RowPage (h + 1) (ofKids (L ++ k :: R)))
    (hkeep : ∀ p ∈ restPages L R, ∀ kid, m₀ p = some kid → m p = some kid)
    (hks : Attached m ks nodes) (hne : nodes ≠ [])
    (henc : Encodes new bnodeInternal (L.map kidEntry ++ (ks ++ R.map kidEntry)))
    (hlacks : ∀ node ∈ nodes, Lacks m kv.1 kv.2 node)
    (hL : ∀ e ∈ flat (h + 1) (ofKids L), e.1 ≠ kv.1)
    (hR : ∀ e ∈ flat (h + 1) (ofKids R), e.1 ≠ kv.1) : Lost m kv new := by
  -- the siblings are where they were
  have hsibling : ∀ k' ∈ L ++ k :: R, (∀ p ∈ k'.1 :: pages h k'.2, p ∈ restPages L R) →
      (∀ e ∈ flat h k'.2, e.1 ≠ kv.1) →
      ∃ kid, m k'.1 = some kid ∧ Lacks m kv.1 kv.2 kid := by
    intro k' hk' hrest hout
    obtain ⟨⟨buf, hbuf, hencb⟩, hst⟩ := hsub.stored k' hk'
    obtain ⟨hpage, hg⟩ := hsub.good k' hk'
    have hst' : Stored m h k'.2 := hst.congr fun p hp => by
      obtain ⟨kid, hkid⟩ := Option.ne_none_iff_exists'.mp (hst.live p hp)
      rw [hkeep p (hrest p (List.mem_cons_of_mem _ hp)) kid hkid, hkid]
    exact ⟨buf, hkeep _ (hrest _ (List.mem_cons_self ..)) _ hbuf,
      Stored.lacks (fun _ => rowPage_ne) hst' hencb hpage.1 hg hout⟩
  refine ⟨_, henc, ?_, ?_, ?_⟩
  · intro hnil
    have hlen := congrArg List.length hnil
    have hpos := List.length_pos_iff.mpr hne
    rw [List.length_append, List.length_append, List.Forall₂.length_eq hks,
      List.length_nil] at hlen
    omega
  · intro e he
    rcases List.mem_append.mp he with he | he
    · obtain ⟨k', -, rfl⟩ := List.mem_map.mp he
      rfl
    rcases List.mem_append.mp he with he | he
    · exact hks.bare e he
    · obtain ⟨k', -, rfl⟩ := List.mem_map.mp he
      rfl
  · intro e he
    rcases List.mem_append.mp he with he | he
    · obtain ⟨k', hk', rfl⟩ := List.mem_map.mp he
      exact hsibling k' (List.mem_append_left _ hk')
        (fun p hp => mem_restPages_left (List.mem_flatMap.mpr ⟨k', hk', hp⟩))
        fun e he => hL e (List.mem_flatMap.mpr ⟨k', hk', he⟩)
    rcases List.mem_append.mp he with he | he
    · obtain ⟨node, hnode, hp⟩ := hks.page e he
      exact ⟨node, hp, hlacks node hnode⟩
    · obtain ⟨k', hk', rfl⟩ := List.mem_map.mp he
      exact hsibling k' (List.mem_append_right _ (List.mem_cons_of_mem _ hk'))
        (fun p hp => mem_restPages_right (List.mem_flatMap.mpr ⟨k', hk', hp⟩))
        fun e he => hR e (List.mem_flatMap.mpr ⟨k', hk', he⟩)

/-- The shape of a node whose kid's parts were attached. -/
theorem grows_of_attached {m m' : Ptr → Option BNode} {L R : List (Ptr × Tree h)}
    {k : Ptr × Tree h} {t' : Tree h} {bs ts : List (Tree h)} {nodes : List BNode}
    {ks : List Entry} {new : BNode}
    (habove : AllGt key (flat (h + 1) (ofKids R)))
    (hle : L = [] ∨ firstKey (entries h k.2) ≤ key)
    (hkid : Grows key val h (strip h k.2) (strip h t'))
    (hsplit : Splits h (strip h t') bs) (hts : ts.map (strip h) = bs)
    (hparts : Parts m h t' nodes ts) (hks : Attached m' ks nodes)
    (henc : Encodes new bnodeInternal (L.map kidEntry ++ (ks ++ R.map kidEntry)))
    (hlen : new.length = 2 * btreePageSize) :
    ∃ b', Grows key val (h + 1) (strip (h + 1) (ofKids (L ++ k :: R))) b' := by
  have hstrip : strip (h + 1) (ofKids (L ++ k :: R))
      = ofKids (L.map (fun k => (0, strip h k.2))
        ++ (0, strip h k.2) :: R.map fun k => (0, strip h k.2)) := by
    rw [strip_ofKids, List.map_append, List.map_cons]
  rw [hstrip]
  refine ⟨_, .node ?_ ?_ hkid hsplit ?_⟩
  · rw [← strip_ofKids, flat_strip]
    exact habove
  · rw [List.map_eq_nil_iff, firstKey_strip]
    exact hle
  · -- the sizes are those of what was written
    have hkid : ∀ k' : Ptr × Tree h,
        (kidEntry ((0 : Ptr), strip h k'.2)).size = (kidEntry k').size := by
      intro k'
      simp [kidEntry, Entry.size, firstKey_strip]
    have hsizes : (entries (h + 1) (ofKids (L.map (fun k => ((0 : Ptr), strip h k.2))
        ++ (bs.map (Prod.mk 0) ++ R.map fun k => ((0 : Ptr), strip h k.2))))).map Entry.size
          = (L.map kidEntry ++ (ks ++ R.map kidEntry)).map Entry.size := by
      rw [entries_ofKids]
      simp only [List.map_append, List.map_map, Function.comp_def, hkid]
      rw [hks.sizes hparts.parts, ← hts, List.map_map]
      congr 2
      refine List.map_congr_left fun t _ => ?_
      simp [kidEntry, Entry.size, firstKey_strip]
    rw [nodeSize_congr hsizes, ← hlen]
    exact henc.nodeSize_le

/-- A parent that was rebuilt around the parts of its kid had room. -/
theorem replaceKid_attached (hl : Lawful refusal ops live) {L R : List (Ptr × Tree h)}
    {k : Ptr × Tree h} {node : BNode} {nodes : List BNode} {s : σ} {r : BNode × σ}
    (hnode : Encodes node bnodeInternal (entries (h + 1) (ofKids (L ++ k :: R))))
    (hpage : nodeSize (entries (h + 1) (ofKids (L ++ k :: R))) ≤ btreePageSize)
    (hnodes : ∀ node ∈ nodes, node.length ≤ 2 * btreePageSize) (hthree : nodes.length ≤ 3)
    (hret : nodeReplaceKidN ops (make (2 * btreePageSize)) node L.length nodes s = .ok r) :
    ∃ ks, Attached (live r.2) ks nodes
      ∧ Encodes r.1 bnodeInternal (L.map kidEntry ++ (ks ++ R.map kidEntry))
      ∧ r.1.length = 2 * btreePageSize
      ∧ ∀ p kid, live s p = some kid → live r.2 p = some kid := by
  have hbuflen : (make (2 * btreePageSize)).length = 8192 := length_make _
  rw [entries_ofKids, List.map_append, List.map_cons] at hnode hpage
  have hbare : ∀ e ∈ L.map kidEntry ++ kidEntry k :: R.map kidEntry, e.val = [] := by
    rw [← List.map_cons, ← List.map_append]
    intro e he
    obtain ⟨k', -, rfl⟩ := List.mem_map.mp he
    rfl
  have hroom : header + 10 * ((L.map kidEntry).length + nodes.length
      + (R.map kidEntry).length) + kvSize (L.map kidEntry)
      ≤ (make (2 * btreePageSize)).length := by
    rw [hbuflen]
    simp only [nodeSize, List.length_append, List.length_cons, kvSize_append,
      kvSize_cons, header, btreePageSize] at hpage ⊢
    omega
  rw [← List.length_map kidEntry] at hret
  obtain ⟨ks, hks, henc, hlen, hkeep⟩ :=
    nodeReplaceKidN_ok hl hnode hbare hpage hnodes hthree (by omega) hroom hret
  rw [length_make] at hlen
  exact ⟨ks, hks, henc, hlen, hkeep⟩

/-- A pair that the parts of the kid lack is lost above them. -/
theorem ends_of_lacks {F m m' : Ptr → Option BNode} {L R : List (Ptr × Tree h)}
    {k : Ptr × Tree h} {nodes : List BNode} {ks : List Entry} {new : BNode}
    (hsub : Subtree F m RowPage (h + 1) (ofKids (L ++ k :: R)))
    (hL : AllLt (flat (h + 1) (ofKids L)) key) (habove : AllGt key (flat (h + 1) (ofKids R)))
    (hrest : ∀ p ∈ restPages L R, ∀ kid, m p = some kid → m' p = some kid)
    (hks : Attached m' ks nodes) (hne : nodes ≠ [])
    (henc : Encodes new bnodeInternal (L.map kidEntry ++ (ks ++ R.map kidEntry)))
    {kv : Bytes × Bytes} (hkv : kv ∈ ins key val (flat h k.2))
    (hlacks : ∀ part ∈ nodes, Lacks m' kv.1 kv.2 part) :
    Ends key val (h + 1) (ofKids (L ++ k :: R)) m' new := by
  have hins : ins key val (flat (h + 1) (ofKids (L ++ k :: R)))
      = flat (h + 1) (ofKids L)
        ++ (ins key val (flat h k.2) ++ flat (h + 1) (ofKids R)) := by
    rw [flat_around, ins_append_left hL, ins_append_right habove]
  have hsorted := sorted_ins (k := key) (v := val) hsub.sorted
  rw [hins] at hsorted
  obtain ⟨-, htail, hbefore⟩ := List.pairwise_append.mp hsorted
  obtain ⟨-, -, hafter⟩ := List.pairwise_append.mp htail
  have hall : kv ∈ ins key val (flat (h + 1) (ofKids (L ++ k :: R))) := by
    rw [hins]
    exact List.mem_append_right _ (List.mem_append_left _ hkv)
  refine .lost hall (lost_parent hsub hrest hks hne henc hlacks ?_ ?_)
  · intro e he
    exact ne_of_lt (hbefore e he kv (List.mem_append_left _ hkv))
  · intro e he
    exact ne_of_gt (hafter kv hkv e he)

/-- What `treeInsert` can end with, and that it leaves the pages of other
trees alone. The induction is on the height of the tree. -/
theorem treeInsert_ends (hl : Lawful refusal ops live)
    (hk : key.length ≤ 2 * btreePageSize) (hv : val.length ≤ 2 * btreePageSize) :
    ∀ (h fuel : Nat) (t : Tree h) (node : BNode) (s : σ) (F : Ptr → Option BNode)
      (r : BNode × σ), h < fuel → Encodes node (nodeType h) (entries h t) →
      RowPage (entries h t) → Subtree F (live s) RowPage h t →
      treeInsert ops fuel s node key val = .ok r →
      Ends key val h t (live r.2) r.1
        ∧ ∀ p kid, live s p = some kid → p ∉ pages h t → live r.2 p = some kid := by
  intro h
  induction h with
  | zero =>
      intro fuel t node s F r hfuel hnode hpage hsub hret
      obtain ⟨fuel, rfl⟩ := exists_fuel hfuel
      obtain ⟨hs, hends⟩ := treeInsert_leaf_ends hk hv hnode hpage hsub.sorted hret
      refine ⟨hends, fun p kid hpk _ => ?_⟩
      rw [hs]
      exact hpk
  | succ h ih =>
      intro fuel kids node s F r hfuel hnode hpage hsub hret
      obtain ⟨fuel, rfl⟩ := exists_fuel hfuel
      have hkids : (show List (Ptr × Tree h) from kids) ≠ [] := fun hnil =>
        hpage.1 (by rw [show kids = ofKids [] from hnil]; rfl)
      obtain ⟨L, k, R, rfl, hlook, habove, hle⟩ := lookup_kids_le (fun _ => rowPage_ne) key
        hnode hsub.good hsub.sorted hkids
      have hL := allLt_left (fun _ => rowPage_ne) hsub.good hsub.sorted hle
      have hmem : k ∈ L ++ k :: R := List.mem_append_cons_self
      obtain ⟨hkpage, -⟩ := hsub.good k hmem
      have hfull := hsub.owned.perm (pages_around L R k)
      obtain ⟨hkout, hnodup⟩ := List.nodup_cons.mp hfull.nodup
      obtain ⟨buf, s₁, G, hdel, hs₁, hencb, hkid₁, -, hstep⟩ :=
        treeInsert_at_kid hl hnode hsub hlook fuel val
      rw [hstep] at hret
      obtain ⟨⟨knode, s₂⟩, hrec, hret⟩ := bind_eq_ok.mp hret
      obtain ⟨nodes, hsplit, hret⟩ := bind_eq_ok.mp hret
      have hfuel' := Nat.lt_of_succ_lt_succ hfuel
      obtain ⟨hends, hframe⟩ := ih fuel k.2 buf s₁ G _ hfuel' hencb hkpage hkid₁ hrec
      obtain ⟨-, -, -, -, hklen, -⟩ := (treeInsert_calls key val fuel s₁ buf).get hrec
      dsimp only at hsplit hret hends hframe hklen
      obtain ⟨hone, hthree, hshort⟩ := (indexes_nodeSplit3 knode).get hsplit
      obtain ⟨ks, hks, henc, hlen, hkeep₃⟩ := replaceKid_attached hl hnode hpage.2
        (hshort (Nat.le_of_eq hklen)) hthree hret
      -- pages that are not the kid's stay
      have hkeep : ∀ p kid, live s p = some kid → p ≠ k.1 → p ∉ pages h k.2 →
          live r.2 p = some kid := by
        intro p kid hpk hne hout
        refine hkeep₃ _ _ (hframe _ _ ?_ hout)
        rw [hs₁, Function.update_of_ne hne]
        exact hpk
      have hrest : ∀ p ∈ restPages L R, ∀ kid, live s p = some kid →
          live r.2 p = some kid := by
        intro p hpr kid hpk
        refine hkeep p kid hpk (fun heq => hkout ?_) fun hpk' => ?_
        · rw [← heq]
          exact List.mem_append_right _ hpr
        · exact (List.nodup_append.mp hnodup).2.2 p hpk' p hpr rfl
      have hlost : ∀ kv ∈ ins key val (flat h k.2),
          (∀ part ∈ nodes, Lacks (live s₂) kv.1 kv.2 part) →
          Ends key val (h + 1) (ofKids (L ++ k :: R)) (live r.2) r.1 := by
        intro kv hkv hlacks
        exact ends_of_lacks hsub hL habove hrest hks (List.ne_nil_of_length_pos hone) henc hkv
          fun part hpart => (hlacks part hpart).mono hkeep₃
      refine ⟨?_, ?_⟩
      · cases hends with
        | @grown b' hgrow =>
            obtain ⟨t', rfl, hgrown⟩ := (treeInsert_grows hl hgrow fuel k.2 buf s₁ G hfuel'
              rfl hencb hkpage.1 hkid₁).get hrec
            obtain ⟨parts, hcut, hpieces, -⟩ := nodeSplit3_pieces hgrown.enc hgrown.ne
              (Nat.le_trans hgrown.enc.nodeSize_le (Nat.le_of_eq hklen))
            have hall := hpieces nodes hsplit
            by_cases hfit : ∀ part ∈ parts, nodeSize part ≤ btreePageSize
            · obtain ⟨bs, hbs⟩ := splits_of_grown hgrown.ne ⟨parts, hcut, hfit⟩
              obtain ⟨bufs, ts, hsp, hparts, hts⟩ := hbs.parts rfl hgrown.enc hgrown.ne
                hgrown.sub.good hgrown.sub.stored
              rw [hsplit] at hsp
              cases hsp
              obtain ⟨b'', hb''⟩ := grows_of_attached habove hle hgrow hbs hts hparts hks
                henc hlen
              exact .grown hb''
            · obtain ⟨kv, hkv, hlacks⟩ := parts_lack hgrown.enc hgrown.ne
                (Nat.le_trans hgrown.enc.nodeSize_le (Nat.le_of_eq hklen))
                hgrown.sub.sorted hsplit hcut hfit
              rw [hgrown.flat_eq] at hkv
              exact hlost kv hkv (hlacks _)
        | stuck hstuck => exact absurd hsplit (hstuck nodes)
        | lost hkv hlost' =>
            obtain ⟨-, -, hlacks⟩ := hlost'.split (Nat.le_of_eq hklen) hsplit
            exact hlost _ hkv hlacks
      · intro p kid hpk hout
        have hout' : p ∉ k.1 :: (pages h k.2 ++ restPages L R) := fun hmem =>
          hout ((pages_around L R k).mem_iff.mpr hmem)
        refine hkeep p kid hpk (fun heq => hout' ?_) fun hmem => hout' ?_
        · rw [heq]
          exact List.mem_cons_self ..
        · exact List.mem_cons_of_mem _ (List.mem_append_left _ hmem)

-- ======================================================== the root

/-- What becomes of the parts of the root: one is the new root, more get
a root above them. -/
inductive RootOver (m : Ptr → Option BNode) (root : BNode) : List BNode → Prop where
  | single : RootOver m root [root]
  | above {nodes : List BNode} {ks : List Entry} (hmany : 2 ≤ nodes.length)
      (hks : Attached m ks nodes) (henc : Encodes root bnodeInternal ks)
      (hlen : root.length = btreePageSize) : RootOver m root nodes

theorem rootOver_of_insert (hl : Lawful refusal ops live) {nodes : List BNode} {s : σ}
    {tree : BTree σ} (hnodes : ∀ node ∈ nodes, node.length ≤ 2 * btreePageSize)
    (hone : 1 ≤ nodes.length) (hthree : nodes.length ≤ 3)
    (h : (match nodes with
      | [single] => do
          let (ptr, s) ← ops.newPage s single
          return (⟨ptr, s⟩ : BTree σ)
      | split => do
          let root ← setHeader (make btreePageSize) bnodeInternal split.length
          let (root, s) ← appendSplit ops split 0 root s
          let (ptr, s) ← ops.newPage s root
          return ⟨ptr, s⟩) = .ok tree) :
    tree.root ≠ 0 ∧ (∃ root, live tree.pages tree.root = some root
        ∧ RootOver (live tree.pages) root nodes)
      ∧ ∀ p kid, live s p = some kid → live tree.pages p = some kid := by
  rcases nodes with _ | ⟨single, _ | ⟨b, rest⟩⟩
  · exact absurd hone (by simp)
  · obtain ⟨⟨p, s₁⟩, hpage, h⟩ := bind_eq_ok.mp h
    obtain ⟨hne, hp, hkeep⟩ := newPage_ok hl hpage
    cases h
    exact ⟨hne, ⟨single, hp, .single⟩, hkeep⟩
  · obtain ⟨hne, ks, root, hks, henc, hlen, hp, hkeep⟩ := growRoot_ok hl hnodes hthree h
    exact ⟨hne, ⟨root, hp, .above (by simp) hks henc hlen⟩, hkeep⟩

theorem RootOver.lacks {m : Ptr → Option BNode} {root : BNode} {nodes : List BNode}
    (h : RootOver m root nodes) (hlacks : ∀ node ∈ nodes, Lacks m key val node) :
    Lacks m key val root := by
  cases h with
  | single => exact hlacks root (List.mem_singleton.mpr rfl)
  | @above nodes ks hmany hks henc hlen =>
      refine lacks_of_kids henc ?_ fun e he => ?_
      · have hlen := List.Forall₂.length_eq hks
        exact List.ne_nil_of_length_pos (by omega)
      · obtain ⟨node, hnode, hp⟩ := hks.page e he
        exact ⟨node, hp, hlacks node hnode⟩

/-- The root has room for the parts below it. -/
theorem RootOver.rooted {m m' : Ptr → Option BNode} {root : BNode} {nodes : List BNode}
    {t : Tree h} {ts : List (Tree h)} (hroot : RootOver m root nodes)
    (hparts : Parts m' h t nodes ts) :
    ∃ h' c, Rooted h (ts.map (strip h)) h' c := by
  have hcount := hparts.parts.length_eq
  cases hroot with
  | single =>
      obtain ⟨u, rfl⟩ := List.length_eq_one_iff.mp hcount.symm
      exact ⟨h, strip h u, .one⟩
  | @above _ ks hmany hks henc hlen =>
      have hfit := henc.nodeSize_le
      have hkslen := List.Forall₂.length_eq hks
      have hsize : kvSize ks = kidsSize (ts.map (strip h)) := by
        rw [kidsSize_strip, kvSize, kidsSize, hks.sizes hparts.parts]
      rw [hlen, nodeSize, hsize, hkslen, hcount] at hfit
      have hthree := hparts.count.2
      rcases ts with _ | ⟨u, _ | ⟨v, _ | ⟨w, _ | ⟨x, ts⟩⟩⟩⟩
      · exact absurd hcount (by rw [List.length_nil]; omega)
      · exact absurd hcount (by rw [List.length_singleton]; omega)
      · exact ⟨h + 1, _, .two hfit⟩
      · exact ⟨h + 1, _, .three hfit⟩
      · exact absurd hthree (by simp only [List.length_cons]; omega)

theorem get_ne_of_lacks (hl : Lawful refusal ops live) {tree : BTree σ} {root : BNode}
    (hne : tree.root ≠ 0) (hp : live tree.pages tree.root = some root)
    (hlacks : Lacks (live tree.pages) key val root) (fuel : Nat) :
    get ops fuel tree key ≠ .ok (some val) := by
  rw [get, if_neg hne, hl.getPage _ _ _ hp, ok_bind]
  exact hlacks.getLoop (hl.getPage _) fuel

/-- An insertion into a tree that returns fits, or a pair is lost. -/
theorem insert_ends (hl : Lawful refusal ops live) {F : Ptr → Option BNode}
    {fuel : Nat} {tree tree' : BTree σ} {b : Tree h}
    (hk : key.length ≤ 2 * btreePageSize) (hv : val.length ≤ 2 * btreePageSize)
    (hfuel : h < fuel) (ht : HasShape F (live tree.pages) tree.root h b)
    (hret : insert ops fuel tree key val = .ok tree') :
    (∃ o, Outline.Put key val (.tree h b) o)
      ∨ ∃ kv ∈ ins key val (flat h b), get ops fuel tree' kv.1 ≠ .ok (some kv.2) := by
  obtain ⟨hne, t, rfl, hsub⟩ := ht
  obtain ⟨buf, s₁, G, hbuf, hdel, hencb, hpage, hkid, -⟩ := hsub.root_freed hl
  rw [insert, if_neg hne, hbuf, ok_bind, hdel, ok_bind] at hret
  obtain ⟨⟨node, s₂⟩, hrec, hret⟩ := bind_eq_ok.mp hret
  obtain ⟨nodes, hsplit, hret⟩ := bind_eq_ok.mp hret
  obtain ⟨hends, -⟩ := treeInsert_ends hl hk hv h fuel t buf s₁ G _ hfuel hencb hpage hkid hrec
  obtain ⟨-, -, -, -, hklen, -⟩ := (treeInsert_calls key val fuel s₁ buf).get hrec
  dsimp only at hsplit hret hends hklen
  obtain ⟨hone, hthree, hshort⟩ := (indexes_nodeSplit3 node).get hsplit
  obtain ⟨hne', ⟨root, hroot, hover⟩, hkeep⟩ := rootOver_of_insert hl
    (hshort (Nat.le_of_eq hklen)) hone hthree hret
  have hlost : ∀ kv ∈ ins key val (flat h t), (∀ part ∈ nodes, Lacks (live s₂) kv.1 kv.2 part) →
      ∃ kv ∈ ins key val (flat h (strip h t)), get ops fuel tree' kv.1 ≠ .ok (some kv.2) := by
    intro kv hkv hlacks
    refine ⟨kv, by rw [flat_strip]; exact hkv, get_ne_of_lacks hl hne' hroot ?_ fuel⟩
    exact hover.lacks fun part hpart => (hlacks part hpart).mono hkeep
  cases hends with
  | @grown b' hgrow =>
      obtain ⟨t', rfl, hgrown⟩ := (treeInsert_grows hl hgrow fuel t buf s₁ G hfuel rfl hencb
        hpage.1 hkid).get hrec
      have hsize := Nat.le_trans hgrown.enc.nodeSize_le (Nat.le_of_eq hklen)
      obtain ⟨parts, hcut, -, -⟩ := nodeSplit3_pieces hgrown.enc hgrown.ne hsize
      by_cases hfit : ∀ part ∈ parts, nodeSize part ≤ btreePageSize
      · obtain ⟨bs, hbs⟩ := splits_of_grown hgrown.ne ⟨parts, hcut, hfit⟩
        obtain ⟨bufs, ts, hsp, hparts, hts⟩ := hbs.parts rfl hgrown.enc hgrown.ne
          hgrown.sub.good hgrown.sub.stored
        rw [hsplit] at hsp
        cases hsp
        obtain ⟨h', c, hrooted⟩ := hover.rooted hparts
        rw [hts] at hrooted
        exact Or.inl ⟨_, .grow hgrow hbs hrooted⟩
      · obtain ⟨kv, hkv, hlacks⟩ := parts_lack hgrown.enc hgrown.ne hsize
          hgrown.sub.sorted hsplit hcut hfit
        rw [hgrown.flat_eq] at hkv
        exact Or.inr (hlost kv hkv (hlacks _))
  | stuck hstuck => exact absurd hsplit (hstuck nodes)
  | lost hkv hlost' =>
      obtain ⟨-, -, hlacks⟩ := hlost'.split (Nat.le_of_eq hklen) hsplit
      exact Or.inr (hlost _ hkv hlacks)

/-- And so does the first insertion. -/
theorem insert_first_ends (hl : Lawful refusal ops live) {s : σ} {fuel : Nat} {tree' : BTree σ}
    (hk : key.length ≤ 2 * btreePageSize) (hv : val.length ≤ 2 * btreePageSize)
    (hret : insert ops fuel ⟨0, s⟩ key val = .ok tree') :
    (∃ o, Outline.Put key val .empty o) ∨ get ops fuel tree' key ≠ .ok (some val) := by
  by_cases hfit : header + pairSize (key, val) ≤ btreePageSize
  · exact Or.inl ⟨_, .first hfit⟩
  rw [insert, if_pos rfl] at hret
  obtain ⟨b₀, hb₀, hret⟩ := bind_eq_ok.mp hret
  obtain ⟨b, hb, hret⟩ := bind_eq_ok.mp hret
  obtain ⟨⟨p, s₁⟩, hpage, hret⟩ := bind_eq_ok.mp hret
  obtain ⟨hne, hp, -⟩ := newPage_ok hl hpage
  cases hret
  refine Or.inr (get_ne_of_lacks hl hne hp ?_ fuel)
  have hsize : nodeSize [(⟨0, key, val⟩ : Entry)] = header + pairSize (key, val) := by
    rw [nodeSize_cons, nodeSize_nil, Entry.size, pairSize]
    dsimp only
    omega
  have hbuild : build (make btreePageSize) bnodeLeaf [⟨0, key, val⟩] = .ok b := by
    rw [build, List.length_singleton, hb₀, ok_bind, appendAll, hb]
    rfl
  have hpiece : IsPiece bnodeLeaf b ([] ++ [⟨0, key, val⟩]) := by
    refine isPiece_of_build (by decide) ?_ hbuild
    rw [List.nil_append, hsize]
    simp only [pairSize, header, btreePageSize] at hk hv ⊢
    omega
  exact hpiece.lacks_last (by rw [List.nil_append, hsize]; omega) fun f hf => by cases hf

-- ======================================================== outlines

/-- The pages hold, beside the frame `F`, a tree with this outline. -/
inductive HasOutline (F m : Ptr → Option BNode) (root : Ptr) : Outline → Prop where
  | empty (hroot : root = 0) (hframe : m = F) : HasOutline F m root .empty
  | tree {h : Nat} {b : Tree h} (hshape : HasShape F m root h b) :
      HasOutline F m root (.tree h b)

def Outline.height : Outline → Nat
  | .empty => 0
  | .tree h _ => h

theorem Rooted.height_le {h' : Nat} {bs : List (Tree h)} {c : Tree h'}
    (hroot : Rooted h bs h' c) : h' ≤ h + 1 := by
  cases hroot <;> omega

theorem Outline.Put.height_le {o o' : Outline} (hput : Outline.Put key val o o') :
    o'.height ≤ o.height + 1 := by
  cases hput with
  | first => exact Nat.zero_le _
  | grow _ _ hroot => exact hroot.height_le

theorem HasOutline.get (hl : Lawful refusal ops live) {F : Ptr → Option BNode} {o : Outline}
    {fuel : Nat} {tree : BTree σ} (ho : HasOutline F (live tree.pages) tree.root o)
    (hfuel : o.height < fuel) (k : Bytes) : get ops fuel tree k = .ok (o.pairs.lookup k) := by
  cases ho with
  | empty hroot hframe =>
      rw [Btree.get, if_pos hroot]
      rfl
  | @tree h b hshape =>
      obtain ⟨hne, t, rfl, hsub⟩ := hshape
      have ht : HasTree F (live tree.pages) (h + 1) tree.root (flat h t) :=
        .tree hne h t (Nat.lt_succ_self h) hsub rfl
      rw [get_spec hl k hfuel ht, Outline.pairs, flat_strip]

theorem HasOutline.sorted {F m : Ptr → Option BNode} {root : Ptr} {o : Outline}
    (ho : HasOutline F m root o) : Sorted o.pairs := by
  cases ho with
  | empty => exact List.Pairwise.nil
  | tree hshape =>
      obtain ⟨-, t, rfl, hsub⟩ := hshape
      have hs := hsub.sorted
      rw [flat_single] at hs
      rw [Outline.pairs, flat_strip]
      exact hs

/-- An insertion that fits leaves the outline computed. -/
theorem insert_put (hl : Lawful refusal ops live) {F : Ptr → Option BNode} {o o' : Outline}
    {fuel : Nat} {tree : BTree σ} (hput : Outline.Put key val o o')
    (hfuel : o.height < fuel) (ho : HasOutline F (live tree.pages) tree.root o) :
    Returns refusal (insert ops fuel tree key val) fun tree' =>
      HasOutline F (live tree'.pages) tree'.root o' ∧ o'.pairs = ins key val o.pairs := by
  obtain ⟨root, s⟩ := tree
  cases hput with
  | first hfit =>
      cases ho with
      | empty hroot hframe =>
          obtain rfl : root = 0 := hroot
          refine (insert_first hl s fuel key val hfit).mono fun tree' hshape => ?_
          rw [show live s = F from hframe] at hshape
          exact ⟨.tree hshape, rfl⟩
  | grow hgrow hsplit hroot =>
      cases ho with
      | tree hshape =>
          refine (insert_grows hl hfuel hgrow hsplit hroot hshape).mono fun tree' h' => ?_
          exact ⟨.tree h'.1, h'.2⟩

/-- One that returns and does not fit loses a pair. -/
theorem HasOutline.insert_ends (hl : Lawful refusal ops live)
    {F : Ptr → Option BNode} {o : Outline} {fuel : Nat} {tree tree' : BTree σ}
    (hk : key.length ≤ 2 * btreePageSize) (hv : val.length ≤ 2 * btreePageSize)
    (hfuel : o.height < fuel) (ho : HasOutline F (live tree.pages) tree.root o)
    (hret : insert ops fuel tree key val = .ok tree') :
    (∃ o', Outline.Put key val o o')
      ∨ ∃ kv ∈ ins key val o.pairs, Btree.get ops fuel tree' kv.1 ≠ .ok (some kv.2) := by
  cases ho with
  | empty hroot hframe =>
      obtain ⟨root, s⟩ := tree
      obtain rfl : root = 0 := hroot
      refine (insert_first_ends hl hk hv hret).imp_right fun hget => ⟨(key, val), ?_, hget⟩
      exact List.mem_cons_self ..
  | tree hshape => exact Btree.insert_ends hl hk hv hfuel hshape hret

/-- Insertions that all fit: the tree has the outline computed. The
induction is on the calls; each raises the height by one at most. -/
theorem insertAll_outline (hl : Lawful refusal ops live) (hp : Paging ops) {F : Ptr → Option BNode}
    {fuel : Nat} {o o' : Outline} {calls : List (Bytes × Bytes)}
    (hput : Outline.PutAll o calls o') :
    ∀ {tree tree' : BTree σ}, o.height + calls.length < fuel →
      HasOutline F (live tree.pages) tree.root o → Paged ops tree.pages →
      insertAll ops fuel tree calls = .ok tree' →
      HasOutline F (live tree'.pages) tree'.root o' ∧ Paged ops tree'.pages
        ∧ o'.height ≤ o.height + calls.length := by
  induction hput with
  | nil =>
      intro tree tree' hfuel ho hpaged hret
      cases hret
      exact ⟨ho, hpaged, Nat.le_refl _⟩
  | @cons o₁ o₂ o₃ kv calls hput hrest ih =>
      intro tree tree' hfuel ho hpaged hret
      rw [List.length_cons] at hfuel ⊢
      rw [insertAll, List.foldlM_cons] at hret
      obtain ⟨tree₁, hins, hret⟩ := bind_eq_ok.mp hret
      have hheight := hput.height_le
      obtain ⟨ho₁, -⟩ := (insert_put hl hput (by omega) ho).get hins
      obtain ⟨ho', hpaged', hle⟩ := ih (by omega) ho₁ (insert_paged hp hpaged hins) hret
      exact ⟨ho', hpaged', by omega⟩

theorem Outline.PutAll.snoc {o₁ o₂ o₃ : Outline} {calls : List (Bytes × Bytes)}
    (hall : Outline.PutAll o₁ calls o₂) (hput : Outline.Put key val o₂ o₃) :
    Outline.PutAll o₁ (calls ++ [(key, val)]) o₃ := by
  induction hall with
  | nil => exact .cons hput .nil
  | cons hfirst _ ih => exact .cons hfirst (ih hput)

theorem Outline.PutAll.of_snoc {calls : List (Bytes × Bytes)} :
    ∀ {o₁ o₃ : Outline}, Outline.PutAll o₁ (calls ++ [(key, val)]) o₃ →
      ∃ o₂, Outline.PutAll o₁ calls o₂ ∧ Outline.Put key val o₂ o₃ := by
  induction calls with
  | nil =>
      intro o₁ o₃ h
      cases h with
      | cons hput hrest =>
          cases hrest
          exact ⟨o₁, .nil, hput⟩
  | cons kv calls ih =>
      intro o₁ o₃ h
      cases h with
      | cons hput hrest =>
          obtain ⟨o₂, hall, hlast⟩ := ih hrest
          exact ⟨o₂, .cons hput hall, hlast⟩

-- ====================================================== the result

/-- **An insertion does no harm exactly if it fits.** Into any tree that
insertions which all fit have made, over any store of pages: the pair may
have any size. Unless the store has no page left, the insertion returns
and leaves every key with its value if and only if the pair fits on top
of the earlier ones. -/
theorem harmless_iff_allFit (hl : Lawful refusal ops live) (hp : Paging ops) {s : σ}
    (hpaged : Paged ops s) {calls : List (Bytes × Bytes)} (hcalls : AllFit calls)
    {fuel : Nat} (hfuel : calls.length + 1 < fuel) {tree : BTree σ}
    (hrun : insertAll ops fuel ⟨0, s⟩ calls = .ok tree) (key val : Bytes)
    (hpage : insert ops fuel tree key val ≠ .error refusal) :
    Harmless ops fuel tree key val ↔ AllFit (calls ++ [(key, val)]) := by
  have hstart : HasOutline (live s) (live s) 0 .empty := .empty rfl rfl
  have hlen : Outline.empty.height + calls.length < fuel := by
    rw [Outline.height]
    omega
  constructor
  · intro hharm
    obtain ⟨o, hall⟩ := hcalls
    obtain ⟨ho, hpaged', hheight⟩ := insertAll_outline hl hp hall hlen hstart hpaged hrun
    rw [Outline.height, Nat.zero_add] at hheight
    obtain ⟨hk, hv⟩ := hharm.length_le hp hpaged'
    obtain ⟨tree', hins, hget⟩ := hharm
    rcases ho.insert_ends hl hk hv (by omega) hins with ⟨o', hput⟩ | hlost
    · exact ⟨o', hall.snoc hput⟩
    · -- every pair of the new map is found, so none is lost
      obtain ⟨kv, hkv, hne⟩ := hlost
      refine absurd ?_ hne
      have hlook := (sorted_ins (k := key) (v := val) ho.sorted).lookup_of_mem hkv
      rw [lookup_ins] at hlook
      rw [hget, ho.get hl (by omega)]
      split at hlook
      · next heq =>
          rw [if_pos heq, hlook]
      · next hneq =>
          rw [if_neg hneq, hlook]
  · intro hall
    obtain ⟨o', hall⟩ := hall
    obtain ⟨o, hall, hput⟩ := hall.of_snoc
    obtain ⟨ho, -, hheight⟩ := insertAll_outline hl hp hall hlen hstart hpaged hrun
    rw [Outline.height, Nat.zero_add] at hheight
    have hheight' := hput.height_le
    have hbelow : o.height < fuel := by omega
    have hbelow' : o'.height < fuel := by omega
    rcases insert_put hl hput hbelow ho with ⟨tree', hins, ho', hpairs⟩ | ⟨e, herr, he⟩
    · refine ⟨tree', hins, fun k => ?_⟩
      rw [ho'.get hl hbelow', hpairs, lookup_ins, ho.get hl hbelow]
      split
      · rfl
      · rfl
    · rw [he] at herr
      exact absurd herr hpage

end Store

-- ======================================================= in memory

theorem memOps_getPage {s : MemStore} {p : Ptr} {node : BNode}
    (h : memOps.getPage s p = .ok node) : s.pages p = some node := by
  cases hp : s.pages p with
  | none =>
      rw [memOps_getPage_none hp] at h
      cases h
  | some kid =>
      rw [memOps_getPage_some hp] at h
      cases h
      rfl

theorem memOps_paging : Paging memOps where
  newPage s node r hs hlen h := by
    obtain ⟨-, -, hupd⟩ := (memOps_lawful.newPage s node).get h
    intro p kid hp
    have hp := memOps_getPage hp
    rw [hupd] at hp
    by_cases heq : p = r.1
    · rw [heq, Function.update_self] at hp
      cases hp
      exact hlen
    · rw [Function.update_of_ne heq] at hp
      exact hs p kid (memOps_lawful.getPage _ _ _ hp)
  delPage s p s' hs h := by
    intro q kid hq
    have hq := memOps_getPage hq
    cases hp : s.pages p with
    | none =>
        rw [memOps_delPage_none hp] at h
        cases h
    | some node =>
        rw [memOps_delPage_some hp] at h
        cases h
        have hq' : Function.update s.pages p none q = some kid := hq
        by_cases heq : q = p
        · rw [heq, Function.update_self] at hq'
          cases hq'
        · rw [Function.update_of_ne heq] at hq'
          exact hs q kid (memOps_getPage_some hq')

theorem paged_empty : Paged memOps MemStore.empty := by
  intro p node h
  cases memOps_getPage h

/-- A value of 3500 bytes is above the limit and fits beside a short one. -/
theorem harmless_iff_allFit_beside :
    ∃ tree, insertAll memOps 3 ⟨0, .empty⟩ [([0], [7])] = .ok tree
      ∧ (Harmless memOps 3 tree [1] (make 3500)
        ↔ AllFit ([([0], [7])] ++ [([1], make 3500)])) := by
  have hfirst : Outline.Put [0] [7] .empty (.tree 0 [([0], [7])]) := .first (by decide)
  have hput : Returns .noPage (insert memOps 3 ⟨0, .empty⟩ [0] [7]) fun tree' =>
      HasOutline MemStore.empty.pages tree'.pages.pages tree'.root (.tree 0 [([0], [7])])
        ∧ Outline.pairs (.tree 0 [([0], [7])]) = ins [0] [7] Outline.empty.pairs :=
    insert_put memOps_lawful hfirst (by decide) (.empty rfl rfl)
  obtain ⟨tree, hins, -, hnext⟩ := memOps_numbered.returns (insert_calls ..) (by decide) hput
  have hrun : insertAll memOps 3 ⟨0, .empty⟩ [([0], [7])] = .ok tree := by
    rw [insertAll, List.foldlM_cons, hins, ok_bind]
    rfl
  have hroom : tree.pages.next + (3 * 3 + 4) ≤ 2 ^ 64 := by
    have hone : MemStore.empty.next = 1 := rfl
    dsimp only at hnext
    omega
  refine ⟨tree, hrun, ?_⟩
  exact harmless_iff_allFit memOps_lawful memOps_paging paged_empty ⟨_, .cons hfirst .nil⟩
    (by decide) hrun [1] (make 3500) (memOps_numbered.ne_noPage (insert_calls ..) hroom)

/-- A value of 5000 bytes as the first pair: `Insert` drops its end and
returns, and `Get` of the key panics. -/
theorem longValue_harms :
    (insert memOps 2 ⟨0, .empty⟩ [1] (make 5000)).isOk = true
      ∧ (insert memOps 2 ⟨0, .empty⟩ [1] (make 5000) >>= fun tree => get memOps 2 tree [1])
        = .error .index
      ∧ ¬ Harmless memOps 2 ⟨0, .empty⟩ [1] (make 5000) := by
  have hrun : (insert memOps 2 ⟨0, .empty⟩ [1] (make 5000)).isOk = true
      ∧ (insert memOps 2 ⟨0, .empty⟩ [1] (make 5000) >>= fun tree => get memOps 2 tree [1])
        = .error .index := by decide +kernel
  refine ⟨hrun.1, hrun.2, fun hharm => ?_⟩
  obtain ⟨tree', hins, hget⟩ := hharm
  have herr := hrun.2
  rw [hins, ok_bind, hget, if_pos rfl] at herr
  cases herr

end Svacara.Btree
