/-
One level of an insertion.

`Subtree F m P h t` bundles what is known of a node while an operation
works on it: the pages below it are held, beside the frame `F`, they
store the tree, every kid satisfies the page predicate `P`, and the
pairs are in order. A leaf takes the pair (`treeInsert_leaf_eq`), and a
node the parts of the kid that took it (`treeInsert_at_kid`,
`replace_fits`).
-/
import Svacara.Btree.Proofs.Kids
import Svacara.Btree.Proofs.Split

namespace Svacara.Btree

open Outcome Heap SortedMap

variable {σ : Type} {refusal : Fault} {ops : PageOps σ} {live : σ → Ptr → Option BNode}

-- ==================================================== the workload

/-- 13-byte keys and values of at most 1000 bytes. -/
def Rows (l : List (Bytes × Bytes)) : Prop :=
  ∀ kv ∈ l, kv.1.length = 13 ∧ kv.2.length ≤ 1000

theorem rowPage_ne {es : List Entry} (h : RowPage es) : es ≠ [] := h.1

/-- The first key of a non-empty row node has 13 bytes. -/
theorem firstKey_length {h : Nat} {t : Tree h} (hg : Good RowPage h t)
    (hne : entries h t ≠ []) (hr : Rows (flat h t)) :
    (firstKey (entries h t)).length = 13 := by
  obtain ⟨e, he, hkey⟩ := firstKey_mem (fun _ => rowPage_ne) hg hne
  rw [hkey]
  exact (hr e he).1

theorem Rows.flat_kid {h : Nat} {kids : List (Ptr × Tree h)}
    (hr : Rows (flat (h + 1) (ofKids kids))) {k : Ptr × Tree h}
    (hk : k ∈ kids) : Rows (flat h k.2) :=
  fun kv hkv => hr kv (List.mem_flatMap.mpr ⟨k, hk, hkv⟩)

/-- Rows make row entries, at every level. -/
theorem rowEntries_entries : ∀ {h : Nat} {t : Tree h},
    Good RowPage h t → Rows (flat h t) → RowEntries (entries h t)
  | 0, _, _, hr => by
      intro e he
      obtain ⟨kv, hkv, rfl⟩ := List.mem_map.mp he
      exact hr kv hkv
  | h + 1, kids, hg, hr => by
      intro e he
      obtain ⟨k, hk, rfl⟩ := List.mem_map.mp he
      exact ⟨firstKey_length (hg k hk).2 (hg k hk).1.1 (Rows.flat_kid hr hk),
        Nat.zero_le _⟩

/-- An entry for a row kid takes 17 bytes. -/
theorem kidsSize_rows {h : Nat} {ts : List (Tree h)}
    (hts : ∀ t ∈ ts, (firstKey (entries h t)).length = 13) :
    kidsSize ts = 17 * ts.length := by
  induction ts with
  | nil => rfl
  | cons t ts ih =>
      have := ih fun t' ht' => hts t' (List.mem_cons_of_mem _ ht')
      simp only [kidsSize, List.map_cons, List.sum_cons,
        hts t (List.mem_cons_self ..), List.length_cons] at this ⊢
      omega

/-- The size of a node over such kids depends on their number. -/
theorem nodeSize_narrow {h : Nat} {kids : List (Ptr × Tree h)}
    (hkids : ∀ k ∈ kids, (firstKey (entries h k.2)).length = 13) :
    nodeSize (entries (h + 1) (ofKids kids)) = header + 27 * kids.length := by
  rw [nodeSize, entries_ofKids, kvSize_kidEntry, kidsSize_rows, List.length_map, List.length_map]
  · omega
  · intro t ht
    obtain ⟨k, hk, rfl⟩ := List.mem_map.mp ht
    exact hkids k hk

-- ==================================================== the contract

/-- A node an operation works on. -/
structure Subtree (F m : Ptr → Option BNode) (P : List Entry → Prop) (h : Nat)
    (t : Tree h) : Prop where
  owned : Owned F m (pages h t)
  stored : Stored m h t
  good : Good P h t
  sorted : Sorted (flat h t)

theorem rows_ins {l : List (Bytes × Bytes)} {key val : Bytes} (hr : Rows l)
    (hk : key.length = 13) (hv : val.length ≤ 1000) : Rows (ins key val l) := by
  intro kv hkv
  rcases mem_ins hkv with rfl | hkv
  · exact ⟨hk, hv⟩
  · exact hr kv hkv

-- ========================================================== a leaf

section Leaf

variable {key val : Bytes}

/-- The room a pair takes in a leaf. -/
def pairSize (kv : Bytes × Bytes) : Nat := 14 + kv.1.length + kv.2.length

theorem nodeSize_pairs (l : List (Bytes × Bytes)) :
    nodeSize (entries 0 l) = header + (l.map pairSize).sum := by
  induction l with
  | nil => rfl
  | cons kv l ih =>
      have hcons := nodeSize_cons ⟨0, kv.1, kv.2⟩ (entries 0 l)
      rw [Entry.size] at hcons
      rw [List.map_cons, List.sum_cons, pairSize]
      exact hcons.trans (by simp only; omega)

/-- One more pair takes at most its own room. -/
theorem nodeSize_ins (key val : Bytes) (l : List (Bytes × Bytes)) :
    nodeSize (entries 0 (ins key val l)) ≤ nodeSize (entries 0 l) + pairSize (key, val) := by
  have hsum := sum_ins_le (k := key) (v := val) pairSize l
  rw [nodeSize_pairs, nodeSize_pairs]
  omega

/-- At a leaf, `treeInsert` builds the leaf with the pair put in, whether
or not it fits. -/
theorem treeInsert_leaf_eq (ops : PageOps σ) (fuel : Nat) (s : σ) (key val : Bytes)
    {node : BNode}
    {kvs : List (Bytes × Bytes)} (hnode : Encodes node bnodeLeaf (entries 0 kvs))
    (hs : Sorted kvs) (hne : kvs ≠ []) :
    treeInsert ops (fuel + 1) s node key val
      = (build (make (2 * btreePageSize)) bnodeLeaf (entries 0 (ins key val kvs)) >>=
        fun new => .ok (new, s)) := by
  obtain ⟨L, kv, R, rfl, hlook, hL, hR, hle⟩ := lookup_leaf key hnode hs hne
  have hes := entries_around L kv R
  have hLlen : (entries 0 L).length = L.length := List.length_map ..
  have hRlen : (entries 0 R).length = R.length := List.length_map ..
  have hat := getElem?_entries_around L kv R
  have hn : nkeys node = .ok (L ++ kv :: R).length := by
    rw [hnode.nkeys]
    exact congrArg Except.ok (List.length_map _)
  -- a node has ten bytes of slots for each entry, so one more can be counted
  have hlt : L.length + R.length + 2 < 65536 := by
    have hfits := Holds.fits hnode
    have hsmall := Holds.small hnode
    have hlen : (entries 0 (L ++ kv :: R)).length = L.length + (R.length + 1) := by
      rw [hes, List.length_append, List.length_cons, hLlen, hRlen]
    rw [hlen] at hfits
    omega
  rw [treeInsert]
  simp only [hlook, ok_bind, Holds.btype hnode, if_pos, hn,
    Holds.getKey hnode hat]
  rw [if_neg (by simp)]
  by_cases heq : cmp key kv.1 = 0
  · -- the key is there: its value is replaced
    rw [if_pos heq]
    obtain ⟨kk, w⟩ := kv
    obtain rfl : key = kk := cmp_eq_zero_iff.mp heq
    rw [hes] at hnode
    have hins : ins key val (L ++ (key, w) :: R) = L ++ (key, val) :: R := ins_replace hL hR
    rw [hins, entries_around L (key, val) R, ← leafUpdate_eq _ key val hnode, hLlen]
    rfl
  · rw [if_neg heq]
    by_cases hgt : 0 < cmp key kv.1
    · -- it goes right behind the entry found
      have hlt' : kv.1 < key := cmp_pos_iff.mp hgt
      have hL' : AllLt (L ++ [kv]) key := by
        intro e he
        rcases List.mem_append.mp he with he | he
        · exact hL e he
        · rw [List.mem_singleton.mp he]
          exact hlt'
      have hshift : L ++ kv :: R = (L ++ [kv]) ++ R := by
        rw [List.append_assoc, List.singleton_append]
      have hlen' : (entries 0 (L ++ [kv])).length = L.length + 1 := by
        simp [entries]
      rw [hshift, show entries 0 ((L ++ [kv]) ++ R) = entries 0 (L ++ [kv]) ++ entries 0 R
        from List.map_append] at hnode
      rw [hshift, ins_between hL' hR, entries_around (L ++ [kv]) (key, val) R,
        ← leafInsert_eq _ key val hnode (by omega), hlen', if_pos hgt,
        u16_of_lt (by omega)]
      rfl
    · -- it is in front of every entry
      have hlt' : key < kv.1 :=
        lt_of_le_of_ne (not_lt.mp (mt cmp_pos_iff.mpr hgt))
          (mt cmp_eq_zero_iff.mpr heq)
      have hR' : AllGt key (kv :: R) := by
        intro e he
        rcases List.mem_cons.mp he with rfl | he
        · exact hlt'
        · exact hR e he
      rw [hes] at hnode
      rw [ins_between hL hR', entries_around L (key, val) (kv :: R),
        show entries 0 (kv :: R) = ⟨0, kv.1, kv.2⟩ :: entries 0 R from rfl,
        ← leafInsert_eq _ key val hnode (by rw [List.length_cons]; omega), hLlen,
        if_neg hgt]
      rfl

/-- A leaf takes a pair of any size that the buffer has room for. -/
theorem treeInsert_leaf_fits (ops : PageOps σ) (fuel : Nat) (s : σ) (key val : Bytes)
    {node : BNode}
    {kvs : List (Bytes × Bytes)} (hnode : Encodes node bnodeLeaf (entries 0 kvs))
    (hs : Sorted kvs) (hne : kvs ≠ [])
    (hfit : nodeSize (entries 0 (ins key val kvs)) ≤ 2 * btreePageSize) :
    ∃ new, treeInsert ops (fuel + 1) s node key val = .ok (new, s)
      ∧ Encodes new bnodeLeaf (entries 0 (ins key val kvs)) := by
  obtain ⟨new, hnew, henc, -⟩ := build_encodes (make (2 * btreePageSize)) bnodeLeaf _
    (by rw [length_make]; decide) (by decide) (by rw [length_make]; exact hfit)
  exact ⟨new, by rw [treeInsert_leaf_eq ops fuel s key val hnode hs hne, hnew, ok_bind], henc⟩

end Leaf

-- ================================================= the split parts

/-- The nodes `bufs` that `nodeSplit3` makes of one node over `t`: one to
three pages with the trees `ts`, which together are `t`. -/
structure Parts (m : Ptr → Option BNode) (h : Nat) (t : Tree h)
    (bufs : List BNode) (ts : List (Tree h)) : Prop where
  parts : List.Forall₂ IsPart bufs ts
  count : 1 ≤ ts.length ∧ ts.length ≤ 3
  flat_eq : ts.flatMap (flat h) = flat h t
  pages_eq : ts.flatMap (pages h) = pages h t
  page : ∀ u ∈ ts, RowPage (entries h u)
  good : ∀ u ∈ ts, Good RowPage h u
  stored : ∀ u ∈ ts, Stored m h u

/-- A node that fits is its own only part. -/
theorem Parts.single {m : Ptr → Option BNode} {h : Nat} {t : Tree h} {b : BNode}
    (henc : Encodes b (nodeType h) (entries h t)) (hpage : RowPage (entries h t))
    (hg : Good RowPage h t) (hst : Stored m h t) : Parts m h t [b] [t] where
  parts := .cons ⟨henc, hpage.1⟩ .nil
  count := by simp
  flat_eq := List.flatMap_singleton ..
  pages_eq := List.flatMap_singleton ..
  page := List.forall_mem_singleton.mpr hpage
  good := List.forall_mem_singleton.mpr hg
  stored := List.forall_mem_singleton.mpr hst

/-- Two pages side by side are the parts of the node they came from. -/
theorem Parts.pair {m : Ptr → Option BNode} {h : Nat} {u v : Tree h} {l r : BNode}
    (hl : Encodes l (nodeType h) (entries h u)) (hr : Encodes r (nodeType h) (entries h v))
    (hu : RowPage (entries h u)) (hv : RowPage (entries h v))
    (hg : Good RowPage h (append h u v)) (hst : Stored m h (append h u v)) :
    Parts m h (append h u v) [l, r] [u, v] := by
  obtain ⟨hgu, hgv⟩ := good_append.mp hg
  obtain ⟨hsu, hsv⟩ := stored_append.mp hst
  have hall : ∀ {Q : Tree h → Prop}, Q u → Q v → ∀ w ∈ [u, v], Q w := by
    intro Q hu hv w hw
    rcases List.mem_pair.mp hw with rfl | rfl
    · exact hu
    · exact hv
  refine ⟨?_, by simp, ?_, ?_, hall hu hv, hall hgu hgv, hall hsu hsv⟩
  · exact .cons ⟨hl, hu.1⟩ (.cons ⟨hr, hv.1⟩ .nil)
  · simp [flat_append]
  · simp [pages_append]

/-- And three. -/
theorem Parts.triple {m : Ptr → Option BNode} {h : Nat} {u v w : Tree h} {l c r : BNode}
    (hl : Encodes l (nodeType h) (entries h u)) (hc : Encodes c (nodeType h) (entries h v))
    (hr : Encodes r (nodeType h) (entries h w)) (hu : RowPage (entries h u))
    (hv : RowPage (entries h v)) (hw : RowPage (entries h w))
    (hg : Good RowPage h (append h (append h u v) w))
    (hst : Stored m h (append h (append h u v) w)) :
    Parts m h (append h (append h u v) w) [l, c, r] [u, v, w] := by
  obtain ⟨hguv, hgw⟩ := good_append.mp hg
  obtain ⟨hsuv, hsw⟩ := stored_append.mp hst
  have hrest := Parts.pair hl hc hu hv hguv hsuv
  have hall : ∀ {Q : Tree h → Prop}, (∀ x ∈ [u, v], Q x) → Q w → ∀ x ∈ [u, v, w], Q x := by
    intro Q hpair hw x hx
    rcases List.mem_append.mp (show x ∈ [u, v] ++ [w] from hx) with hx | hx
    · exact hpair x hx
    · rw [List.mem_singleton.mp hx]
      exact hw
  refine ⟨?_, by simp, ?_, ?_, hall hrest.page hw, hall hrest.good hgw,
    hall hrest.stored hsw⟩
  · exact .cons ⟨hl, hu.1⟩ (.cons ⟨hc, hv.1⟩ (.cons ⟨hr, hw.1⟩ .nil))
  · simp [flat_append]
  · simp [pages_append]

/-- The kids made from the parts are pages of the tree. -/
theorem Parts.good_kids {m : Ptr → Option BNode} {h : Nat} {t : Tree h}
    {bufs : List BNode} {ts : List (Tree h)} {ks : List (Ptr × Tree h)}
    (hp : Parts m h t bufs ts) (hks : ks.map Prod.snd = ts) :
    Good RowPage (h + 1) (ofKids ks) := by
  intro k hk
  have hmem : k.2 ∈ ts := by
    rw [← hks]
    exact List.mem_map_of_mem hk
  exact ⟨hp.page k.2 hmem, hp.good k.2 hmem⟩

-- ================================================== internal nodes

section Internal

variable {h : Nat} {P : List Entry → Prop} {F : Ptr → Option BNode}
  {L R : List (Ptr × Tree h)} {k : Ptr × Tree h}

/-- The kid the search takes, and its page. -/
theorem Subtree.kid (hl : Lawful refusal ops live) {s : σ}
    (hsub : Subtree F (live s) P (h + 1) (ofKids (L ++ k :: R))) :
    ∃ buf, ops.getPage s k.1 = .ok buf
      ∧ Encodes buf (nodeType h) (entries h k.2) := by
  obtain ⟨⟨buf, hbuf, henc⟩, -⟩ := hsub.stored k List.mem_append_cons_self
  exact ⟨buf, hl.getPage s k.1 buf hbuf, henc⟩

/-- A kid is a subtree beside its siblings and its own page, and what
its part of the pages becomes leaves those as they are. -/
theorem Subtree.focus {m : Ptr → Option BNode}
    (hsub : Subtree F m P (h + 1) (ofKids (L ++ k :: R))) :
    ∃ G, Subtree G m P h k.2
      ∧ ∀ m' ps, Owned G m' ps → Owned F m' (k.1 :: (ps ++ restPages L R))
        ∧ ∀ p ∈ restPages L R, m' p = m p := by
  have hmem : k ∈ L ++ k :: R := List.mem_append_cons_self
  have hown : Owned F m (pages h k.2 ++ k.1 :: restPages L R) :=
    (hsub.owned.perm (pages_around L R k)).perm List.perm_middle.symm
  obtain ⟨hkid, hrest⟩ := hown.split
  refine ⟨hide (pages h k.2) m, ⟨hkid, (hsub.stored k hmem).2,
    (hsub.good k hmem).2, Sorted.flat_kid hsub.sorted hmem⟩, ?_⟩
  intro m' ps hps
  refine ⟨(hrest.join hps).perm List.perm_middle, fun p hp => ?_⟩
  have hp' : p ∈ k.1 :: restPages L R := List.mem_cons_of_mem _ hp
  rw [hps.eq_of_frame (hrest.live p hp'), hown.hide_eq hp']

/-- The same once the kid's own page has been freed. -/
theorem Subtree.focus_freed {m : Ptr → Option BNode}
    (hsub : Subtree F m P (h + 1) (ofKids (L ++ k :: R))) :
    ∃ G, Subtree G (Function.update m k.1 none) P h k.2
      ∧ ∀ m' ps, Owned G m' ps → Owned F m' (ps ++ restPages L R)
        ∧ ∀ p ∈ restPages L R, m' p = m p := by
  have hmem : k ∈ L ++ k :: R := List.mem_append_cons_self
  have hfull := hsub.owned.perm (pages_around L R k)
  have hout := (List.nodup_cons.mp hfull.nodup).1
  have hown := hfull.erase
  obtain ⟨hkid, hrest⟩ := hown.split
  refine ⟨_, ⟨hkid, ?_, (hsub.good k hmem).2,
    Sorted.flat_kid hsub.sorted hmem⟩, ?_⟩
  · exact (hsub.stored k hmem).2.erase fun hp =>
      hout (List.mem_append_left _ hp)
  · intro m' ps hps
    refine ⟨hrest.join hps, fun p hp => ?_⟩
    have hne : p ≠ k.1 := by
      rintro rfl
      exact hout (List.mem_append_right _ hp)
    rw [hps.eq_of_frame (hrest.live p hp), hown.hide_eq hp,
      Function.update_of_ne hne]

/-- Freeing a page that no tree uses leaves the tree behind it and the
pages beside it as they are. -/
theorem delPage_unused (hl : Lawful refusal ops live) {s : σ} {p : Ptr} {ps : List Ptr} {t : Tree h}
    (hown : Owned F (live s) (p :: (pages h t ++ ps))) (hst : Stored (live s) h t) :
    ∃ s', ops.delPage s p = .ok s' ∧ Owned F (live s') (pages h t ++ ps)
      ∧ Stored (live s') h t ∧ ∀ q ∈ ps, live s' q = live s q := by
  obtain ⟨s', hdel, hlive⟩ := hl.delPage s p (hown.live p (List.mem_cons_self ..))
  have hout := (List.nodup_cons.mp hown.nodup).1
  refine ⟨s', hdel, ?_, ?_, fun q hq => ?_⟩
  · rw [hlive]
    exact hown.erase
  · rw [hlive]
    exact hst.erase fun hp => hout (List.mem_append_left _ hp)
  · have hne : q ≠ p := by
      rintro rfl
      exact hout (List.mem_append_right _ hq)
    rw [hlive, Function.update_of_ne hne]

/-- A node put together again around new kids. -/
theorem Subtree.rebuild {m m' : Ptr → Option BNode} (olds : List (Ptr × Tree h))
    {ks : List (Ptr × Tree h)}
    (hsub : Subtree F m P (h + 1) (ofKids (L ++ (olds ++ R))))
    (hown : Owned F m' (pages (h + 1) (ofKids ks) ++ restPages L R))
    (hkeep : ∀ p ∈ restPages L R, m' p = m p)
    (hst : Stored m' (h + 1) (ofKids ks)) (hg : Good P (h + 1) (ofKids ks))
    (hs : Sorted (flat (h + 1) (ofKids (L ++ (ks ++ R))))) :
    Subtree F m' P (h + 1) (ofKids (L ++ (ks ++ R))) where
  owned := hown.perm (pages_run L R ks)
  stored := stored_run hsub.stored hkeep hst
  good := good_run hsub.good hg
  sorted := hs

end Internal

-- ======================================================= one level

section Level

variable {h : Nat} {F : Ptr → Option BNode} {L R : List (Ptr × Tree h)}
  {k : Ptr × Tree h}

/-- `nodeReplaceKidN` on a node: the parts of one kid's new node take its
place, if the buffer has room for them. -/
theorem replace_fits (hl : Lawful refusal ops live) {s s₂ : σ} {node : BNode}
    (buf : BNode) {t' : Tree h} {bufs : List BNode} {ts : List (Tree h)}
    (hnode : Encodes node bnodeInternal (entries (h + 1) (ofKids (L ++ k :: R))))
    (hsub : Subtree F (live s) RowPage (h + 1) (ofKids (L ++ k :: R)))
    (hparts : Parts (live s₂) h t' bufs ts)
    (hown : Owned F (live s₂) (pages h t' ++ restPages L R))
    (hkeep : ∀ p ∈ restPages L R, live s₂ p = live s p)
    (hs : Sorted (flat (h + 1) (ofKids L)
      ++ (flat h t' ++ flat (h + 1) (ofKids R))))
    (hsmall : buf.length < 65536)
    (hfit : header + 10 * (L.length + ts.length + R.length)
      + kidsSize (L.map Prod.snd) + kidsSize ts + kidsSize (R.map Prod.snd)
      ≤ buf.length) :
    Returns refusal (nodeReplaceKidN ops buf node L.length bufs s₂) fun r =>
      ∃ ks : List (Ptr × Tree h), ks.map Prod.snd = ts
        ∧ flat (h + 1) (ofKids ks) = flat h t'
        ∧ Encodes r.1 bnodeInternal (entries (h + 1) (ofKids (L ++ (ks ++ R))))
        ∧ Subtree F (live r.2) RowPage (h + 1) (ofKids (L ++ (ks ++ R))) := by
  refine (replace_spec hl hnode hsmall hparts.parts hfit
    (by rw [hparts.pages_eq]; exact hown) hparts.stored).mono ?_
  rintro ⟨new, s₃⟩ ⟨ks, hks, henc, hown₃, hst₃, hkeep₃⟩
  have hflat := (flat_of_snd hks).trans hparts.flat_eq
  refine ⟨ks, hks, hflat, henc, ?_⟩
  apply Subtree.rebuild [k] hsub hown₃ ?_ hst₃ (hparts.good_kids hks)
  · rw [flat_run, hflat]
    exact hs
  · intro p hp
    have hlive := hown.live p (List.mem_append_right _ hp)
    rw [hkeep₃ p hlive, hkeep p hp]

end Level

/-- What `treeInsert` does at an internal node: the page of the kid is
freed, the pair goes into the kid, and its parts take its place. -/
theorem treeInsert_at_kid (hl : Lawful refusal ops live) {F : Ptr → Option BNode}
    {P : List Entry → Prop} {h : Nat} {L R : List (Ptr × Tree h)} {k : Ptr × Tree h}
    {node : BNode} {s : σ} {key : Bytes}
    (hnode : Encodes node bnodeInternal (entries (h + 1) (ofKids (L ++ k :: R))))
    (hsub : Subtree F (live s) P (h + 1) (ofKids (L ++ k :: R)))
    (hlook : nodeLookupLE node key = .ok L.length) (fuel : Nat) (val : Bytes) :
    ∃ buf s₁ G, ops.delPage s k.1 = .ok s₁ ∧ live s₁ = Function.update (live s) k.1 none
      ∧ Encodes buf (nodeType h) (entries h k.2) ∧ Subtree G (live s₁) P h k.2
      ∧ (∀ m' ps, Owned G m' ps → Owned F m' (ps ++ restPages L R)
        ∧ ∀ p ∈ restPages L R, m' p = live s p)
      ∧ treeInsert ops (fuel + 1) s node key val = (do
        let r ← treeInsert ops fuel s₁ buf key val
        let split ← nodeSplit3 r.1
        nodeReplaceKidN ops (make (2 * btreePageSize)) node L.length split r.2) := by
  have hptr := getPtr_kid hnode
  have hty : btype node = .ok bnodeInternal := Holds.btype hnode
  obtain ⟨buf, hbuf, henc⟩ := hsub.kid hl
  obtain ⟨s₁, hdel, hs₁⟩ := hl.delPage s k.1 (hsub.owned.live _
    ((pages_around L R k).mem_iff.mpr (List.mem_cons_self ..)))
  obtain ⟨G, hkid, hback⟩ := hsub.focus_freed
  rw [← hs₁] at hkid
  refine ⟨buf, s₁, G, hdel, hs₁, henc, hkid, hback, ?_⟩
  rw [treeInsert, hlook, ok_bind, hty, ok_bind, if_neg (by decide), if_pos rfl, hptr, ok_bind,
    hbuf, ok_bind, hdel, ok_bind]

end Svacara.Btree
