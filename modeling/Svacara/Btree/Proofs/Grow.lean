/-
What an insertion makes of a tree, for pairs of any size.

`Grows key val t t'` computes `treeInsert` on trees: the pair goes into
its leaf, every node on the way up that outgrew its page is cut into two
or three (`Splits`), and a node takes the parts of its kid in the kid's place.
The side conditions are that what is built fits the buffer it is built
in. `insert_grows` carries this over to the pages: the tree behind them
after `Insert` is the one computed. On the row workload everything fits
(`grows_rows`), which gives the contract of `Insert` there
(`insert_spec`).

The pointers of the new pages are the store's choice and have no
influence on the shape, so shapes are trees whose pointers are all zero
and a tree has the shape `strip` makes of it.
-/
import Svacara.Btree.Proofs.Root

namespace Svacara.Btree

open Outcome Heap SortedMap

variable {h : Nat} {key val : Bytes}

-- ======================================================= the shape

/-- An entry without its pointer. -/
def Entry.bare (e : Entry) : Entry := ⟨0, e.key, e.val⟩

/-- A tree without its pointers. -/
def strip : (h : Nat) → Tree h → Tree h
  | 0, kvs => kvs
  | h + 1, kids => List.map (fun k : Ptr × Tree h => ((0 : Ptr), strip h k.2)) kids

theorem strip_ofKids (kids : List (Ptr × Tree h)) :
    strip (h + 1) (ofKids kids) = ofKids (kids.map fun k => (0, strip h k.2)) := rfl

@[simp] theorem firstKey_bare (es : List Entry) :
    firstKey (es.map Entry.bare) = firstKey es := by
  cases es with
  | nil => rfl
  | cons e es => rfl

@[simp] theorem kvSize_bare (es : List Entry) : kvSize (es.map Entry.bare) = kvSize es := by
  simp only [kvSize, List.map_map]
  rfl

@[simp] theorem nodeSize_bare (es : List Entry) :
    nodeSize (es.map Entry.bare) = nodeSize es := by
  simp [nodeSize]

theorem entries_strip_kids
    (ih : ∀ t : Tree h, entries h (strip h t) = (entries h t).map Entry.bare)
    (kids : List (Ptr × Tree h)) :
    entries (h + 1) (strip (h + 1) (ofKids kids))
      = (entries (h + 1) (ofKids kids)).map Entry.bare := by
  rw [strip_ofKids, entries_ofKids, entries_ofKids, List.map_map, List.map_map]
  refine List.map_congr_left fun k _ => ?_
  simp [kidEntry, Entry.bare, ih]

/-- The entries differ in pointers only. -/
theorem entries_strip : ∀ {h : Nat} (t : Tree h),
    entries h (strip h t) = (entries h t).map Entry.bare
  | 0, kvs => by
      have hpairs : ∀ l : List (Bytes × Bytes),
          entries 0 l = (entries 0 l).map Entry.bare := by
        intro l
        simp only [entries, List.map_map]
        rfl
      exact hpairs kvs
  | _ + 1, kids => entries_strip_kids entries_strip kids

/-- The pairs do not depend on pointers. -/
theorem flat_strip : ∀ {h : Nat} (t : Tree h), flat h (strip h t) = flat h t
  | 0, _ => rfl
  | h + 1, kids => by
      have hkids : ∀ ks : List (Ptr × Tree h),
          flat (h + 1) (strip (h + 1) (ofKids ks)) = flat (h + 1) (ofKids ks) := by
        intro ks
        rw [strip_ofKids, flat_ofKids, flat_ofKids, List.flatMap_map]
        exact List.flatMap_congr fun k _ => flat_strip k.2
      exact hkids kids

theorem firstKey_strip (t : Tree h) :
    firstKey (entries h (strip h t)) = firstKey (entries h t) := by
  rw [entries_strip, firstKey_bare]

theorem kidsSize_strip (ts : List (Tree h)) :
    kidsSize (ts.map (strip h)) = kidsSize ts := by
  simp only [kidsSize, List.map_map]
  congr 1
  refine List.map_congr_left fun t _ => ?_
  simp [firstKey_strip]

/-- Where a node was cut does not depend on pointers. -/
theorem IsCut.of_bare {half c : Nat} {es : List Entry}
    (hcut : IsCut half (es.map Entry.bare) c) : IsCut half es c where
  pos := hcut.pos
  le := by simpa using hcut.le
  left := by simpa [← List.map_take] using hcut.left
  next e he := by
    have hnext := hcut.next e.bare (by rw [List.getElem?_map, he]; rfl)
    rw [← List.map_take, kvSize_bare] at hnext
    exact hnext

theorem RowPage.of_bare {es : List Entry} (hp : RowPage (es.map Entry.bare)) :
    RowPage es := by
  obtain ⟨hne, hle⟩ := hp
  rw [nodeSize_bare] at hle
  exact ⟨fun hnil => hne (by rw [hnil]; rfl), hle⟩

theorem exists_append_of_strip : ∀ {h : Nat} {t u v : Tree h},
    strip h t = append h u v →
    ∃ u' v', t = append h u' v' ∧ strip h u' = u ∧ strip h v' = v
  | 0, _, u, v, heq => ⟨u, v, heq, rfl, rfl⟩
  | _ + 1, _, _, _, heq => by
      obtain ⟨u', v', ht, hu, hv⟩ := List.map_eq_append_iff.mp heq
      exact ⟨u', v', ht, hu, hv⟩

theorem entries_strip_eq_nil {u : Tree h} : entries h (strip h u) = [] ↔ entries h u = [] := by
  rw [entries_strip, List.map_eq_nil_iff]

theorem nodeSize_strip (u : Tree h) :
    nodeSize (entries h (strip h u)) = nodeSize (entries h u) := by
  rw [entries_strip, nodeSize_bare]

theorem good_strip : ∀ {h : Nat} {t : Tree h}, Good RowPage h t → Good RowPage h (strip h t)
  | 0, _, _ => trivial
  | h + 1, kids, hg => by
      intro k hk
      obtain ⟨k', hk', rfl⟩ := List.mem_map.mp hk
      obtain ⟨⟨hne, hle⟩, hgood⟩ := hg k' hk'
      refine ⟨⟨mt entries_strip_eq_nil.mp hne, ?_⟩, good_strip hgood⟩
      rw [nodeSize_strip]
      exact hle

-- ==================================================== the relation

/-- `nodeSplit3` on shapes. -/
inductive Splits : (h : Nat) → Tree h → List (Tree h) → Prop
  | fits {h : Nat} {b : Tree h} (hfit : nodeSize (entries h b) ≤ btreePageSize) :
      Splits h b [b]
  | cut {h : Nat} {u v : Tree h}
      (hover : btreePageSize < nodeSize (entries h (append h u v)))
      (hcut : IsCut (nodeSize (entries h (append h u v)) / 2)
        (entries h (append h u v)) (entries h u).length)
      (hu : RowPage (entries h u)) (hv : RowPage (entries h v)) :
      Splits h (append h u v) [u, v]
  | cutTwice {h : Nat} {u v w : Tree h}
      (hover : btreePageSize < nodeSize (entries h (append h (append h u v) w)))
      (hcut : IsCut (nodeSize (entries h (append h (append h u v) w)) / 2)
        (entries h (append h (append h u v) w)) (entries h (append h u v)).length)
      (hleft : btreePageSize < nodeSize (entries h (append h u v)))
      (hcut' : IsCut (nodeSize (entries h (append h u v)) / 2)
        (entries h (append h u v)) (entries h u).length)
      (hu : RowPage (entries h u)) (hv : RowPage (entries h v))
      (hw : RowPage (entries h w)) :
      Splits h (append h (append h u v) w) [u, v, w]

/-- `treeInsert` on shapes. -/
inductive Grows (key val : Bytes) : (h : Nat) → Tree h → Tree h → Prop
  | leaf {kvs : List (Bytes × Bytes)}
      (hfit : nodeSize (entries 0 (ins key val kvs)) ≤ 2 * btreePageSize) :
      Grows key val 0 kvs (ins key val kvs)
  | node {h : Nat} {L R : List (Ptr × Tree h)} {k : Ptr × Tree h} {k' : Tree h}
      {bs : List (Tree h)} (habove : AllGt key (flat (h + 1) (ofKids R)))
      (hle : L = [] ∨ firstKey (entries h k.2) ≤ key)
      (hkid : Grows key val h k.2 k') (hsplit : Splits h k' bs)
      (hfit : nodeSize (entries (h + 1) (ofKids (L ++ (bs.map (Prod.mk 0) ++ R))))
        ≤ 2 * btreePageSize) :
      Grows key val (h + 1) (ofKids (L ++ k :: R))
        (ofKids (L ++ (bs.map (Prod.mk 0) ++ R)))

/-- The root over what became of the old one. -/
inductive Rooted : (h : Nat) → List (Tree h) → (h' : Nat) → Tree h' → Prop
  | one {h : Nat} {b : Tree h} : Rooted h [b] h b
  | two {h : Nat} {u v : Tree h}
      (hfit : header + 10 * 2 + kidsSize [u, v] ≤ btreePageSize) :
      Rooted h [u, v] (h + 1) (ofKids [(0, u), (0, v)])
  | three {h : Nat} {u v w : Tree h}
      (hfit : header + 10 * 3 + kidsSize [u, v, w] ≤ btreePageSize) :
      Rooted h [u, v, w] (h + 1) (ofKids [(0, u), (0, v), (0, w)])

theorem Rooted.flat_eq {h' : Nat} {bs : List (Tree h)} {c : Tree h'}
    (hroot : Rooted h bs h' c) : flat h' c = bs.flatMap (flat h) := by
  cases hroot with
  | one => rw [List.flatMap_singleton]
  | two => rw [flat_ofKids]; rfl
  | three => rw [flat_ofKids]; rfl

-- ==================================================== on the pages

section Pages

variable {m : Ptr → Option BNode} {new : BNode} {t : Tree h} {b : Tree h}
  {bs : List (Tree h)}

theorem Splits.parts (hsplit : Splits h b bs) (ht : strip h t = b)
    (henc : Encodes new (nodeType h) (entries h t)) (hne : entries h t ≠ [])
    (hg : Good RowPage h t) (hst : Stored m h t) :
    ∃ bufs ts, nodeSplit3 new = .ok bufs ∧ Parts m h t bufs ts
      ∧ ts.map (strip h) = bs := by
  cases hsplit with
  | fits hfit =>
      rw [← ht, entries_strip, nodeSize_bare] at hfit
      exact ⟨[new], [t], nodeSplit3_fits henc hfit, .single henc ⟨hne, hfit⟩ hg hst,
        by rw [← ht]; rfl⟩
  | @cut u v hover hcut hu hv =>
      obtain ⟨u', v', rfl, rfl, rfl⟩ := exists_append_of_strip ht
      rw [← ht, entries_strip, nodeSize_bare] at hover hcut
      rw [entries_strip] at hu hv
      rw [entries_strip, List.length_map] at hcut
      have hcut := hcut.of_bare
      have hu := hu.of_bare
      have hv := hv.of_bare
      have happ := entries_append h u' v'
      have htake : (entries h (append h u' v')).take (entries h u').length
          = entries h u' := by
        rw [happ, List.take_left]
      have hdrop : (entries h (append h u' v')).drop (entries h u').length
          = entries h v' := by
        rw [happ, List.drop_left]
      obtain ⟨c, l, r, hc, hsp, hl, hr⟩ := nodeSplit3_cut henc hne hover (by
        intro c hc
        rw [hc.unique hcut, htake, hdrop]
        exact ⟨hu, hv⟩)
      rw [hc.unique hcut, htake] at hl
      rw [hc.unique hcut, hdrop] at hr
      exact ⟨[l, r], [u', v'], hsp, .pair hl hr hu hv hg hst, rfl⟩
  | @cutTwice u v w hover hcut hleft hcut' hu hv hw =>
      obtain ⟨uv, w', rfl, huv, rfl⟩ := exists_append_of_strip ht
      obtain ⟨u', v', rfl, rfl, rfl⟩ := exists_append_of_strip huv
      rw [← ht, entries_strip, nodeSize_bare] at hover hcut
      rw [← huv, entries_strip, nodeSize_bare] at hleft hcut'
      rw [entries_strip] at hu hv hw
      rw [← huv, entries_strip, List.length_map] at hcut
      rw [entries_strip, List.length_map] at hcut'
      have hcut := hcut.of_bare
      have hcut' := hcut'.of_bare
      have hu := hu.of_bare
      have hv := hv.of_bare
      have hw := hw.of_bare
      have htake : (entries h (append h (append h u' v') w')).take
          (entries h (append h u' v')).length = entries h (append h u' v') := by
        rw [entries_append h (append h u' v') w', List.take_left]
      have hdrop : (entries h (append h (append h u' v') w')).drop
          (entries h (append h u' v')).length = entries h w' := by
        rw [entries_append h (append h u' v') w', List.drop_left]
      have htake' : (entries h (append h u' v')).take (entries h u').length
          = entries h u' := by
        rw [entries_append h u' v', List.take_left]
      have hdrop' : (entries h (append h u' v')).drop (entries h u').length
          = entries h v' := by
        rw [entries_append h u' v', List.drop_left]
      obtain ⟨l, c, r, hsp, hl, hc, hr⟩ := nodeSplit3_cutTwice henc hne hover hcut
        (by rw [htake]; exact hleft) (by rw [htake]; exact hcut')
        (by rw [htake, htake']; exact hu.2) (by rw [htake, hdrop']; exact hv.2)
        (by rw [hdrop]; exact hw.2)
      rw [htake, htake'] at hl
      rw [htake, hdrop'] at hc
      rw [hdrop] at hr
      exact ⟨[l, c, r], [u', v', w'], hsp, .triple hl hc hr hu hv hw hg hst, rfl⟩

/-- The search goes where the keys say. -/
theorem lookup_kids_at {L R : List (Ptr × Tree h)} {k : Ptr × Tree h}
    {node : BNode} {P : List Entry → Prop} (hP : ∀ es, P es → es ≠ [])
    (henc : Encodes node bnodeInternal (entries (h + 1) (ofKids (L ++ k :: R))))
    (hg : Good P (h + 1) (ofKids (L ++ k :: R)))
    (hs : Sorted (flat (h + 1) (ofKids (L ++ k :: R))))
    (habove : AllGt key (flat (h + 1) (ofKids R)))
    (hle : L = [] ∨ firstKey (entries h k.2) ≤ key) :
    nodeLookupLE node key = .ok L.length := by
  obtain ⟨L₁, k₁, R₁, heq, hlook, habove₁, hle₁⟩ := lookup_kids_le hP key henc hg hs
    (by simp)
  -- a kid right of one split point starts above the key, so the other
  -- split point cannot lie there
  have hclash : ∀ {A B : List (Ptr × Tree h)} {a b : Ptr × Tree h}
      {A' B' : List (Ptr × Tree h)}, A ++ a :: B = A' ++ b :: B' →
      A ++ a :: B = L ++ k :: R → AllGt key (flat (h + 1) (ofKids B)) →
      (A' = [] ∨ firstKey (entries h b.2) ≤ key) → A'.length ≤ A.length := by
    intro A B a b A' B' hAB hL hB hb
    by_contra hlt
    have hat : (A ++ a :: B)[A'.length]? = some b := by
      rw [hAB, List.getElem?_append_right (Nat.le_refl _), Nat.sub_self]
      rfl
    rw [List.getElem?_append_right (by omega)] at hat
    obtain ⟨j, hj⟩ : ∃ j, A'.length - A.length = j + 1 := ⟨A'.length - A.length - 1, by omega⟩
    rw [hj, List.getElem?_cons_succ] at hat
    have hmem := List.mem_of_getElem? hat
    have hne : A' ≠ [] := List.ne_nil_of_length_pos (by omega)
    obtain ⟨hPb, hgb⟩ := hg b (by
      rw [← hL]
      exact List.mem_append_right _ (List.mem_cons_of_mem _ hmem))
    obtain ⟨e, he, hkey⟩ := firstKey_mem hP hgb (hP _ hPb)
    have hgt := hB e (List.mem_flatMap.mpr ⟨b, hmem, he⟩)
    rw [← hkey] at hgt
    exact absurd hgt (not_lt.mpr (hb.resolve_left hne))
  have h₁ := hclash heq rfl habove hle₁
  have h₂ := hclash heq.symm heq.symm habove₁ hle
  rw [hlook, Nat.le_antisymm h₁ h₂]

theorem kidsSize_append (ts us : List (Tree h)) :
    kidsSize (ts ++ us) = kidsSize ts + kidsSize us := by
  simp [kidsSize]

/-- The room a node takes is that of its shape. -/
theorem nodeSize_run (L ks R : List (Ptr × Tree h)) :
    nodeSize (entries (h + 1) (ofKids (L ++ (ks ++ R))))
      = header + 10 * (L.length + ks.length + R.length) + kidsSize (L.map Prod.snd)
        + kidsSize (ks.map Prod.snd) + kidsSize (R.map Prod.snd) := by
  rw [nodeSize, entries_ofKids, kvSize_kidEntry]
  simp only [List.map_append, List.length_append, List.length_map, kidsSize_append]
  omega

end Pages

section Store

variable {σ : Type} {refusal : Fault} {ops : PageOps σ} {live : σ → Ptr → Option BNode}

/-- A node with the pair put in, before its caller splits it. -/
structure Grown (F m : Ptr → Option BNode) (h : Nat) (t t' : Tree h) (new : BNode)
    (key val : Bytes) : Prop where
  enc : Encodes new (nodeType h) (entries h t')
  sub : Subtree F m RowPage h t'
  flat_eq : flat h t' = ins key val (flat h t)
  ne : entries h t' ≠ []

/-- `treeInsert` computes the shape. The induction is on the computation;
the tree stands for the shape it starts from. -/
theorem treeInsert_grows (hl : Lawful refusal ops live) {b b' : Tree h}
    (hgrow : Grows key val h b b') :
    ∀ (fuel : Nat) (t : Tree h) (node : BNode) (s : σ) (F : Ptr → Option BNode),
      h < fuel → strip h t = b → Encodes node (nodeType h) (entries h t) →
      entries h t ≠ [] → Subtree F (live s) RowPage h t →
      Returns refusal (treeInsert ops fuel s node key val) fun r =>
        ∃ t', strip h t' = b' ∧ Grown F (live r.2) h t t' r.1 key val := by
  induction hgrow with
  | @leaf kvs hfit =>
      rintro fuel t node s F hfuel rfl hnode hne hsub
      obtain ⟨fuel, rfl⟩ := exists_fuel hfuel
      obtain ⟨new, hnew, henc⟩ := treeInsert_leaf_fits ops fuel s key val hnode hsub.sorted
        (fun hnil => hne (by rw [show t = [] from hnil]; rfl)) hfit
      refine Meets.of_eq hnew ⟨ins key val t, rfl, henc, ⟨hsub.owned, trivial, trivial, ?_⟩,
        rfl, ?_⟩
      · exact sorted_ins hsub.sorted
      · simp [entries, ins]
  | @node h L R k k' bs habove hle hkid hsplit hfit ih =>
      intro fuel kids node s F hfuel hstrip hnode hne hsub
      obtain ⟨fuel, rfl⟩ := exists_fuel hfuel
      obtain ⟨L₁, kR, rfl, hL₁, hkR⟩ := List.map_eq_append_iff.mp hstrip
      obtain ⟨k₁, R₁, rfl, rfl, hR₁⟩ := List.map_eq_cons_iff.mp hkR
      have habove₁ : AllGt key (flat (h + 1) (ofKids R₁)) := by
        rw [← flat_strip, strip_ofKids, hR₁]
        exact habove
      have hle₁ : L₁ = [] ∨ firstKey (entries h k₁.2) ≤ key := by
        rw [← firstKey_strip]
        refine hle.imp (fun hnil => ?_) id
        rw [hnil] at hL₁
        exact List.map_eq_nil_iff.mp hL₁
      have hlook := lookup_kids_at (fun _ => rowPage_ne) hnode hsub.good hsub.sorted
        habove₁ hle₁
      have hL := allLt_left (fun _ => rowPage_ne) hsub.good hsub.sorted hle₁
      have hmem : k₁ ∈ L₁ ++ k₁ :: R₁ := List.mem_append_cons_self
      obtain ⟨buf, s₁, G, -, -, henc, hkid₁, hback, hstep⟩ :=
        treeInsert_at_kid hl hnode hsub hlook fuel val
      rw [hstep]
      refine (ih fuel k₁.2 buf s₁ G (Nat.lt_of_succ_lt_succ hfuel) rfl henc
        (hsub.good k₁ hmem).1.1 hkid₁).bind ?_
      rintro ⟨knode, s₂⟩ ⟨t', ht', hgrown⟩
      obtain ⟨bufs, ts, hsp, hparts, hts⟩ := hsplit.parts ht' hgrown.enc hgrown.ne
        hgrown.sub.good hgrown.sub.stored
      obtain ⟨hown₂, hkeep₂⟩ := hback _ _ hgrown.sub.owned
      simp only [hsp, ok_bind]
      have hins : ins key val (flat (h + 1) (ofKids (L₁ ++ k₁ :: R₁)))
          = flat (h + 1) (ofKids L₁) ++ (flat h t' ++ flat (h + 1) (ofKids R₁)) := by
        rw [flat_around, ins_append_left hL, ins_append_right habove₁, hgrown.flat_eq]
      have hroom : header + 10 * (L₁.length + ts.length + R₁.length)
          + kidsSize (L₁.map Prod.snd) + kidsSize ts + kidsSize (R₁.map Prod.snd)
          ≤ (make (2 * btreePageSize)).length := by
        rw [nodeSize_run, ← hL₁, ← hR₁, ← hts] at hfit
        simp only [List.map_map, List.length_map, Function.comp_def] at hfit
        rw [length_make, ← kidsSize_strip (L₁.map Prod.snd), ← kidsSize_strip ts,
          ← kidsSize_strip (R₁.map Prod.snd), List.map_map, List.map_map]
        exact hfit
      refine (replace_fits hl (make (2 * btreePageSize)) hnode hsub hparts hown₂ hkeep₂ ?_
        (by rw [length_make]; decide) hroom).mono ?_
      · rw [← hins]
        exact sorted_ins hsub.sorted
      · rintro ⟨new, s₃⟩ ⟨ks, hks, hflat, henc', hsub'⟩
        refine ⟨ofKids (L₁ ++ (ks ++ R₁)), ?_, henc', hsub', ?_, ?_⟩
        · rw [strip_ofKids, List.map_append, List.map_append, hL₁, hR₁, ← hts, ← hks,
            List.map_map, List.map_map]
          rfl
        · rw [hins, flat_run, hflat]
        · have hpos := hparts.count
          rw [entries_ofKids]
          apply List.ne_nil_of_length_pos
          rw [← hks, List.length_map] at hpos
          rw [List.length_map, List.length_append, List.length_append]
          omega

/-- The pages hold, beside the frame `F`, a tree of the given shape. -/
def HasShape (F m : Ptr → Option BNode) (root : Ptr) (h : Nat) (b : Tree h) : Prop :=
  root ≠ 0 ∧ ∃ t, strip h t = b ∧ Subtree F m RowPage (h + 1) (ofKids [(root, t)])

/-- A root over kids has the shape of a root over the kids' shapes. -/
theorem hasShape_of_kids {F m : Ptr → Option BNode} {root : Ptr}
    {ks : List (Ptr × Tree h)} {ts bs : List (Tree h)} (hroot : root ≠ 0)
    (hks : ks.map Prod.snd = ts) (hts : ts.map (strip h) = bs)
    (hsub : Subtree F m RowPage (h + 2) (ofKids [(root, ofKids ks)])) :
    HasShape F m root (h + 1) (ofKids (bs.map (Prod.mk 0))) := by
  refine ⟨hroot, ofKids ks, ?_, hsub⟩
  rw [strip_ofKids, ← hts, ← hks, List.map_map, List.map_map]
  rfl

/-- The first pair makes a leaf the root. -/
theorem insert_first (hl : Lawful refusal ops live) (s : σ) (fuel : Nat) (key val : Bytes)
    (hfit : header + pairSize (key, val) ≤ btreePageSize) :
    Returns refusal (insert ops fuel ⟨0, s⟩ key val) fun tree =>
      HasShape (live s) (live tree.pages) tree.root 0 [(key, val)] := by
  obtain ⟨b₀, b, hb₀, hb, henc, -⟩ := firstLeaf_fits key val hfit
  rw [insert, if_pos rfl, hb₀, ok_bind, hb, ok_bind]
  have hsub : Subtree (live s) (live s) RowPage 0 [(key, val)] :=
    ⟨owned_nil _, trivial, trivial, List.pairwise_singleton ..⟩
  have hpage : RowPage (entries 0 [(key, val)]) := by
    refine ⟨List.cons_ne_nil _ _, ?_⟩
    rw [nodeSize_pairs, List.map_singleton, List.sum_singleton]
    exact hfit
  refine (newPage_root hl henc hpage hsub).bind ?_
  rintro ⟨p, s'⟩ ⟨hp0, hsub'⟩
  exact Meets.ok ⟨hp0, _, rfl, hsub'⟩

/-- `Insert` into a tree leaves the tree computed from its shape. -/
theorem insert_grows (hl : Lawful refusal ops live) {F : Ptr → Option BNode} {tree : BTree σ}
    {fuel h' : Nat} {b b' : Tree h} {bs : List (Tree h)} {c : Tree h'} (hfuel : h < fuel)
    (hgrow : Grows key val h b b') (hsplit : Splits h b' bs) (hroot : Rooted h bs h' c)
    (ht : HasShape F (live tree.pages) tree.root h b) :
    Returns refusal (insert ops fuel tree key val) fun tree' =>
      HasShape F (live tree'.pages) tree'.root h' c
        ∧ flat h' c = ins key val (flat h b) := by
  obtain ⟨hne, t, hstrip, hsub⟩ := ht
  obtain ⟨buf, s₁, G, hbuf, hdel, henc, hpage, hkid, hback⟩ := hsub.root_freed hl
  rw [insert, if_neg hne, hbuf, ok_bind, hdel, ok_bind]
  refine (treeInsert_grows hl hgrow fuel t buf s₁ G hfuel hstrip henc hpage.1 hkid).bind ?_
  rintro ⟨node, s₂⟩ ⟨t', ht', hgrown⟩
  obtain ⟨bufs, ts, hsp, hparts, hts⟩ := hsplit.parts ht' hgrown.enc hgrown.ne
    hgrown.sub.good hgrown.sub.stored
  have hsub' : Subtree F (live s₂) RowPage h t' := hback _ t' hgrown.sub
  have hflat : flat h' c = ins key val (flat h b) := by
    rw [hroot.flat_eq, ← hts, List.flatMap_map]
    simp only [flat_strip]
    rw [hparts.flat_eq, hgrown.flat_eq, ← hstrip, flat_strip]
  simp only [hsp, ok_bind]
  have hlen := hparts.parts.length_eq
  cases hroot with
  | one =>
      obtain ⟨u, rfl, hu⟩ := List.map_eq_singleton_iff.mp hts
      obtain ⟨a, rfl⟩ := List.length_eq_one_iff.mp hlen
      obtain ⟨hsubu, -⟩ := hparts.subtree_one hsub'
      obtain ⟨hpart, -⟩ := List.forall₂_cons.mp hparts.parts
      refine (newPage_root hl hpart.1 (hparts.page u (List.mem_singleton.mpr rfl)) hsubu).bind ?_
      rintro ⟨p, s₃⟩ ⟨hp0, hsub₃⟩
      exact Meets.ok ⟨⟨hp0, u, hu, hsub₃⟩, hflat⟩
  | two hfit =>
      obtain ⟨a, a', rfl⟩ := List.length_eq_two.mp
        (hlen.trans (by rw [← List.length_map (strip h), hts]; rfl))
      refine (growRoot_fits hl hsub' hparts ?_).mono ?_
      · rw [← kidsSize_strip, ← List.length_map (strip h), hts]
        exact hfit
      · rintro tree' ⟨hp0, ks, hks, -, hsub₃⟩
        exact ⟨hasShape_of_kids hp0 hks hts hsub₃, hflat⟩
  | three hfit =>
      obtain ⟨a, a', a'', rfl⟩ := List.length_eq_three.mp
        (hlen.trans (by rw [← List.length_map (strip h), hts]; rfl))
      refine (growRoot_fits hl hsub' hparts ?_).mono ?_
      · rw [← kidsSize_strip, ← List.length_map (strip h), hts]
        exact hfit
      · rintro tree' ⟨hp0, ks, hks, -, hsub₃⟩
        exact ⟨hasShape_of_kids hp0 hks hts hsub₃, hflat⟩

-- ================================================ the row workload

/-- A row node with one pair more than a page is cut in two. -/
theorem splits_rows {b : Tree h} (hne : entries h b ≠ []) (hg : Good RowPage h b)
    (hr : Rows (flat h b)) (hle : nodeSize (entries h b) ≤ btreePageSize + 1027) :
    ∃ bs, Splits h b bs ∧ (bs.length = 1 ∨ bs.length = 2) ∧ bs.flatMap (flat h) = flat h b
      ∧ ∀ u ∈ bs, RowPage (entries h u) ∧ Good RowPage h u := by
  by_cases hfit : nodeSize (entries h b) ≤ btreePageSize
  · exact ⟨[b], .fits hfit, Or.inl rfl, List.flatMap_singleton ..,
      List.forall_mem_singleton.mpr ⟨⟨hne, hfit⟩, hg⟩⟩
  have hover := Nat.lt_of_not_le hfit
  have hroom : nodeSize (entries h b) ≤ (make (2 * btreePageSize)).length := by
    rw [length_make]
    exact hle.trans (by decide)
  -- the cut is where the loop over a node with these entries stops
  obtain ⟨node, -, henc, -⟩ := build_encodes (make (2 * btreePageSize)) bnodeLeaf (entries h b)
    (by rw [length_make]; decide) (by decide) hroom
  obtain ⟨c, hcut, -⟩ := nodeSplit2_eq node node henc hne
  obtain ⟨hu, hv⟩ := hcut.row_fits (rowEntries_entries hg hr) hover hle
  obtain ⟨u, v, rfl, hequ, heqv⟩ := exists_append_of_entries
    (List.take_append_drop c (entries h b)).symm
  have hlen : (entries h u).length = c := by
    rw [hequ, List.length_take, Nat.min_eq_left hcut.le]
  obtain ⟨hgu, hgv⟩ := good_append.mp hg
  rw [← hequ] at hu
  rw [← heqv] at hv
  refine ⟨[u, v], .cut hover (by rw [hlen]; exact hcut) hu hv, Or.inr rfl, ?_, ?_⟩
  · simp [flat_append]
  · exact List.forall_mem_cons.mpr ⟨⟨hu, hgu⟩, List.forall_mem_singleton.mpr ⟨hv, hgv⟩⟩

/-- A row always finds room. The induction is on the height: a kid that is
cut in two makes its parent one entry longer. -/
theorem grows_rows (hk : key.length = 13) (hv : val.length ≤ 1000) :
    ∀ {h : Nat} {b : Tree h}, RowPage (entries h b) → Good RowPage h b → Sorted (flat h b) →
      Rows (flat h b) → ∃ b', Grows key val h b b' ∧ entries h b' ≠ [] ∧ Good RowPage h b'
        ∧ flat h b' = ins key val (flat h b)
        ∧ nodeSize (entries h b') ≤ btreePageSize + 1027
  | 0, kvs, hpage, _, _, _ => by
      have hpg : btreePageSize = 4096 := rfl
      have hlim := hpage.2
      have hsize := nodeSize_ins key val kvs
      simp only [pairSize] at hsize
      exact ⟨ins key val kvs, .leaf (by omega), by simp [entries, ins], trivial, rfl, by omega⟩
  | h + 1, kids, hpage, hg, hs, hr => by
      have hpg : btreePageSize = 4096 := rfl
      have hlim := hpage.2
      have hne : (show List (Ptr × Tree h) from kids) ≠ [] := fun hnil =>
        hpage.1 (List.map_eq_nil_iff.mpr hnil)
      obtain ⟨node, -, henc, -⟩ := build_encodes (make btreePageSize) bnodeInternal
        (entries (h + 1) kids) (by rw [length_make]; decide) (by decide)
        (by rw [length_make]; exact hlim)
      obtain ⟨L, k, R, rfl, -, hR, hle⟩ := lookup_kids_le (fun _ => rowPage_ne) key henc hg hs hne
      have hL := allLt_left (fun _ => rowPage_ne) hg hs hle
      have hmem : k ∈ L ++ k :: R := List.mem_append_cons_self
      have hrk := Rows.flat_kid hr hmem
      obtain ⟨k', hgrow, hne', hg', hflat, hsize⟩ := grows_rows hk hv (hg k hmem).1 (hg k hmem).2
        (Sorted.flat_kid hs hmem) hrk
      obtain ⟨bs, hsplit, hcount, hbs, hparts⟩ := splits_rows hne' hg'
        (by rw [hflat]; exact rows_ins hrk hk hv) hsize
      have hgood : Good RowPage (h + 1) (ofKids (L ++ (bs.map (Prod.mk 0) ++ R))) := by
        refine good_run (show Good RowPage (h + 1) (ofKids (L ++ ([k] ++ R))) from hg)
          fun a ha => ?_
        obtain ⟨u, hu, rfl⟩ := List.mem_map.mp ha
        exact hparts u hu
      have hins : flat (h + 1) (ofKids (L ++ (bs.map (Prod.mk 0) ++ R)))
          = ins key val (flat (h + 1) (ofKids (L ++ k :: R))) := by
        have hsnd : (bs.map (Prod.mk (0 : Ptr))).map Prod.snd = bs := by simp
        rw [flat_run, flat_of_snd hsnd, hbs, hflat, flat_around, ins_append_left hL,
          ins_append_right hR]
      have hnarrow : ∀ {kids : List (Ptr × Tree h)}, Good RowPage (h + 1) (ofKids kids) →
          Rows (flat (h + 1) (ofKids kids)) →
          nodeSize (entries (h + 1) (ofKids kids)) = header + 27 * kids.length :=
        fun hg hr => nodeSize_narrow fun a ha =>
          firstKey_length (hg a ha).2 (hg a ha).1.1 (Rows.flat_kid hr ha)
      have hnew := hnarrow hgood (by rw [hins]; exact rows_ins hr hk hv)
      rw [hnarrow hg hr, List.length_append, List.length_cons] at hlim
      rw [List.length_append, List.length_append, List.length_map] at hnew
      refine ⟨_, .node hR hle hgrow hsplit (by omega), ?_, hgood, hins, by omega⟩
      rw [entries_ofKids]
      apply List.ne_nil_of_length_pos
      rw [List.length_map, List.length_append, List.length_append, List.length_map]
      omega

/-- A root over one node or two is found. -/
theorem rooted_rows {bs : List (Tree h)} (hcount : bs.length = 1 ∨ bs.length = 2)
    (hrows : ∀ u ∈ bs, (firstKey (entries h u)).length = 13) :
    ∃ h', h' ≤ h + 1 ∧ ∃ c, Rooted h bs h' c := by
  have hsize := kidsSize_rows hrows
  rcases hcount with hone | htwo
  · obtain ⟨u, rfl⟩ := List.length_eq_one_iff.mp hone
    exact ⟨h, Nat.le_succ h, u, .one⟩
  · obtain ⟨u, v, rfl⟩ := List.length_eq_two.mp htwo
    refine ⟨h + 1, Nat.le_refl _, _, .two ?_⟩
    rw [hsize, List.length_cons, List.length_singleton]
    decide

theorem HasShape.hasTree {F m : Ptr → Option BNode} {root : Ptr} {n : Nat} {b : Tree h}
    (ht : HasShape F m root h b) (hn : h < n) : HasTree F m n root (flat h b) := by
  obtain ⟨hroot, t, rfl, hsub⟩ := ht
  exact .tree hroot h t hn hsub (flat_strip t).symm

/-- `Insert` of a row, on the pairs of the tree. -/
theorem insert_spec (hl : Lawful refusal ops live) {F : Ptr → Option BNode} {n fuel : Nat}
    {tree : BTree σ} {l : List (Bytes × Bytes)} (hk : key.length = 13) (hv : val.length ≤ 1000)
    (hfuel : n ≤ fuel) (hr : Rows l) (ht : HasTree F (live tree.pages) n tree.root l) :
    Returns refusal (insert ops fuel tree key val) fun tree' =>
      HasTree F (live tree'.pages) (n + 1) tree'.root (ins key val l) := by
  cases ht with
  | empty hroot hnil hown =>
      subst hnil
      obtain rfl : live tree.pages = F := funext fun p => hown.frame p List.not_mem_nil
      obtain ⟨root, s⟩ := tree
      obtain rfl : root = 0 := hroot
      exact (insert_first hl s fuel key val (pairSize_row hk hv)).mono fun _ h =>
        h.hasTree (Nat.succ_pos n)
  | tree hroot h t hn hsub hflat =>
      subst hflat
      obtain ⟨hpage, hg⟩ := hsub.good _ (List.mem_singleton.mpr rfl)
      have hs : Sorted (flat h t) := by
        rw [← flat_single tree.root t]
        exact hsub.sorted
      rw [← flat_strip] at hr hs ⊢
      obtain ⟨b', hgrow, hne, hg', hflat, hsize⟩ := grows_rows hk hv (b := strip h t)
        ⟨mt entries_strip_eq_nil.mp hpage.1, by rw [nodeSize_strip]; exact hpage.2⟩
        (good_strip hg) hs hr
      have hr' : Rows (flat h b') := by
        rw [hflat]
        exact rows_ins hr hk hv
      obtain ⟨bs, hsplit, hcount, hbs, hparts⟩ := splits_rows hne hg' hr' hsize
      obtain ⟨h', hh', c, hrooted⟩ := rooted_rows hcount fun u hu =>
        firstKey_length (hparts u hu).2 (hparts u hu).1.1 fun kv hkv =>
          hr' kv (by rw [← hbs]; exact List.mem_flatMap.mpr ⟨u, hu, hkv⟩)
      refine (insert_grows hl (by omega) hgrow hsplit hrooted ⟨hroot, t, rfl, hsub⟩).mono ?_
      rintro tree' ⟨hshape, hflat'⟩
      rw [← hflat']
      exact hshape.hasTree (by omega)

end Store

end Svacara.Btree
