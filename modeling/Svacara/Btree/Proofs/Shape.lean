/-
The invariant of the representation, and the pages it accounts for.

`At` is `Reach` on the ghost tree. A walk over the pages of a stored
tree is a walk down the tree (`reach_at`), so what holds at every node
of the tree holds of every page reached, and what is reached is what the
tree's pages are. With the ledger of `audited`, those are exactly the
pages allocated and not freed.
-/
import Svacara.Btree.Shape
import Svacara.Btree.Proofs.Refinement
import Mathlib.Data.List.Nodup

namespace Svacara.Btree

open Outcome Heap SortedMap

-- ======================================================= the walks

/-- From the node `t` on page `p`, the path leads to the node `t'` on
page `q`. -/
inductive At : (h : Nat) → Ptr → Tree h → List Nat → (h' : Nat) → Ptr →
    Tree h' → Prop where
  | here {h : Nat} {p : Ptr} {t : Tree h} : At h p t [] h p t
  | down {h h' : Nat} {p q : Ptr} {kids : List (Ptr × Tree h)} {i : Nat}
      {k : Ptr × Tree h} {path : List Nat} {t' : Tree h'}
      (hk : kids[i]? = some k) (hat : At h k.1 k.2 path h' q t') :
      At (h + 1) p (ofKids kids) (i :: path) h' q t'

variable {m : Ptr → Option BNode} {h h' : Nat} {p q : Ptr} {t : Tree h}
  {t' : Tree h'} {path path' : List Nat}

/-- The page `p` holds the node `t` and the pages below it its kids. -/
def StoredAt (m : Ptr → Option BNode) (p : Ptr) (t : Tree h) : Prop :=
  (∃ buf, m p = some buf ∧ Encodes buf (nodeType h) (entries h t))
    ∧ Stored m h t

theorem internal_of_type {buf : BNode} {es : List Entry}
    (henc : Encodes buf (nodeType h) es) (hty : btype buf = .ok bnodeInternal) :
    ∃ h₀, h = h₀ + 1 := by
  cases h with
  | zero =>
      rw [Holds.btype henc] at hty
      cases hty
  | succ h₀ => exact ⟨h₀, rfl⟩

theorem leaf_of_type {buf : BNode} {es : List Entry}
    (henc : Encodes buf (nodeType h) es) (hty : btype buf = .ok bnodeLeaf) :
    h = 0 := by
  cases h with
  | zero => rfl
  | succ h₀ =>
      rw [Holds.btype henc] at hty
      cases hty

/-- An entry of an internal node, read off its buffer. -/
theorem kid_of_ptr {buf : BNode} {kids : List (Ptr × Tree h)} {i n : Nat}
    (henc : Encodes buf bnodeInternal (entries (h + 1) (ofKids kids)))
    (hn : nkeys buf = .ok n) (hi : i < n) (hptr : getPtr buf i = .ok q) :
    ∃ k, kids[i]? = some k ∧ k.1 = q := by
  rw [henc.nkeys] at hn
  cases hn
  rw [entries_ofKids, List.length_map] at hi
  have hk : kids[i]? = some kids[i] := List.getElem?_eq_getElem hi
  rw [Holds.getPtr henc (getElem?_entries hk)] at hptr
  cases hptr
  exact ⟨kids[i], hk, rfl⟩

/-- A walk over the pages of a stored tree goes down the tree. -/
theorem reach_at (hreach : Reach m p path q) : ∀ {h : Nat} {t : Tree h},
    StoredAt m p t → ∃ h' t', At h p t path h' q t' ∧ StoredAt m q t' := by
  induction hreach with
  | here p => exact fun hst => ⟨_, _, .here, hst⟩
  | down hpage hty hn hi hptr _ ih =>
      intro h t ⟨⟨buf, hbuf, henc⟩, hst⟩
      rw [hpage] at hbuf
      cases hbuf
      obtain ⟨h₀, rfl⟩ := internal_of_type henc hty
      obtain ⟨k, hk, rfl⟩ := kid_of_ptr henc hn hi hptr
      obtain ⟨h', t', hat, hst'⟩ := ih (hst k (List.mem_of_getElem? hk))
      exact ⟨h', t', .down hk hat, hst'⟩

/-- Every walk down the tree is a walk over its pages. -/
theorem At.reach (hat : At h p t path h' q t') :
    StoredAt m p t → Reach m p path q := by
  induction hat with
  | here => exact fun _ => .here _
  | @down h h' p q kids i k path t' hk hat ih =>
      intro ⟨⟨buf, hbuf, henc⟩, hst⟩
      have henc' : Encodes buf bnodeInternal (entries (h + 1) (ofKids kids)) := henc
      have hent := getElem?_entries hk
      have hlt : i < (entries (h + 1) (ofKids kids)).length :=
        (List.getElem?_eq_some_iff.mp hent).1
      exact .down hbuf (Holds.btype henc') henc'.nkeys hlt
        (Holds.getPtr henc' hent) (ih (hst k (List.mem_of_getElem? hk)))

-- ================================================ down a good tree

/-- Each step down takes one off the height. -/
theorem At.height (hat : At h p t path h' q t') : h = h' + path.length := by
  induction hat with
  | here => rfl
  | down _ _ ih =>
      rw [List.length_cons, ih]
      omega

theorem At.good {P : List Entry → Prop} (hat : At h p t path h' q t') :
    P (entries h t) → Good P h t → P (entries h' t') ∧ Good P h' t' := by
  induction hat with
  | here => exact fun hP hg => ⟨hP, hg⟩
  | down hk _ ih =>
      intro _ hg
      obtain ⟨hPk, hgk⟩ := hg _ (List.mem_of_getElem? hk)
      exact ih hPk hgk

theorem At.sorted (hat : At h p t path h' q t') :
    Sorted (flat h t) → Sorted (flat h' t') := by
  induction hat with
  | here => exact id
  | down hk _ ih =>
      exact fun hs => ih (Sorted.flat_kid hs (List.mem_of_getElem? hk))

/-- The page reached is one of the tree's. -/
theorem At.mem_pages (hat : At h p t path h' q t') : q ∈ p :: pages h t := by
  induction hat with
  | here => exact List.mem_cons_self ..
  | down hk _ ih =>
      apply List.mem_cons_of_mem
      exact List.mem_flatMap.mpr ⟨_, List.mem_of_getElem? hk, ih⟩

/-- Each of the tree's pages is reached. -/
theorem exists_at : ∀ {h : Nat} {p : Ptr} {t : Tree h}, q ∈ p :: pages h t →
    ∃ path h' t', At h p t path h' q t' := by
  intro h
  induction h with
  | zero =>
      intro p t hq
      rcases List.mem_cons.mp hq with rfl | hq
      · exact ⟨[], 0, t, .here⟩
      · exact absurd hq List.not_mem_nil
  | succ h ih =>
      intro p t hq
      rcases List.mem_cons.mp hq with rfl | hq
      · exact ⟨[], h + 1, t, .here⟩
      · obtain ⟨k, hk, hq⟩ := List.mem_flatMap.mp hq
        obtain ⟨i, hi⟩ := List.getElem?_of_mem hk
        obtain ⟨path, h', t', hat⟩ := ih hq
        exact ⟨i :: path, h', t', .down hi hat⟩

/-- In lists without a common element, one element tells the list. -/
theorem index_of_nodup_flatMap {α β : Type} {f : α → List β} {l : List α}
    (hnd : (l.flatMap f).Nodup) {i j : Nat} {a b : α} {x : β}
    (ha : l[i]? = some a) (hb : l[j]? = some b) (hxa : x ∈ f a) (hxb : x ∈ f b) :
    i = j := by
  have hpair := (List.nodup_flatMap.mp hnd).2
  obtain ⟨hi, rfl⟩ := List.getElem?_eq_some_iff.mp ha
  obtain ⟨hj, rfl⟩ := List.getElem?_eq_some_iff.mp hb
  rcases Nat.lt_trichotomy i j with hlt | heq | hlt
  · exact (List.pairwise_iff_getElem.mp hpair i j hi hj hlt hxa hxb).elim
  · exact heq
  · exact (List.pairwise_iff_getElem.mp hpair j i hj hi hlt hxb hxa).elim

/-- No page is reached in two ways. The induction is on the first walk;
where the second turns off, the page would be listed twice. -/
theorem At.unique (hat : At h p t path h' q t') :
    ∀ {h'' : Nat} {t'' : Tree h''}, (p :: pages h t).Nodup →
      At h p t path' h'' q t'' → path = path' := by
  induction hat generalizing path' with
  | here =>
      intro h'' t'' hnd hat'
      cases hat' with
      | here => rfl
      | down hk hat' =>
          obtain ⟨hout, -⟩ := List.nodup_cons.mp hnd
          exact absurd (List.mem_flatMap.mpr
            ⟨_, List.mem_of_getElem? hk, hat'.mem_pages⟩) hout
  | down hk hat ih =>
      intro h'' t'' hnd hat'
      obtain ⟨hout, hnd'⟩ := List.nodup_cons.mp hnd
      cases hat' with
      | here =>
          exact absurd (List.mem_flatMap.mpr
            ⟨_, List.mem_of_getElem? hk, hat.mem_pages⟩) hout
      | down hk' hat' =>
          have hij := index_of_nodup_flatMap hnd' hk hk' hat.mem_pages
            hat'.mem_pages
          subst hij
          rw [hk] at hk'
          cases hk'
          have hkid := (List.nodup_flatMap.mp hnd').1 _ (List.mem_of_getElem? hk)
          rw [ih hkid hat']

-- ======================================================= the shape

/-- A row node on its own. -/
theorem soundNode {buf : BNode} (henc : Encodes buf (nodeType h) (entries h t))
    (hpage : RowPage (entries h t)) (hs : SortedKeys (entries h t)) :
    SoundNode buf where
  type := by
    have hty := Holds.btype henc
    cases h with
    | zero => exact Or.inl hty
    | succ h => exact Or.inr hty
  keys := by
    refine ⟨_, henc.nkeys, List.length_pos_iff.mpr hpage.1, ?_⟩
    intro i j hij hj
    have ha := List.getElem?_eq_getElem (Nat.lt_trans hij hj)
    have hb := List.getElem?_eq_getElem hj
    refine ⟨_, _, Holds.getKey henc ha, Holds.getKey henc hb, ?_⟩
    rw [cmp_of_lt (hs.lt hij ha hb)]
    decide
  size := ⟨_, henc.nbytes, hpage.2⟩

/-- A stored row tree whose pages are distinct is well shaped. -/
theorem wellShaped {root : Ptr} {t : Tree h} (hst : StoredAt m root t)
    (hpage : RowPage (entries h t)) (hg : Good RowPage h t)
    (hs : Sorted (flat h t)) (hnd : (root :: pages h t).Nodup) :
    WellShaped m root where
  sound path p hreach := by
    obtain ⟨h', t', hat, ⟨buf, hbuf, henc⟩, -⟩ := reach_at hreach hst
    obtain ⟨hpage', hg'⟩ := hat.good hpage hg
    exact ⟨buf, hbuf, soundNode henc hpage'
      (sortedKeys_entries (fun _ => rowPage_ne) hg' (hat.sorted hs))⟩
  separator path p node n i q hreach hnode hty hn hi hptr := by
    obtain ⟨h', t', hat, ⟨buf, hbuf, henc⟩, hst'⟩ := reach_at hreach hst
    rw [hnode] at hbuf
    cases hbuf
    obtain ⟨h₀, rfl⟩ := internal_of_type henc hty
    obtain ⟨k, hk, rfl⟩ := kid_of_ptr henc hn hi hptr
    have hmem := List.mem_of_getElem? hk
    obtain ⟨⟨child, hchild, hencc⟩, -⟩ := hst' k hmem
    obtain ⟨-, hg'⟩ := hat.good hpage hg
    refine ⟨child, firstKey (entries h₀ k.2), hchild,
      Holds.getKey henc (getElem?_entries hk), ?_⟩
    exact IsPart.getKey ⟨hencc, (hg' k hmem).1.1⟩
  depth path path' p p' node node' hreach hreach' hnode hnode' hty hty' := by
    obtain ⟨h₁, t₁, hat₁, ⟨b₁, hb₁, henc₁⟩, -⟩ := reach_at hreach hst
    obtain ⟨h₂, t₂, hat₂, ⟨b₂, hb₂, henc₂⟩, -⟩ := reach_at hreach' hst
    rw [hnode] at hb₁
    rw [hnode'] at hb₂
    cases hb₁
    cases hb₂
    have hh₁ := hat₁.height
    have hh₂ := hat₂.height
    rw [leaf_of_type henc₁ hty] at hh₁
    rw [leaf_of_type henc₂ hty'] at hh₂
    omega
  unique path path' p hreach hreach' := by
    obtain ⟨_, _, hat, -⟩ := reach_at hreach hst
    obtain ⟨_, _, hat', -⟩ := reach_at hreach' hst
    exact hat.unique hnd hat'

/-- What is reached from the root of a stored tree is its pages. -/
theorem mem_pages_iff_reach {root : Ptr} {t : Tree h} (hst : StoredAt m root t) :
    q ∈ root :: pages h t ↔ ∃ path, Reach m root path q := by
  constructor
  · intro hq
    obtain ⟨path, _, _, hat⟩ := exists_at hq
    exact ⟨path, hat.reach hst⟩
  · intro ⟨path, hreach⟩
    obtain ⟨_, _, hat, -⟩ := reach_at hreach hst
    exact hat.mem_pages

-- ================================================== the accounting

variable {σ : Type} {refusal : Fault} {ops : PageOps σ} {live : σ → Ptr → Option BNode}

/-- A ledger on which a tree with the root `root` is all that is held. -/
structure Accounts (x : Ledger live) (root : Ptr) : Prop where
  shape : root ≠ 0 → WellShaped (live x.store) root
  held : ∀ p, p ∈ x.held
    ↔ root ≠ 0 ∧ ∃ path, Reach (live x.store) root path p

theorem mem_held_iff (x : Ledger live) (p : Ptr) :
    p ∈ x.held ↔ x.pages p ≠ none := by
  constructor
  · intro hp
    rw [Ledger.pages, if_pos hp]
    exact x.isLive p hp
  · intro hp
    by_contra hout
    exact hp (if_neg hout)

theorem HasTree.accounts {x : Ledger live} {n : Nat} {root : Ptr}
    {l : List (Bytes × Bytes)}
    (ht : HasTree (fun _ => none) x.pages n root l) : Accounts x root := by
  cases ht with
  | empty hroot hnil hown =>
      refine ⟨fun h => absurd hroot h, fun p => ⟨fun hp => ?_, fun hp => ?_⟩⟩
      · have hnone := hown.frame p List.not_mem_nil
        exact absurd hnone ((mem_held_iff x p).mp hp)
      · exact absurd hroot hp.1
  | tree hroot h t hn hsub hflat =>
      have hmem : (root, t) ∈ [(root, t)] := List.mem_singleton.mpr rfl
      have hown : Owned (fun _ => none) x.pages (root :: pages h t) := by
        have := hsub.owned
        rwa [pages_ofKids, List.flatMap_singleton] at this
      have hheld : ∀ p, p ∈ x.held ↔ p ∈ root :: pages h t := by
        intro p
        rw [mem_held_iff]
        exact ⟨fun hp => by_contra fun hout => hp (hown.frame p hout), hown.live p⟩
      -- on the tree's pages the ledger and the store agree
      have hst : Stored (live x.store) (h + 1) (ofKids [(root, t)]) := by
        refine hsub.stored.congr fun p hp => ?_
        rw [pages_ofKids, List.flatMap_singleton] at hp
        exact (if_pos ((hheld p).mpr hp)).symm
      have hst' : StoredAt (live x.store) root t := hst _ hmem
      obtain ⟨hpage, hg⟩ := hsub.good _ hmem
      have hs : Sorted (flat h t) := by
        rw [← flat_single root t]
        exact hsub.sorted
      refine ⟨fun _ => wellShaped hst' hpage hg hs hown.nodup, fun p => ?_⟩
      rw [hheld, mem_pages_iff_reach hst']
      exact ⟨fun hp => ⟨hroot, hp⟩, fun hp => hp.2⟩

/-- After every run of row calls from an empty tree the tree is well
shaped and the pages allocated and not freed are those it reaches; no
call frees a page that is not held. -/
theorem run_accounts (hl : Lawful refusal ops live) (s : σ) (calls : List Call)
    (hrows : ∀ c ∈ calls, c.IsRow) (fuel : Nat) (hfuel : calls.length ≤ fuel) :
    Returns refusal (run (audited hl) fuel ⟨0, .open live s⟩ calls) fun r =>
      Accounts r.2.pages r.2.root := by
  have hstart : Ledger.pages (.open live s) = fun _ => none := by
    funext p
    exact if_neg List.not_mem_nil
  have htracks := tracks_nil (Ledger.pages (.open live s))
  rw [hstart] at htracks
  refine (run_spec (audited_lawful hl) calls 0 ⟨0, .open live s⟩ [] hrows (by omega)
    (by rw [hstart]; exact htracks)).mono ?_
  intro r ⟨_, l, htree, _⟩
  exact htree.accounts

/-- Eight calls on pages in memory, which all return and leave a tree that
has split. -/
theorem run_accounts_memory :
    ∃ as tree node, run (audited memOps_lawful) 8 ⟨0, .open _ .empty⟩ longRows = .ok (as, tree)
      ∧ Accounts tree.pages tree.root ∧ tree.pages.pages tree.root = some node
      ∧ btype node = .ok bnodeInternal := by
  have hlen := Nat.le_of_eq length_longRows
  have hcalls := @run_calls _ (audited memOps_lawful) 8 longRows ⟨0, .open _ .empty⟩
  obtain ⟨⟨as, tree⟩, hrun, haccounts, -⟩ :=
    (memOps_numbered.audited memOps_lawful).returns hcalls (by decide +kernel)
      (run_accounts memOps_lawful .empty longRows longRows_isRow 8 hlen)
  have htracks := ((run_spec (audited_lawful memOps_lawful) longRows 0 ⟨0, .open _ .empty⟩ []
    longRows_isRow (by rwa [Nat.zero_add]) (tracks_nil _)).get hrun).2
  obtain ⟨node, hnode, hinternal⟩ := htracks.longRows
  exact ⟨as, tree, node, hrun, haccounts, hnode, hinternal⟩

end Svacara.Btree
