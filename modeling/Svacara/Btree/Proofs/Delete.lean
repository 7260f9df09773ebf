/-
Deletion.

`treeDelete` works on the kid first and frees the kid's page only when
the key was found, so a miss leaves the pages as they were. What a hit
returns may be small or empty. A small node is merged with a sibling if
the two fit one page; an empty one always does, so a node with no keys
is returned only when there was no sibling (`shouldMerge_spec`), and the
emptiness travels up to the root, where `Delete` drops the tree.

Every level ends in the same way: a node is stored and the parent is
built around it in one page (`attach`). It faults exactly if the parent
has outgrown the page, and `treeDelete_shrinks` has the two outcomes: the
call returns the node that `shrink` computes, or there is none. On the
row workload there always is one (`treeDelete_spec`).
-/
import Svacara.Btree.Proofs.Faults
import Svacara.Btree.Proofs.Shrink

namespace Svacara.Btree

open Outcome Heap SortedMap

variable {σ : Type} {refusal : Fault} {ops : PageOps σ} {live : σ → Ptr → Option BNode}

-- ==================================================== the contract

/-- A row node with the key taken out: what `treeDelete` returns on a
hit. It fits a page but may be empty. -/
structure Deleted (F m : Ptr → Option BNode) (h : Nat) (t t' : Tree h)
    (new : BNode) (key : Bytes) : Prop where
  enc : Encodes new (nodeType h) (entries h t')
  sub : Subtree F m RowPage h t'
  flat_eq : flat h t' = del key (flat h t)
  size : nodeSize (entries h t') ≤ btreePageSize

/-- The two outcomes of `treeDelete`. -/
def DeleteResult (F : Ptr → Option BNode) (live : σ → Ptr → Option BNode)
    (h : Nat) (t : Tree h) (key : Bytes) (s : σ) : Option BNode × σ → Prop
  | (none, s') => s' = s ∧ (flat h t).lookup key = none
  | (some new, s') => (flat h t).lookup key ≠ none
      ∧ ∃ t', Deleted F (live s') h t t' new key

theorem rows_del {l : List (Bytes × Bytes)} (key : Bytes) (hr : Rows l) :
    Rows (del key l) :=
  fun kv hkv => hr kv (mem_of_mem_del hkv)

/-- A node without entries has nothing below it. -/
theorem empty_of_entries : ∀ {h : Nat} {t : Tree h}, entries h t = [] →
    flat h t = [] ∧ pages h t = []
  | 0, _, hnil => ⟨List.map_eq_nil_iff.mp hnil, rfl⟩
  | h + 1, kids, hnil => by
      have hk : (show List (Ptr × Tree h) from kids) = [] :=
        List.map_eq_nil_iff.mp hnil
      subst hk
      exact ⟨rfl, rfl⟩

-- ========================================================== a leaf

theorem treeDelete_leaf (ops : PageOps σ) {F : Ptr → Option BNode} (fuel : Nat)
    (s : σ) (key : Bytes) {node : BNode} {kvs : Tree 0}
    (hnode : Encodes node bnodeLeaf (entries 0 kvs))
    (hpage : RowPage (entries 0 kvs)) (hsub : Subtree F (live s) RowPage 0 kvs) :
    ∃ found, treeDelete ops (fuel + 1) s node key = .ok (found, s)
      ∧ DeleteResult F live 0 kvs key s (found, s) := by
  have hne : kvs ≠ [] := fun hnil => hpage.1 (by rw [hnil]; rfl)
  obtain ⟨L, kv, R, rfl, hlook, hL, hR, -⟩ :=
    lookup_leaf key hnode hsub.sorted hne
  have hlook' : (flat 0 (L ++ kv :: R)).lookup key = _ := lookup_at kv hL hR
  have hsz := hpage.2
  rw [entries_around] at hnode hsz
  have hLlen : (entries 0 L).length = L.length := List.length_map ..
  rw [← hLlen] at hlook
  by_cases heq : key = kv.1
  · subst heq
    have hes : entries 0 (L ++ R) = entries 0 L ++ entries 0 R := List.map_append
    have hfit : nodeSize (entries 0 L ++ entries 0 R) ≤ btreePageSize := by
      have h₁ := nodeSize_append (entries 0 L) (⟨0, kv.1, kv.2⟩ :: entries 0 R)
      have h₂ := nodeSize_append (entries 0 L) (entries 0 R)
      rw [nodeSize_cons] at h₁
      omega
    obtain ⟨new, hnew, henc, -⟩ := build_encodes (make btreePageSize) bnodeLeaf
      (entries 0 L ++ entries 0 R) (by rw [length_make]; decide) (by decide)
      (by rw [length_make]; exact hfit)
    have hfound := treeDelete_found ops fuel s hnode hlook
    rw [hnew] at hfound
    refine ⟨_, hfound, ?_, L ++ R, ?_, ?_, ?_, ?_⟩
    · rw [hlook', if_pos rfl]
      exact Option.some_ne_none _
    · rw [hes]
      exact henc
    · refine ⟨hsub.owned, trivial, trivial, ?_⟩
      show Sorted (L ++ R)
      rw [← del_between (w := kv.2) hL hR]
      exact sorted_del hsub.sorted
    · exact (del_between hL hR).symm
    · rw [hes]
      exact hfit
  · refine ⟨_, treeDelete_missing ops fuel s hnode hlook heq, rfl, ?_⟩
    rw [hlook', if_neg heq]

-- ============================================== the merge decision

section Merge

variable {h : Nat} {L R : List (Ptr × Tree h)} {k : Ptr × Tree h} {t' : Tree h}

/-- What the decision may be for a kid with the new node `t'` between the
siblings `L` and `R`, and the kids it leads to. -/
def MergeChoice (L R : List (Ptr × Tree h)) (t' : Tree h) : MergeDir → Prop
  | .none => (entries h t' = [] → L = [] ∧ R = []) ∧ rejoin L t' R = remain L t' R
  | .left sibling => ∃ L₁ kl, L = L₁ ++ [kl]
      ∧ Encodes sibling (nodeType h) (entries h kl.2)
      ∧ nodeSize (entries h kl.2 ++ entries h t') ≤ btreePageSize
      ∧ rejoin L t' R = L₁ ++ (0, append h kl.2 t') :: R
  | .right sibling => ∃ kr R₁, R = kr :: R₁
      ∧ Encodes sibling (nodeType h) (entries h kr.2)
      ∧ nodeSize (entries h t' ++ entries h kr.2) ≤ btreePageSize
      ∧ rejoin L t' R = L ++ (0, append h t' kr.2) :: R₁

/-- A sibling that is a page and can be fetched. -/
def Sibling (m : Ptr → Option BNode) (k : Ptr × Tree h) : Prop :=
  (∃ buf, m k.1 = some buf ∧ Encodes buf (nodeType h) (entries h k.2))
    ∧ RowPage (entries h k.2)

/-- The sum the merge test computes, in 16 bits, is the merged size. -/
theorem mergeSize {es fs : List Entry} (hes : nodeSize es ≤ btreePageSize)
    (hfs : nodeSize fs ≤ btreePageSize / 4) :
    u16sub (u16 (nodeSize es + nodeSize fs)) header = nodeSize (es ++ fs)
      ∧ nodeSize (es ++ fs) = nodeSize (fs ++ es) := by
  have hpg : btreePageSize = 4096 := rfl
  have hpos : header ≤ nodeSize es := by
    unfold nodeSize
    omega
  have h₁ := nodeSize_append es fs
  have h₂ := nodeSize_append fs es
  rw [u16_of_lt (by omega), u16sub_of_le (by omega) (by omega)]
  omega

/-- The pointer of the next kid. -/
theorem getPtr_next {node : BNode} {kr : Ptr × Tree h} {R : List (Ptr × Tree h)}
    (hnode : Encodes node bnodeInternal (entries (h + 1) (ofKids (L ++ k :: kr :: R)))) :
    getPtr node (L.length + 1) = .ok kr.1 := by
  rw [List.append_cons] at hnode
  simpa using getPtr_kid hnode

theorem shouldMergeRight_spec (hl : Lawful refusal ops live) {s : σ}
    {node updated : BNode}
    (hnode : Encodes node bnodeInternal (entries (h + 1) (ofKids (L ++ k :: R))))
    (hupd : Encodes updated (nodeType h) (entries h t'))
    (hsmall : nodeSize (entries h t') ≤ btreePageSize / 4)
    (hsib : ∀ k' ∈ R, Sibling (live s) k') :
    shouldMergeRight ops s node L.length updated = .ok .none
        ∧ (entries h t' = [] → R = []) ∧ joinRight L t' R = remain L t' R
      ∨ ∃ sibling kr R₁, shouldMergeRight ops s node L.length updated = .ok (.right sibling)
        ∧ R = kr :: R₁ ∧ Encodes sibling (nodeType h) (entries h kr.2)
        ∧ nodeSize (entries h t' ++ entries h kr.2) ≤ btreePageSize
        ∧ joinRight L t' R = L ++ (0, append h t' kr.2) :: R₁ := by
  have hn := hnode.nkeys
  have hlt := hnode.length_lt
  rw [entries_ofKids, List.length_map, List.length_append, List.length_cons] at hn hlt
  rw [shouldMergeRight, hn, ok_bind, u16_of_lt (by omega)]
  cases R with
  | nil =>
      left
      rw [if_neg (by rw [List.length_nil]; omega)]
      exact ⟨rfl, fun _ => rfl, rfl⟩
  | cons kr R₁ =>
      obtain ⟨⟨buf, hbuf, henc⟩, hpage⟩ := hsib kr (List.mem_cons_self ..)
      obtain ⟨hsum, hcomm⟩ := mergeSize hpage.2 hsmall
      rw [if_pos (by rw [List.length_cons]; omega), getPtr_next hnode, ok_bind,
        hl.getPage _ _ _ hbuf, ok_bind, henc.nbytes, ok_bind, hupd.nbytes,
        ok_bind, hsum, hcomm, joinRight]
      by_cases hfit : nodeSize (entries h t' ++ entries h kr.2) ≤ btreePageSize
      · right
        rw [if_pos hfit]
        exact ⟨buf, kr, R₁, rfl, rfl, henc, hfit, if_pos hfit⟩
      · left
        rw [if_neg hfit]
        refine ⟨rfl, fun hnil => absurd ?_ hfit, if_neg hfit⟩
        rw [hnil, List.nil_append]
        exact hpage.2

theorem shouldMerge_spec (hl : Lawful refusal ops live) {s : σ} {node updated : BNode}
    (hnode : Encodes node bnodeInternal (entries (h + 1) (ofKids (L ++ k :: R))))
    (hupd : Encodes updated (nodeType h) (entries h t'))
    (hsib : ∀ k', k' ∈ L ∨ k' ∈ R → Sibling (live s) k') :
    ∃ d, shouldMerge ops s node L.length updated = .ok d
      ∧ MergeChoice L R t' d := by
  have hpg : btreePageSize = 4096 := rfl
  have hhd : header = 4 := rfl
  have hlt := hnode.length_lt
  rw [shouldMerge, hupd.nbytes, ok_bind]
  by_cases hbig : btreePageSize / 4 < nodeSize (entries h t')
  · -- a node this large has keys
    rw [if_pos hbig]
    refine ⟨.none, rfl, fun hnil => ?_, if_pos hbig⟩
    rw [hnil, nodeSize_nil] at hbig
    omega
  · rw [if_neg hbig]
    have hsmall : nodeSize (entries h t') ≤ btreePageSize / 4 := by omega
    have hjoin : rejoin L t' R = _ := if_neg hbig
    have hright := shouldMergeRight_spec hl hnode hupd hsmall
      fun k' hk' => hsib k' (Or.inr hk')
    rcases List.eq_nil_or_concat L with rfl | ⟨L₁, kl, rfl⟩
    · rw [if_neg (by rw [List.length_nil]; omega)]
      rcases hright with ⟨heq, hR, hstay⟩ | ⟨sib, kr, R₁, heq, hR, henc, hfit, hnew⟩
      · exact ⟨_, heq, fun hnil => ⟨rfl, hR hnil⟩, hjoin.trans hstay⟩
      · exact ⟨_, heq, kr, R₁, hR, henc, hfit, hjoin.trans hnew⟩
    · rw [List.concat_eq_append] at *
      obtain ⟨⟨buf, hbuf, henc⟩, hpage⟩ := hsib kl
        (Or.inl (List.mem_append_right _ (List.mem_singleton.mpr rfl)))
      have hptr : getPtr node L₁.length = .ok kl.1 := by
        refine getPtr_kid (R := k :: R) ?_
        rw [List.append_assoc] at hnode
        exact hnode
      obtain ⟨hsum, -⟩ := mergeSize hpage.2 hsmall
      have hLlen : (L₁ ++ [kl]).length = L₁.length + 1 := by
        rw [List.length_append, List.length_singleton]
      rw [List.getLast?_concat] at hjoin
      rw [entries_ofKids, List.length_map, List.length_append, hLlen] at hlt
      rw [if_pos (by omega), u16sub_of_le (by omega) (by omega), hLlen,
        Nat.add_sub_cancel, hptr, ok_bind, hl.getPage _ _ _ hbuf, ok_bind,
        henc.nbytes, ok_bind, hsum]
      by_cases hfit : nodeSize (entries h kl.2 ++ entries h t') ≤ btreePageSize
      · rw [if_pos hfit]
        refine ⟨.left buf, rfl, L₁, kl, rfl, henc, hfit, hjoin.trans ?_⟩
        rw [List.dropLast_concat]
        exact if_pos hfit
      · rw [if_neg hfit]
        rw [hLlen] at hright
        have hjoin' := hjoin.trans (if_neg hfit)
        rcases hright with ⟨heq, hR, hstay⟩ | ⟨sib, kr, R₁, heq, hR, henc', hfit', hnew⟩
        · refine ⟨_, heq, fun hnil => absurd ?_ hfit, hjoin'.trans hstay⟩
          rw [hnil, List.append_nil]
          exact hpage.2
        · exact ⟨_, heq, kr, R₁, hR, henc', hfit', hjoin'.trans hnew⟩

end Merge

-- ================================================== internal nodes

section Internal

variable {h : Nat} {F : Ptr → Option BNode} {L R : List (Ptr × Tree h)}
  {key : Bytes}

/-- The node with these kids fits a page. -/
def Fits (kids : List (Ptr × Tree h)) : Prop :=
  nodeSize (entries (h + 1) (ofKids kids)) ≤ btreePageSize

/-- A level of a deletion: the kids `olds` become `news`, in the node
returned, if these fit. -/
def Rebuilds (refusal : Fault) (F : Ptr → Option BNode) (live : σ → Ptr → Option BNode)
    (I : σ → Prop) (key : Bytes) (olds news : List (Ptr × Tree h)) (s : σ)
    (x : Except Fault (BNode × σ)) : Prop :=
  Meets (fun e => e = refusal ∨ e = .index ∧ ¬ Fits news) x fun r => Fits news ∧ (I s → I r.2)
    ∧ ∃ t', strip (h + 1) t' = strip (h + 1) (ofKids news)
      ∧ Deleted F (live r.2) (h + 1) (ofKids olds) t' r.1 key

/-- How a level ends: a node is stored, and the parent built around it. -/
def attach (ops : PageOps σ) (s : σ) (kid : BNode) (key : Bytes) (A B : List Entry) :
    Except Fault (BNode × σ) := do
  let (ptr, s) ← ops.newPage s kid
  let new ← build (make btreePageSize) bnodeInternal (A ++ ⟨ptr, key, []⟩ :: B)
  return (new, s)

/-- An internal node is built in a page if and only if it fits. -/
theorem build_page {es : List Entry} (hbare : ∀ e ∈ es, e.val = [])
    (hlt : nodeSize es < 65536) :
    Meets (fun e => e = .index ∧ ¬ nodeSize es ≤ btreePageSize)
      (build (make btreePageSize) bnodeInternal es)
      fun new => nodeSize es ≤ btreePageSize ∧ Encodes new bnodeInternal es := by
  have hlen : (make btreePageSize).length = btreePageSize := length_make _
  have hsmall : (make btreePageSize).length < 65536 := by
    rw [hlen]
    decide
  by_cases hfit : nodeSize es ≤ btreePageSize
  · obtain ⟨new, hnew, henc, -⟩ := build_encodes (make btreePageSize) bnodeInternal es hsmall
      (by decide) (by rw [hlen]; exact hfit)
    exact Meets.of_eq hnew ⟨hfit, henc⟩
  · rcases fills_build (make btreePageSize) bnodeInternal es with
      ⟨new, hbuild, -⟩ | ⟨e, hbuild, he⟩
    · obtain ⟨hwritten, hnew⟩ := build_written hsmall (by decide) hlt hbuild
      have hle := (hwritten.encodes_of_bare hbare).nodeSize_le
      rw [hnew, hlen] at hle
      exact absurd hle hfit
    · exact Or.inr ⟨e, hbuild, he, hfit⟩

theorem firstKey_le_nodeSize (es : List Entry) : (firstKey es).length ≤ nodeSize es := by
  cases es with
  | nil => exact Nat.zero_le _
  | cons e es =>
      rw [nodeSize_cons, Entry.size]
      show e.key.length ≤ _
      omega

/-- The node `kid` holds the tree `u` and takes the place of `olds`. -/
theorem attach_rebuilds (hl : Lawful refusal ops live) {I : σ → Prop} (hI : Keeping ops I)
    {s s₂ : σ} {olds : List (Ptr × Tree h)} {u : Tree h} {kid : BNode}
    (hsub : Subtree F (live s) RowPage (h + 1) (ofKids (L ++ (olds ++ R))))
    (hpage : nodeSize (entries (h + 1) (ofKids (L ++ (olds ++ R)))) ≤ btreePageSize)
    (hpart : IsPart kid u) (hsize : nodeSize (entries h u) ≤ btreePageSize)
    (hgood : Good RowPage h u) (hst : Stored (live s₂) h u)
    (hown : Owned F (live s₂) (pages h u ++ restPages L R))
    (hkeep : ∀ q ∈ restPages L R, live s₂ q = live s q)
    (hflat : flat (h + 1) (ofKids L) ++ (flat h u ++ flat (h + 1) (ofKids R))
      = del key (flat (h + 1) (ofKids (L ++ (olds ++ R))))) :
    Rebuilds refusal F live I key (L ++ (olds ++ R)) (L ++ (0, u) :: R) s₂
      (attach ops s₂ kid (firstKey (entries h u)) (L.map kidEntry) (R.map kidEntry)) := by
  have hpg : btreePageSize = 4096 := rfl
  have hfits : FitsPage kid := ⟨_, hpart.1.nbytes, hsize⟩
  refine ((newPage_part hl hpart hown hst).keep.weaken fun e => Or.inl).bind ?_
  intro ⟨ptr, s₃⟩ ⟨hnew, _, hown₃, hst₃, hkeep₃⟩
  have hes : entries (h + 1) (ofKids (L ++ ([(ptr, u)] ++ R)))
      = L.map kidEntry ++ ⟨ptr, firstKey (entries h u), []⟩ :: R.map kidEntry := by
    rw [entries_ofKids, List.map_append]
    rfl
  -- the pointer has no influence on the size
  have hsame : nodeSize (entries (h + 1) (ofKids (L ++ ([(ptr, u)] ++ R))))
      = nodeSize (entries (h + 1) (ofKids (L ++ (0, u) :: R))) := by
    rw [nodeSize_run]
    exact (nodeSize_run L [(0, u)] R).symm
  have hlt : nodeSize (entries (h + 1) (ofKids (L ++ ([(ptr, u)] ++ R)))) < 65536 := by
    have hkey := firstKey_le_nodeSize (entries h u)
    have hone : kidsSize ([(ptr, u)].map Prod.snd) = 4 + (firstKey (entries h u)).length := rfl
    rw [nodeSize_run] at hpage ⊢
    rw [hone, List.length_singleton]
    omega
  have hbare : ∀ e ∈ entries (h + 1) (ofKids (L ++ ([(ptr, u)] ++ R))), e.val = [] := by
    intro e he
    obtain ⟨k, -, rfl⟩ := List.mem_map.mp he
    rfl
  have hflat' : flat (h + 1) (ofKids (L ++ ([(ptr, u)] ++ R)))
      = del key (flat (h + 1) (ofKids (L ++ (olds ++ R)))) := by
    rw [flat_run, flat_single, hflat]
  have hsub' : Subtree F (live s₃) RowPage (h + 1) (ofKids (L ++ ([(ptr, u)] ++ R))) := by
    apply Subtree.rebuild olds hsub (hown₃.perm List.perm_append_comm) ?_ hst₃
      (List.forall_mem_singleton.mpr ⟨⟨hpart.2, hsize⟩, hgood⟩)
    · rw [hflat']
      exact sorted_del hsub.sorted
    · intro q hq
      rw [hkeep₃ q (hown.live q (List.mem_append_right _ hq)), hkeep q hq]
  dsimp only
  rw [← hes]
  refine ((build_page hbare hlt).weaken ?_).bind ?_
  · intro e ⟨hindex, hbig⟩
    rw [hsame] at hbig
    exact Or.inr ⟨hindex, hbig⟩
  · intro new ⟨hfit, henc⟩
    refine Meets.ok ⟨by rw [Fits, ← hsame]; exact hfit, ?_, ofKids (L ++ ([(ptr, u)] ++ R)),
      ?_, henc, hsub', hflat', hfit⟩
    · exact fun hs => hI.newPage _ _ _ hs hfits hnew
    · simp only [strip_kids, List.map_append, List.map_cons, stripKid,
        List.cons_append, List.nil_append]

/-- The pages around a kid that is merged with its left neighbour. -/
theorem perm_mergeLeft (t' : Tree h) (kl : Ptr × Tree h) :
    (pages h t' ++ restPages (L ++ [kl]) R).Perm
      (kl.1 :: (pages h (append h kl.2 t') ++ restPages L R)) := by
  rw [List.perm_iff_count]
  intro p
  simp only [restPages, pages_ofKids, pages_append, List.flatMap_append,
    List.flatMap_cons, List.flatMap_nil, List.count_append, List.count_cons,
    List.count_nil]
  omega

/-- The same for the right neighbour. -/
theorem perm_mergeRight (t' : Tree h) (kr : Ptr × Tree h) :
    (pages h t' ++ restPages L (kr :: R)).Perm
      (kr.1 :: (pages h (append h t' kr.2) ++ restPages L R)) := by
  rw [List.perm_iff_count]
  intro p
  simp only [restPages, pages_ofKids, pages_append, List.flatMap_cons,
    List.count_append, List.count_cons]
  omega

/-- Between the two halves of an internal level: the kid `k` was rewritten
as `t'`, in the node `updated`, its page was freed, and the other kids
are as they were. -/
structure Pending (F : Ptr → Option BNode) (live : σ → Ptr → Option BNode) (s s₂ : σ)
    (node updated : BNode) (L : List (Ptr × Tree h)) (k : Ptr × Tree h)
    (R : List (Ptr × Tree h)) (t' : Tree h) (key : Bytes) : Prop where
  node : Encodes node bnodeInternal (entries (h + 1) (ofKids (L ++ k :: R)))
  page : RowPage (entries (h + 1) (ofKids (L ++ k :: R)))
  sub : Subtree F (live s) RowPage (h + 1) (ofKids (L ++ k :: R))
  enc : Encodes updated (nodeType h) (entries h t')
  size : nodeSize (entries h t') ≤ btreePageSize
  good : Good RowPage h t'
  stored : Stored (live s₂) h t'
  owned : Owned F (live s₂) (pages h t' ++ restPages L R)
  kept : ∀ p ∈ restPages L R, live s₂ p = live s p
  flat_eq : flat (h + 1) (ofKids L) ++ (flat h t' ++ flat (h + 1) (ofKids R))
    = del key (flat (h + 1) (ofKids (L ++ k :: R)))

section Rebuild

variable {s s₂ : σ} {node updated : BNode} {k : Ptr × Tree h} {t' : Tree h}

/-- The siblings are where they were. -/
theorem Pending.sibling (hp : Pending F live s s₂ node updated L k R t' key)
    {k' : Ptr × Tree h} (hk' : k' ∈ L ∨ k' ∈ R) :
    Sibling (live s₂) k' ∧ Good RowPage h k'.2 ∧ Stored (live s₂) h k'.2 := by
  have hmem : k' ∈ L ++ k :: R := by
    rcases hk' with hk' | hk'
    · exact List.mem_append_left _ hk'
    · exact List.mem_append_right _ (List.mem_cons_of_mem _ hk')
  have hrest : ∀ q ∈ k'.1 :: pages h k'.2, q ∈ restPages L R := by
    intro q hq
    rcases hk' with hk' | hk'
    · exact mem_restPages_left (List.mem_flatMap.mpr ⟨k', hk', hq⟩)
    · exact mem_restPages_right (List.mem_flatMap.mpr ⟨k', hk', hq⟩)
  obtain ⟨⟨buf, hbuf, henc⟩, hst'⟩ := hp.sub.stored k' hmem
  obtain ⟨hpage', hgood'⟩ := hp.sub.good k' hmem
  refine ⟨⟨⟨buf, ?_, henc⟩, hpage'⟩, hgood', ?_⟩
  · rw [hp.kept _ (hrest _ (List.mem_cons_self ..)), hbuf]
  · exact hst'.congr fun q hq => hp.kept q (hrest q (List.mem_cons_of_mem _ hq))

/-- Two neighbours become one page: the nodes `left` and `right` hold
`ta` and `tb`, and the page `p` of one of them is still to be freed. -/
theorem merge_rebuilds (hl : Lawful refusal ops live) {I : σ → Prop} (hI : Keeping ops I)
    {left right : BNode} {a b : Ptr × Tree h} {ta tb : Tree h} {p : Ptr}
    (hnode : Encodes node bnodeInternal
      (entries (h + 1) (ofKids (L ++ ([a, b] ++ R)))))
    (hsub : Subtree F (live s) RowPage (h + 1) (ofKids (L ++ ([a, b] ++ R))))
    (hpage : nodeSize (entries (h + 1) (ofKids (L ++ ([a, b] ++ R)))) ≤ btreePageSize)
    (hleft : Encodes left (nodeType h) (entries h ta))
    (hright : Encodes right (nodeType h) (entries h tb))
    (hfit : nodeSize (entries h ta ++ entries h tb) ≤ btreePageSize)
    (hne : entries h ta ++ entries h tb ≠ [])
    (hgood : Good RowPage h (append h ta tb))
    (hst : Stored (live s₂) h (append h ta tb))
    (hown : Owned F (live s₂) (p :: (pages h (append h ta tb) ++ restPages L R)))
    (hkeep : ∀ q ∈ restPages L R, live s₂ q = live s q)
    (hflat : flat (h + 1) (ofKids L)
      ++ (flat h (append h ta tb) ++ flat (h + 1) (ofKids R))
      = del key (flat (h + 1) (ofKids (L ++ ([a, b] ++ R))))) :
    Rebuilds refusal F live I key (L ++ ([a, b] ++ R)) (L ++ (0, append h ta tb) :: R) s₂ (do
      let merged ← nodeMerge (make btreePageSize) left right
      let s ← ops.delPage s₂ p
      let (ptr, s) ← ops.newPage s merged
      let k ← getKey merged 0
      let new ← nodeReplace2Kid (make btreePageSize) node L.length ptr k
      return (new, s)) := by
  have hlen : (make btreePageSize).length = btreePageSize := length_make _
  obtain ⟨merged, hmerge, hmenc⟩ := nodeMerge_encodes (make btreePageSize) hleft
    hright (by rw [hlen]; decide) (by rw [hlen]; exact hfit)
  rw [← entries_append] at hmenc hfit hne
  have hpart : IsPart merged (append h ta tb) := ⟨hmenc, hne⟩
  obtain ⟨s₃, hdel, hown₃, hst₃, hsame⟩ := delPage_unused hl hown hst
  have hkeep₃ : ∀ q ∈ restPages L R, live s₃ q = live s q := fun q hq =>
    (hsame q hq).trans (hkeep q hq)
  have hnode' : Encodes node bnodeInternal
      (L.map kidEntry ++ kidEntry a :: kidEntry b :: R.map kidEntry) := by
    rw [entries_ofKids, List.map_append] at hnode
    exact hnode
  have hreplace : ∀ ptr k, nodeReplace2Kid (make btreePageSize) node L.length ptr k
      = build (make btreePageSize) bnodeInternal
        (L.map kidEntry ++ ⟨ptr, k, []⟩ :: R.map kidEntry) := by
    intro ptr k
    have heq := nodeReplace2Kid_eq (make btreePageSize) ptr k hnode'
    rwa [List.length_map] at heq
  simp only [hmerge, hdel, hpart.getKey, hreplace, ok_bind]
  refine (attach_rebuilds hl hI hsub hpage hpart hfit hgood hst₃ hown₃ hkeep₃ hflat).mono ?_
  intro r ⟨hfits, hkeeps, hdeleted⟩
  exact ⟨hfits, fun hs => hkeeps (hI.delPage _ _ _ hs hdel), hdeleted⟩

theorem rebuildKid_left (hl : Lawful refusal ops live) {I : σ → Prop} (hI : Keeping ops I)
    {sibling : BNode} {kl : Ptr × Tree h}
    (hp : Pending F live s s₂ node updated (L ++ [kl]) k R t' key)
    (hd : shouldMerge ops s₂ node (L ++ [kl]).length updated = .ok (.left sibling))
    (henc : Encodes sibling (nodeType h) (entries h kl.2))
    (hfit : nodeSize (entries h kl.2 ++ entries h t') ≤ btreePageSize) :
    Rebuilds refusal F live I key (L ++ [kl] ++ k :: R) (L ++ (0, append h kl.2 t') :: R) s₂
      (rebuildKid ops s₂ node (L ++ [kl]).length updated) := by
  obtain ⟨⟨-, hpagel⟩, hgoodl, hstl⟩ := hp.sibling
    (Or.inl (List.mem_append_right _ (List.mem_singleton.mpr rfl)))
  obtain ⟨hnode, hpage, hsub, hupd, -, hgood, hst, hown, hkeep, hflat⟩ := hp
  have hlt := hnode.length_lt
  have hkeep' : ∀ q ∈ restPages L R, live s₂ q = live s q := by
    intro q hq
    apply hkeep q
    rcases List.mem_append.mp hq with hq | hq
    · apply mem_restPages_left
      rw [pages_ofKids, List.flatMap_append]
      exact List.mem_append_left _ hq
    · exact mem_restPages_right hq
  rw [List.append_assoc] at hnode hpage hsub hflat
  have hflat' : flat (h + 1) (ofKids L)
      ++ (flat h (append h kl.2 t') ++ flat (h + 1) (ofKids R))
      = del key (flat (h + 1) (ofKids (L ++ ([kl, k] ++ R)))) := by
    have hcat : flat (h + 1) (ofKids (L ++ [kl]))
        = flat (h + 1) (ofKids L) ++ flat h kl.2 := by
      rw [flat_ofKids, List.flatMap_append, List.flatMap_singleton]
      rfl
    rw [hcat, List.append_assoc] at hflat
    rw [flat_append, List.append_assoc]
    exact hflat
  have hptr : getPtr node L.length = .ok kl.1 := getPtr_kid hnode
  have hidx : u16sub (L ++ [kl]).length 1 = L.length := by
    rw [entries_ofKids, List.length_map, List.length_append] at hlt
    rw [List.length_append, List.length_singleton] at hlt ⊢
    rw [u16sub_of_le (by omega) (by omega), Nat.add_sub_cancel]
  rw [rebuildKid, hd, ok_bind, List.append_assoc]
  simp only [hidx, hptr, ok_bind]
  exact merge_rebuilds hl hI hnode hsub hpage.2 henc hupd hfit
    (List.append_ne_nil_of_left_ne_nil hpagel.1 _) (good_append.mpr ⟨hgoodl, hgood⟩)
    (stored_append.mpr ⟨hstl, hst⟩) (hown.perm (perm_mergeLeft t' kl)) hkeep' hflat'

theorem rebuildKid_right (hl : Lawful refusal ops live) {I : σ → Prop} (hI : Keeping ops I)
    {sibling : BNode} {kr : Ptr × Tree h}
    (hp : Pending F live s s₂ node updated L k (kr :: R) t' key)
    (hd : shouldMerge ops s₂ node L.length updated = .ok (.right sibling))
    (henc : Encodes sibling (nodeType h) (entries h kr.2))
    (hfit : nodeSize (entries h t' ++ entries h kr.2) ≤ btreePageSize) :
    Rebuilds refusal F live I key (L ++ k :: kr :: R) (L ++ (0, append h t' kr.2) :: R) s₂
      (rebuildKid ops s₂ node L.length updated) := by
  obtain ⟨⟨-, hpager⟩, hgoodr, hstr⟩ := hp.sibling (Or.inr (List.mem_cons_self ..))
  obtain ⟨hnode, hpage, hsub, hupd, -, hgood, hst, hown, hkeep, hflat⟩ := hp
  have hlt := hnode.length_lt
  have hkeep' : ∀ q ∈ restPages L R, live s₂ q = live s q := by
    intro q hq
    apply hkeep q
    rcases List.mem_append.mp hq with hq | hq
    · exact mem_restPages_left hq
    · exact mem_restPages_right (List.mem_append_right _ hq)
  have hflat' : flat (h + 1) (ofKids L)
      ++ (flat h (append h t' kr.2) ++ flat (h + 1) (ofKids R))
      = del key (flat (h + 1) (ofKids (L ++ ([k, kr] ++ R)))) := by
    rw [flat_append, List.append_assoc]
    exact hflat
  have hptr : getPtr node (u16 (L.length + 1)) = .ok kr.1 := by
    rw [entries_ofKids, List.length_map, List.length_append] at hlt
    rw [u16_of_lt (by rw [List.length_cons] at hlt; omega)]
    exact getPtr_next hnode
  rw [rebuildKid, hd, ok_bind]
  simp only [hptr, ok_bind]
  exact merge_rebuilds hl hI hnode hsub hpage.2 hupd henc hfit
    (List.append_ne_nil_of_right_ne_nil _ hpager.1) (good_append.mpr ⟨hgood, hgoodr⟩)
    (stored_append.mpr ⟨hst, hstr⟩) (hown.perm (perm_mergeRight t' kr)) hkeep' hflat'

/-- The only kid became empty, and so does the node. -/
theorem rebuildKid_empty {I : σ → Prop}
    (hp : Pending F live s s₂ node updated [] k [] t' key)
    (hd : shouldMerge ops s₂ node 0 updated = .ok .none) (hnil : entries h t' = []) :
    Rebuilds refusal F live I key [k] [] s₂ (rebuildKid ops s₂ node 0 updated) := by
  have hlen : (make btreePageSize).length = btreePageSize := length_make _
  have hkeys := hp.enc.nkeys
  have hown := hp.owned
  have hflat := hp.flat_eq
  obtain ⟨hflat0, hpages0⟩ := empty_of_entries hnil
  obtain ⟨new, hnew, hhold, -⟩ := holds_setHeader (make btreePageSize)
    bnodeInternal 0 (by rw [hlen]; decide) (by decide) (by rw [hlen]; decide)
  rw [hnil] at hkeys
  rw [hflat0] at hflat
  rw [hpages0] at hown
  have hfit : nodeSize (entries (h + 1) (ofKids [])) ≤ btreePageSize := by
    show nodeSize [] ≤ btreePageSize
    decide
  rw [rebuildKid, hd, ok_bind, hkeys, ok_bind, if_pos List.length_nil, hnew, ok_bind]
  refine Meets.ok ⟨hfit, id, ofKids [], rfl, hhold, ⟨hown, ?_, ?_, List.Pairwise.nil⟩,
    hflat, hfit⟩
  · intro k' hk'
    cases hk'
  · intro k' hk'
    cases hk'

/-- The kid's new node takes the place of the old one. -/
theorem rebuildKid_single (hl : Lawful refusal ops live) {I : σ → Prop} (hI : Keeping ops I)
    (hp : Pending F live s s₂ node updated L k R t' key)
    (hd : shouldMerge ops s₂ node L.length updated = .ok .none) (hne : entries h t' ≠ []) :
    Rebuilds refusal F live I key (L ++ k :: R) (L ++ (0, t') :: R) s₂
      (rebuildKid ops s₂ node L.length updated) := by
  have hlen : (make btreePageSize).length = btreePageSize := length_make _
  have hpart : IsPart updated t' := ⟨hp.enc, hne⟩
  have hnode : Encodes node bnodeInternal
      (L.map kidEntry ++ kidEntry k :: R.map kidEntry) := by
    have hnode := hp.node
    rwa [entries_ofKids, List.map_append] at hnode
  have hhead : header + 10 * ((L.map (kidEntry (h := h))).length
      + ((R.map (kidEntry (h := h))).length + 1)) + kvSize (L.map kidEntry)
      ≤ (make btreePageSize).length := by
    have hpage := hp.page.2
    rw [show L ++ k :: R = L ++ ([k] ++ R) from rfl, nodeSize_run, List.length_singleton] at hpage
    rw [hlen, kvSize_kidEntry, List.length_map, List.length_map]
    omega
  have hattach := nodeReplaceKidN_single ops (make btreePageSize) s₂ hnode hpart.getKey
    (by rw [hlen]; decide) hhead
  rw [List.length_map] at hattach
  rw [rebuildKid, hd, ok_bind, hp.enc.nkeys, ok_bind,
    if_neg (mt List.length_eq_zero_iff.mp hne), hattach]
  have hsub : Subtree F (live s) RowPage (h + 1) (ofKids (L ++ ([k] ++ R))) := hp.sub
  exact attach_rebuilds hl hI hsub hp.page.2 hpart hp.size hp.good hp.stored hp.owned hp.kept
    hp.flat_eq

/-- The second half of an internal level: the kid's new node is merged
with a sibling, replaces the kid, or leaves an empty node. -/
theorem rebuildKid_rebuilds (hl : Lawful refusal ops live) {I : σ → Prop} (hI : Keeping ops I)
    (hp : Pending F live s s₂ node updated L k R t' key) :
    Rebuilds refusal F live I key (L ++ k :: R) (rejoin L t' R) s₂
      (rebuildKid ops s₂ node L.length updated) := by
  obtain ⟨d, hd, hchoice⟩ := shouldMerge_spec hl hp.node hp.enc
    fun k' hk' => (hp.sibling hk').1
  cases d with
  | left sibling =>
      obtain ⟨L₁, kl, rfl, henc, hfit, hjoin⟩ := hchoice
      rw [hjoin]
      exact rebuildKid_left hl hI hp hd henc hfit
  | right sibling =>
      obtain ⟨kr, R₁, rfl, henc, hfit, hjoin⟩ := hchoice
      rw [hjoin]
      exact rebuildKid_right hl hI hp hd henc hfit
  | none =>
      obtain ⟨hempty, hjoin⟩ := hchoice
      rw [hjoin, remain]
      by_cases hnil : entries h t' = []
      · obtain ⟨rfl, rfl⟩ := hempty hnil
        rw [if_pos hnil]
        exact rebuildKid_empty hp hd hnil
      · rw [if_neg hnil]
        exact rebuildKid_single hl hI hp hd hnil

end Rebuild

end Internal

-- ====================================================== treeDelete

/-- The outcomes of `treeDelete`, with the tree a hit leaves. -/
def ShrinkResult (F : Ptr → Option BNode) (live : σ → Ptr → Option BNode) (I : σ → Prop)
    (h : Nat) (t : Tree h) (key : Bytes) (s : σ) : Option BNode × σ → Prop
  | (none, s') => s' = s ∧ (flat h t).lookup key = none
  | (some new, s') => (flat h t).lookup key ≠ none ∧ (I s → I s')
      ∧ ∃ t', shrink key h (strip h t) = some (strip h t')
        ∧ Deleted F (live s') h t t' new key

/-- The kid that the search takes is the one `shrink` goes to. -/
theorem seat_kids {h : Nat} {L R : List (Ptr × Tree h)} {k : Ptr × Tree h} {key : Bytes}
    (hg : Good RowPage (h + 1) (ofKids (L ++ k :: R)))
    (hL : AllLt (flat (h + 1) (ofKids L)) key) (hR : AllGt key (flat (h + 1) (ofKids R)))
    (hle : L = [] ∨ firstKey (entries h k.2) ≤ key) :
    seat key (entries (h + 1) (ofKids (L ++ k :: R))) = L.length := by
  have hfirst : ∀ k' ∈ L ++ k :: R,
      ∃ e ∈ flat h k'.2, firstKey (entries h k'.2) = e.1 := fun k' hk' =>
    firstKey_mem (fun _ => rowPage_ne) (hg k' hk').2 (hg k' hk').1.1
  rw [entries_ofKids, List.map_append, List.map_cons]
  refine (seat_eq ?_ ?_ ?_).trans (List.length_map ..)
  · intro a ha
    obtain ⟨k', hk', rfl⟩ := List.mem_map.mp ha
    obtain ⟨e, he, hkey⟩ := hfirst k' (List.mem_append_left _ hk')
    show firstKey (entries h k'.2) ≤ key
    rw [hkey]
    exact (hL e (List.mem_flatMap.mpr ⟨k', hk', he⟩)).le
  · rcases hle with rfl | hle
    · exact Or.inl rfl
    · exact Or.inr hle
  · intro b hb
    obtain ⟨k', hk', rfl⟩ := List.mem_map.mp hb
    obtain ⟨e, he, hkey⟩ := hfirst k' (List.mem_append_right _ (List.mem_cons_of_mem _ hk'))
    show key < firstKey (entries h k'.2)
    rw [hkey]
    exact hR e (List.mem_flatMap.mpr ⟨k', hk', he⟩)

/-- One level of `shrink`, without pointers. -/
theorem shrink_strip_node {h : Nat} {L R : List (Ptr × Tree h)} {k : Ptr × Tree h} {key : Bytes}
    (hseat : seat key (entries (h + 1) (ofKids (L ++ k :: R))) = L.length) :
    shrink key (h + 1) (strip (h + 1) (ofKids (L ++ k :: R)))
      = (shrink key h (strip h k.2)).bind fun u =>
        if nodeSize (entries (h + 1) (ofKids (rejoin (L.map stripKid) u (R.map stripKid))))
            ≤ btreePageSize then
          some (ofKids (rejoin (L.map stripKid) u (R.map stripKid)))
        else none := by
  have hmap : (L ++ k :: R).map stripKid = L.map stripKid ++ stripKid k :: R.map stripKid := by
    rw [List.map_append, List.map_cons]
  have hseat' : seat key (entries (h + 1)
      (ofKids (L.map stripKid ++ stripKid k :: R.map stripKid))) = (L.map stripKid).length := by
    rw [← hmap, ← strip_kids, entries_strip, seat_bare, hseat, List.length_map]
  rw [strip_kids, hmap, shrink_node hseat']
  rfl

/-- The contract of `treeDelete`: it returns what `shrink` computes, or
there is nothing to return. The induction is on the height of the tree,
which the fuel must exceed. -/
theorem treeDelete_shrinks (hl : Lawful refusal ops live) {I : σ → Prop} (hI : Keeping ops I)
    (key : Bytes) :
    ∀ (h fuel : Nat) (t : Tree h) (node : BNode) (s : σ) (F : Ptr → Option BNode),
      h < fuel → Encodes node (nodeType h) (entries h t) →
      RowPage (entries h t) → Subtree F (live s) RowPage h t →
      Meets (fun e => e = refusal
          ∨ e = .index ∧ (flat h t).lookup key ≠ none ∧ shrink key h (strip h t) = none)
        (treeDelete ops fuel s node key) (ShrinkResult F live I h t key s) := by
  intro h
  induction h with
  | zero =>
      intro fuel t node s F hfuel hnode hpage hsub
      obtain ⟨fuel, rfl⟩ := exists_fuel hfuel
      obtain ⟨found, heq, hres⟩ := treeDelete_leaf ops fuel s key hnode hpage hsub
      refine Meets.of_eq heq ?_
      cases found with
      | none => exact hres
      | some new =>
          obtain ⟨hhit, t', hdel⟩ := hres
          exact ⟨hhit, id, t', congrArg some hdel.flat_eq.symm, hdel⟩
  | succ h ih =>
      intro fuel kids node s F hfuel hnode hpage hsub
      obtain ⟨fuel, rfl⟩ := exists_fuel hfuel
      have hne : (show List (Ptr × Tree h) from kids) ≠ [] := fun hnil =>
        hpage.1 (by rw [show kids = ofKids [] from hnil]; rfl)
      obtain ⟨L, k, R, rfl, hlook, hR, hle⟩ := lookup_kids_le
        (fun _ => rowPage_ne) key hnode hsub.good hsub.sorted hne
      have hL := allLt_left (fun _ => rowPage_ne) hsub.good hsub.sorted hle
      have hmem : k ∈ L ++ k :: R := List.mem_append_cons_self
      have hptr := getPtr_kid hnode
      have hty : btype node = .ok bnodeInternal := Holds.btype hnode
      obtain ⟨buf, hbuf, henc⟩ := hsub.kid hl
      obtain ⟨G, hkid, hback⟩ := hsub.focus
      have hfound : (flat (h + 1) (L ++ k :: R)).lookup key
          = (flat h k.2).lookup key := by
        rw [flat_around, lookup_middle hL hR]
      have hshrink := shrink_strip_node (seat_kids hsub.good hL hR hle)
      rw [treeDelete, hlook, ok_bind, hty, ok_bind, if_neg (by decide), if_pos rfl,
        hptr, ok_bind, hbuf, ok_bind]
      refine ((ih fuel k.2 buf s G (by omega) henc (hsub.good k hmem).1 hkid).weaken ?_).bind ?_
      · intro e he
        rcases he with he | ⟨hindex, hhit, hnone⟩
        · exact Or.inl he
        · refine Or.inr ⟨hindex, by rw [hfound]; exact hhit, ?_⟩
          rw [hshrink, hnone, Option.bind_none]
      rintro ⟨updated?, s₁⟩ hres
      cases updated? with
      | none =>
          obtain ⟨rfl, hmiss⟩ := hres
          exact Meets.ok ⟨rfl, by rw [hfound]; exact hmiss⟩
      | some updated =>
          obtain ⟨hhit, hkeeps, t', hsome, hdel⟩ := hres
          obtain ⟨hown₁, hkeep₁⟩ := hback _ _ hdel.sub.owned
          obtain ⟨s₂, hs₂, hown₂, hst₂, hsame⟩ := delPage_unused hl hown₁ hdel.sub.stored
          have hkeep₂ : ∀ p ∈ restPages L R, live s₂ p = live s p := fun p hp =>
            (hsame p hp).trans (hkeep₁ p hp)
          have hflat : flat (h + 1) (ofKids L)
              ++ (flat h t' ++ flat (h + 1) (ofKids R))
              = del key (flat (h + 1) (ofKids (L ++ k :: R))) := by
            rw [flat_around, del_append, del_append, hL.del, hR.del, hdel.flat_eq]
          have hhit' : (flat (h + 1) (L ++ k :: R)).lookup key ≠ none := by
            rw [hfound]
            exact hhit
          rw [hsome, Option.bind_some, nodeSize_rejoin_strip, ← strip_rejoin,
            ← strip_kids] at hshrink
          simp only [hs₂, ok_bind]
          refine ((rebuildKid_rebuilds hl hI ⟨hnode, hpage, hsub, hdel.enc, hdel.size,
            hdel.sub.good, hst₂, hown₂, hkeep₂, hflat⟩).weaken ?_).bind ?_
          · intro e he
            rcases he with he | ⟨hindex, hover⟩
            · exact Or.inl he
            · refine Or.inr ⟨hindex, hhit', ?_⟩
              rw [hshrink]
              exact if_neg hover
          · rintro ⟨new, s₃⟩ ⟨hfit, hkeeps', t'', hstrip, hdel'⟩
            refine Meets.ok ⟨hhit', fun hs => hkeeps' (hI.delPage _ _ _ (hkeeps hs) hs₂), t'',
              ?_, hdel'⟩
            rw [hshrink, hstrip]
            exact if_pos hfit

/-- The row workload: nothing outgrows its page. -/
theorem treeDelete_spec (hl : Lawful refusal ops live) (key : Bytes) (h fuel : Nat) (t : Tree h)
    (node : BNode) (s : σ) (F : Ptr → Option BNode) (hfuel : h < fuel)
    (hnode : Encodes node (nodeType h) (entries h t)) (hpage : RowPage (entries h t))
    (hsub : Subtree F (live s) RowPage h t) (hr : Rows (flat h t)) :
    Returns refusal (treeDelete ops fuel s node key) (DeleteResult F live h t key s) := by
  have hI : Keeping ops fun _ => True := ⟨fun _ _ _ _ _ _ => trivial, fun _ _ _ _ _ => trivial⟩
  have hpage' : RowPage (entries h (strip h t)) :=
    ⟨mt entries_strip_eq_nil.mp hpage.1, by rw [nodeSize_strip]; exact hpage.2⟩
  obtain ⟨b', hb', -⟩ := shrink_rows key hpage' (good_strip hsub.good)
    (by rw [flat_strip]; exact hr)
  refine ((treeDelete_shrinks hl hI key h fuel t node s F hfuel hnode hpage hsub).weaken ?_).mono ?_
  · intro e he
    refine he.resolve_right fun ⟨_, _, hnone⟩ => ?_
    rw [hb'] at hnone
    cases hnone
  · intro ⟨found, s'⟩ hres
    cases found with
    | none => exact hres
    | some new =>
        obtain ⟨hhit, -, t', -, hdel⟩ := hres
        exact ⟨hhit, t', hdel⟩

-- ========================================================== Delete

theorem delete_spec (hl : Lawful refusal ops live) {F : Ptr → Option BNode} {n fuel : Nat}
    {tree : BTree σ} {l : List (Bytes × Bytes)} (key : Bytes) (hfuel : n ≤ fuel)
    (hr : Rows l) (ht : HasTree F (live tree.pages) n tree.root l) :
    Returns refusal (delete ops fuel tree key) fun r =>
      r.1 = (l.lookup key).isSome
        ∧ HasTree F (live r.2.pages) n r.2.root (del key l) := by
  rw [delete]
  cases ht with
  | empty hroot hnil hown =>
      subst hnil
      rw [if_pos hroot]
      exact Meets.ok ⟨rfl, .empty hroot rfl hown⟩
  | tree hroot h t hn hsub hflat =>
      subst hflat
      obtain ⟨buf, G, hbuf, henc, hpage, hkid, hback⟩ := hsub.root hl
      rw [if_neg hroot, hbuf, ok_bind]
      refine (treeDelete_spec hl key h fuel t buf tree.pages G (by omega) henc hpage
        hkid hr).bind ?_
      intro ⟨updated?, s₁⟩ hres
      cases updated? with
      | none =>
          -- a miss: the pages are untouched
          obtain ⟨rfl, hmiss⟩ := hres
          rw [hmiss, del_of_lookup_eq_none hmiss]
          exact Meets.ok ⟨rfl, .tree hroot h t hn hsub rfl⟩
      | some updated =>
          obtain ⟨hhit, t', hdel⟩ := hres
          obtain ⟨s₂, hs₂, hsub₂⟩ := hback s₁ t' hdel.sub
          have hbool : ((flat h t).lookup key).isSome = true :=
            Option.isSome_iff_ne_none.mpr hhit
          simp only [hs₂, ok_bind, hdel.enc.nkeys]
          rw [← hdel.flat_eq, hbool]
          by_cases hnil : entries h t' = []
          · obtain ⟨hflat0, hpages0⟩ := empty_of_entries hnil
            have hown₂ := hsub₂.owned
            rw [hpages0] at hown₂
            rw [hnil, if_pos List.length_nil]
            exact Meets.ok ⟨rfl, .empty rfl hflat0 hown₂⟩
          · rw [if_neg (mt List.length_eq_zero_iff.mp hnil)]
            refine (newRoot hl n hdel.enc ⟨hnil, hdel.size⟩ hsub₂ hn).bind ?_
            intro ⟨p, s₃⟩ ht'
            exact Meets.ok ⟨rfl, ht'⟩

end Svacara.Btree
