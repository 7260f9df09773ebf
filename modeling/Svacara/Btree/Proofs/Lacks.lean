/-
Pairs that a lookup cannot find.

`Lacks m key val node` says that no search for `key` under `node` ends
with `val`, whichever turns it takes: every leaf below has the key
nowhere, or not with that value. The pages in between are in order, so
`Get` cannot stray (`Lacks.getLoop`), and more pages change nothing
(`Lacks.mono`).

Two sources of it: a tree that stores no pair with the key
(`Stored.lacks`), and a leaf that was split into parts too large for
their pages, which lose the end of a value (`pieces_lack`). A node that
outgrew even the buffer it was filled in cannot be split at all
(`nodeSplit3_cut_faults`).
-/
import Svacara.Btree.Proofs.Kids
import Svacara.Btree.Proofs.Splitting
import Mathlib.Data.List.Nodup

namespace Svacara.Btree

open Buf Outcome

-- ============================================= where a search ends

theorem lookupLoop_le {node : BNode} {key : Bytes} :
    ∀ (fuel lo hi r : Nat), lo ≤ hi → hi < 65536 →
      lookupLoop node key fuel lo hi = .ok r → r ≤ hi := by
  intro fuel
  induction fuel with
  | zero =>
      intro lo hi r hle hhi h
      cases h
      exact hle
  | succ fuel ih =>
      intro lo hi r hle hhi h
      rw [lookupLoop] at h
      by_cases hlt : lo < hi
      · rw [if_pos hlt] at h
        obtain ⟨k, -, h⟩ := bind_eq_ok.mp h
        rw [u16_of_lt (n := lo + (hi - lo) / 2) (by omega)] at h
        split at h
        · rw [u16_of_lt (by omega)] at h
          exact ih _ _ _ (by omega) hhi h
        · have := ih _ _ _ (by omega) (by omega) h
          omega
      · rw [if_neg hlt] at h
        cases h
        exact hle

/-- The search ends at an entry, or at position 0 of an empty node. -/
theorem nodeLookupLE_lt {node : BNode} {key : Bytes} {n idx : Nat}
    (hn : nkeys node = .ok n) (h : nodeLookupLE node key = .ok idx) :
    idx < n ∨ idx = 0 := by
  rw [nodeLookupLE, hn, ok_bind] at h
  obtain ⟨lo, hlo, h⟩ := bind_eq_ok.mp h
  cases h
  have hle := lookupLoop_le _ _ _ _ (Nat.zero_le n) (nkeys_lt hn) hlo
  split
  · exact Or.inr rfl
  · exact Or.inl (by omega)

-- =================================================== the predicate

/-- No search for `key` under the node ends with `val`. -/
inductive Lacks (m : Ptr → Option BNode) (key val : Bytes) : BNode → Prop where
  | leaf {node : BNode} {n : Nat} (hty : btype node = .ok bnodeLeaf)
      (hn : nkeys node = .ok n)
      (hout : ∀ i, i < n ∨ i = 0 → getKey node i = .ok key → getVal node i ≠ .ok val) :
      Lacks m key val node
  | inner {node : BNode} {es : List Entry} (henc : Encodes node bnodeInternal es)
      (hne : es ≠ []) (hlive : ∀ e ∈ es, m e.ptr ≠ none)
      (hkids : ∀ e ∈ es, ∀ kid, m e.ptr = some kid → Lacks m key val kid) :
      Lacks m key val node

section Lacks

variable {m m' : Ptr → Option BNode} {key val : Bytes} {node : BNode}

theorem lacks_of_kids {es : List Entry} (henc : Encodes node bnodeInternal es)
    (hne : es ≠ []) (hkids : ∀ e ∈ es, ∃ kid, m e.ptr = some kid ∧ Lacks m key val kid) :
    Lacks m key val node := by
  refine .inner henc hne (fun e he hnone => ?_) fun e he kid hkid => ?_
  · obtain ⟨kid, hkid, -⟩ := hkids e he
    rw [hnone] at hkid
    cases hkid
  · obtain ⟨kid', hkid', hlacks⟩ := hkids e he
    rw [hkid] at hkid'
    cases hkid'
    exact hlacks

theorem Lacks.mono (h : Lacks m key val node)
    (hm : ∀ p kid, m p = some kid → m' p = some kid) : Lacks m' key val node := by
  induction h with
  | leaf hty hn hout => exact .leaf hty hn hout
  | inner henc hne hlive hkids ih =>
      refine lacks_of_kids henc hne fun e he => ?_
      obtain ⟨kid, hkid⟩ := Option.ne_none_iff_exists'.mp (hlive e he)
      exact ⟨kid, hm _ _ hkid, ih e he kid hkid⟩

/-- `Get` does not find the value. -/
theorem Lacks.getLoop {σ : Type} {ops : PageOps σ} {s : σ} (h : Lacks m key val node)
    (hm : ∀ p kid, m p = some kid → ops.getPage s p = .ok kid) :
    ∀ fuel, getLoop ops fuel s node key ≠ .ok (some val) := by
  induction h with
  | leaf hty hn hout =>
      intro fuel hget
      cases fuel with
      | zero => cases hget
      | succ fuel =>
          rw [Btree.getLoop] at hget
          obtain ⟨idx, hidx, hget⟩ := bind_eq_ok.mp hget
          rw [hty, ok_bind, if_pos rfl] at hget
          obtain ⟨k, hk, hget⟩ := bind_eq_ok.mp hget
          split at hget
          · next hcmp =>
              obtain ⟨v, hv, hget⟩ := bind_eq_ok.mp hget
              cases hget
              rw [← cmp_eq_zero_iff.mp hcmp] at hk
              exact hout idx (nodeLookupLE_lt hn hidx) hk hv
          · cases hget
  | @inner node es henc hne hlive hkids ih =>
      intro fuel hget
      cases fuel with
      | zero => cases hget
      | succ fuel =>
          have hty : btype node = .ok bnodeInternal := Holds.btype henc
          rw [Btree.getLoop] at hget
          obtain ⟨idx, hidx, hget⟩ := bind_eq_ok.mp hget
          rw [hty, ok_bind, if_neg (by decide), if_pos rfl] at hget
          have hlt : idx < es.length := by
            have hpos : 0 < es.length := List.length_pos_iff.mpr hne
            rcases nodeLookupLE_lt henc.nkeys hidx with hlt | hzero
            · exact hlt
            · rw [hzero]
              exact hpos
          have hat : es[idx]? = some (es.get ⟨idx, hlt⟩) := List.getElem?_eq_getElem hlt
          have hmem := List.mem_of_getElem? hat
          obtain ⟨kid, hkid⟩ := Option.ne_none_iff_exists'.mp (hlive _ hmem)
          rw [Holds.getPtr henc hat, ok_bind, hm _ _ hkid, ok_bind] at hget
          exact ih _ hmem kid hkid fuel hget

end Lacks

/-- A tree without the key lacks it with any value. -/
theorem Stored.lacks {P : List Entry → Prop} (hP : ∀ es, P es → es ≠ [])
    {m : Ptr → Option BNode} {key val : Bytes} :
    ∀ {h : Nat} {t : Tree h} {node : BNode}, Stored m h t →
      Encodes node (nodeType h) (entries h t) → entries h t ≠ [] → Good P h t →
      (∀ kv ∈ flat h t, kv.1 ≠ key) → Lacks m key val node
  | 0, kvs, node, _, henc, hne, _, hout => by
      refine .leaf (Holds.btype henc) henc.nkeys fun i hi hkey => ?_
      have hlt : i < (entries 0 kvs).length := by
        have hpos : 0 < (entries 0 kvs).length := List.length_pos_iff.mpr hne
        omega
      have hat : (entries 0 kvs)[i]? = some ((entries 0 kvs).get ⟨i, hlt⟩) :=
        List.getElem?_eq_getElem hlt
      rw [Holds.getKey henc hat] at hkey
      obtain ⟨kv, hkv, heq⟩ := List.mem_map.mp (List.mem_of_getElem? hat)
      rw [← heq] at hkey
      exact absurd (Except.ok.inj hkey) (hout kv hkv)
  | h + 1, kids, node, hst, henc, hne, hg, hout => by
      refine lacks_of_kids henc hne fun e he => ?_
      obtain ⟨k, hk, rfl⟩ := List.mem_map.mp he
      obtain ⟨⟨buf, hbuf, hencb⟩, hstk⟩ := hst k hk
      obtain ⟨hPk, hgk⟩ := hg k hk
      refine ⟨buf, hbuf, Stored.lacks hP hstk hencb (hP _ hPk) hgk fun kv hkv => ?_⟩
      exact hout kv (List.mem_flatMap.mpr ⟨k, hk, hkv⟩)

-- ================================================= parts of a leaf

section Pieces

variable {m : Ptr → Option BNode} {key val : Bytes} {node : BNode}

/-- The page of an empty part: position 0 reads as an empty pair. -/
theorem getVal_blank (h : build (make btreePageSize) bnodeLeaf [] = .ok node) :
    getVal node 0 = .ok [] := by
  have hrun : (build (make btreePageSize) bnodeLeaf [] >>= fun node => getVal node 0)
      = .ok [] := by decide +kernel
  rwa [h, ok_bind] at hrun

/-- A part without the key. -/
theorem IsPiece.lacks {part : List Entry} (hp : IsPiece bnodeLeaf node part)
    (hkey : ∀ e ∈ part, e.key ≠ key) (hval : val ≠ []) : Lacks m key val node := by
  refine .leaf hp.written.btype hp.written.nkeys fun i hi hget => ?_
  by_cases hlt : i < part.length
  · have hat : part[i]? = some (part.get ⟨i, hlt⟩) := List.getElem?_eq_getElem hlt
    rw [hp.written.getKey hat] at hget
    exact absurd (Except.ok.inj hget) (hkey _ (List.mem_of_getElem? hat))
  · have hnil : part = [] := List.eq_nil_of_length_eq_zero (by omega)
    rw [hi.resolve_left hlt, getVal_blank (hp.blank hnil)]
    exact fun h => hval (Except.ok.inj h).symm

/-- A part larger than its page lacks its last entry. -/
theorem IsPiece.lacks_last {front : List Entry} {e : Entry}
    (hp : IsPiece bnodeLeaf node (front ++ [e]))
    (hbig : btreePageSize < nodeSize (front ++ [e]))
    (hkey : ∀ f ∈ front, f.key ≠ e.key) : Lacks m e.key e.val node := by
  refine .leaf hp.written.btype hp.written.nkeys fun i hi hget => ?_
  have hlen : (front ++ [e]).length = front.length + 1 := by
    rw [List.length_append, List.length_singleton]
  by_cases hlt : i < front.length
  · have hat : (front ++ [e])[i]? = some (front.get ⟨i, hlt⟩) := by
      rw [List.getElem?_append_left hlt]
      exact List.getElem?_eq_getElem hlt
    rw [hp.written.getKey hat] at hget
    exact absurd (Except.ok.inj hget) (hkey _ (List.get_mem ..))
  · have hi' : i = front.length := by omega
    have hat : (front ++ [e])[i]? = some e := by
      rw [hi', List.getElem?_append_right (Nat.le_refl _), Nat.sub_self]
      rfl
    have hover : node.length < nodeSize (front ++ [e]) :=
      Nat.lt_of_not_le fun hle => Nat.not_le.mpr hbig (hp.fits_iff.mp hle)
    rw [nodeSize, kvSize_append, kvSize_cons, kvSize_nil] at hover
    rw [hp.written.getVal_cut hat (by rw [hi', List.take_left]; omega)]
    exact fun h => by cases h

/-- What is cut off is never all of an empty value. -/
theorem IsPiece.last_val_ne {front : List Entry} {e : Entry}
    (hp : IsPiece bnodeLeaf node (front ++ [e]))
    (hbig : btreePageSize < nodeSize (front ++ [e])) : e.val ≠ [] := by
  intro hnil
  have hover : node.length < nodeSize (front ++ [e]) :=
    Nat.lt_of_not_le fun hle => Nat.not_le.mpr hbig (hp.fits_iff.mp hle)
  have hkey := hp.written.keys front.length e (by simp)
  rw [List.take_left] at hkey
  rw [nodeSize, kvSize_append, kvSize_cons, kvSize_nil, Entry.size, hnil,
    List.length_nil] at hover
  omega

/-- If one part is larger than a page, all of them lack some entry. The
induction is on the parts, up to the first that is too large. -/
theorem pieces_lack {nodes : List BNode} {parts : List (List Entry)}
    (hall : List.Forall₂ (IsPiece bnodeLeaf) nodes parts)
    (hnodup : (parts.flatten.map Entry.key).Nodup)
    (hbig : ∃ part ∈ parts, btreePageSize < nodeSize part) :
    ∃ e ∈ parts.flatten, e.val ≠ [] ∧ ∀ m, ∀ node ∈ nodes, Lacks m e.key e.val node := by
  induction hall with
  | nil =>
      obtain ⟨part, hmem, -⟩ := hbig
      cases hmem
  | @cons node part nodes parts hp hrest ih =>
      rw [List.flatten_cons, List.map_append] at hnodup
      obtain ⟨hhead, htail, hdisj⟩ := List.nodup_append.mp hnodup
      by_cases hover : btreePageSize < nodeSize part
      · -- the head is cut: its last entry is in no other part
        rcases List.eq_nil_or_concat part with rfl | ⟨front, e, rfl⟩
        · exact absurd hover (by decide)
        rw [List.concat_eq_append] at hp hover hhead hdisj ⊢
        have hval := hp.last_val_ne hover
        have hmem : e ∈ (front ++ [e]) := List.mem_append_right _ (List.mem_singleton.mpr rfl)
        refine ⟨e, List.mem_append_left _ hmem, hval, fun m node' hnode' => ?_⟩
        rcases List.mem_cons.mp hnode' with heq | hnode'
        · rw [heq]
          refine hp.lacks_last hover fun f hf heq => ?_
          rw [List.map_append, List.map_singleton] at hhead
          exact (List.nodup_append.mp hhead).2.2 _ (List.mem_map_of_mem hf) _
            (List.mem_singleton.mpr rfl) heq
        · obtain ⟨i, hi, rfl⟩ := List.getElem_of_mem hnode'
          have hlen := hrest.length_eq
          have hpiece := (List.forall₂_iff_get.mp hrest).2 i hi (by omega)
          refine hpiece.lacks (fun f hf heq => ?_) hval
          exact hdisj _ (List.mem_map_of_mem hmem) _ (List.mem_map_of_mem
            (List.mem_flatten.mpr ⟨_, List.get_mem .., hf⟩)) heq.symm
      · obtain ⟨e, hmem, hval, hlacks⟩ := ih htail (by
          obtain ⟨big, hbmem, hbig⟩ := hbig
          rcases List.mem_cons.mp hbmem with heq | hbmem
          · rw [heq] at hbig
            exact absurd hbig hover
          · exact ⟨big, hbmem, hbig⟩)
        refine ⟨e, List.mem_append_right _ hmem, hval, fun m node' hnode' => ?_⟩
        rcases List.mem_cons.mp hnode' with heq | hnode'
        · rw [heq]
          refine hp.lacks (fun f hf heq => ?_) hval
          exact hdisj _ (List.mem_map_of_mem hf) _ (List.mem_map_of_mem hmem) heq
        · exact hlacks m node' hnode'

end Pieces

-- ========================================== a node cut when filled

theorem splitLoop_le {old : BNode} {n total : Nat} :
    ∀ (fuel i accum splitIdx r : Nat), splitIdx ≤ n →
      splitLoop old n total fuel i accum splitIdx = .ok r → r ≤ n := by
  intro fuel
  induction fuel with
  | zero =>
      intro i accum splitIdx r hle h
      cases h
      exact hle
  | succ fuel ih =>
      intro i accum splitIdx r hle h
      rw [splitLoop] at h
      by_cases hlt : i < n
      · rw [if_pos hlt] at h
        obtain ⟨key, -, h⟩ := bind_eq_ok.mp h
        obtain ⟨val, -, h⟩ := bind_eq_ok.mp h
        dsimp only at h
        split at h
        · cases h
          exact hle
        · refine ih _ _ _ _ ?_ h
          exact Nat.le_trans (Nat.mod_le _ _) hlt
      · rw [if_neg hlt] at h
        cases h
        exact hle

/-- Copying a run reads every value in it. -/
theorem nodeAppendRange_reads {buf old new : BNode} {dst src n : Nat}
    (h : nodeAppendRange buf old dst src n = .ok new) :
    ∀ i < n, ∃ val, getVal old (u16 (src + i)) = .ok val := by
  have hrun : ∀ (is : List Nat) (b : BNode),
      is.foldlM (appendRangeStep old dst src) b = .ok new →
      ∀ i ∈ is, ∃ val, getVal old (u16 (src + i)) = .ok val := by
    intro is
    induction is with
    | nil =>
        intro b hb i hi
        cases hi
    | cons j is ih =>
        intro b hb i hi
        rw [List.foldlM_cons] at hb
        obtain ⟨b₁, h₁, hb⟩ := bind_eq_ok.mp hb
        obtain ⟨ptr, -, h₁⟩ := bind_eq_ok.mp h₁
        obtain ⟨key, -, h₁⟩ := bind_eq_ok.mp h₁
        obtain ⟨val, hval, -⟩ := bind_eq_ok.mp h₁
        rcases List.mem_cons.mp hi with heq | hi
        · rw [heq]
          exact ⟨val, hval⟩
        · exact ih b₁ hb i hi
  intro i hi
  exact hrun _ _ h i (List.mem_range.mpr hi)

/-- A node that was cut when it was filled cannot be split: whichever
part the last entry goes to, its value is read. -/
theorem nodeSplit3_cut_faults {old : BNode} {ty : Nat} {es : List Entry}
    (hw : Written old ty es.length es) (hcut : old.length < nodeSize es)
    (hover : btreePageSize < nodeSize es) (nodes : List BNode) :
    nodeSplit3 old ≠ .ok nodes := by
  intro h
  have hn := hw.nkeys
  have hlt := nkeys_lt hn
  rcases List.eq_nil_or_concat es with rfl | ⟨front, e, rfl⟩
  · exact absurd hover (by decide)
  rw [List.concat_eq_append] at hw hcut hover hn hlt
  have hlen : (front ++ [e]).length = front.length + 1 := by
    rw [List.length_append, List.length_singleton]
  have hbad : getVal old front.length = .error .index := by
    refine hw.getVal_cut (e := e) (by simp) ?_
    rw [List.take_left]
    rw [nodeSize, kvSize_append, kvSize_cons, kvSize_nil] at hcut
    omega
  rw [nodeSplit3, hw.nbytes, ok_bind, if_neg (Nat.not_le.mpr hover)] at h
  obtain ⟨⟨left, right⟩, hlr, -⟩ := bind_eq_ok.mp h
  rw [nodeSplit2, hn, ok_bind, hw.nbytes, ok_bind] at hlr
  obtain ⟨c, hc, hlr⟩ := bind_eq_ok.mp hlr
  have hcle := splitLoop_le _ _ _ _ _ (Nat.zero_le _) hc
  obtain ⟨ty', -, hlr⟩ := bind_eq_ok.mp hlr
  obtain ⟨l₀, -, hlr⟩ := bind_eq_ok.mp hlr
  obtain ⟨l₁, hl₁, hlr⟩ := bind_eq_ok.mp hlr
  obtain ⟨r₀, -, hlr⟩ := bind_eq_ok.mp hlr
  obtain ⟨r₁, hr₁, -⟩ := bind_eq_ok.mp hlr
  rw [u16sub_of_le hcle hlt] at hr₁
  by_cases hside : front.length < c
  · obtain ⟨val, hval⟩ := nodeAppendRange_reads hl₁ front.length hside
    rw [Nat.zero_add, u16_of_lt (by omega), hbad] at hval
    cases hval
  · obtain ⟨val, hval⟩ := nodeAppendRange_reads hr₁ (front.length - c) (by omega)
    rw [Nat.add_sub_cancel' (by omega), u16_of_lt (by omega), hbad] at hval
    cases hval

end Svacara.Btree
