/-
What becomes of the pointers pushed to a free list.

The list is a chain of pages. `Chained m fl chunks` describes it: each
page with the pointers pushed to it, in order, and a link to the next.
The head reads a page from its first slot on and leaves it for the next
one, or for good; `HeadAt fl chunks passed` says which of the pushed
pointers it has passed. A call extends the chain at the end and the
passed pointers at theirs.

`Tracked` ties a log to this. What `PopHead` has returned is a
subsequence of what the head has passed, and all of it exactly if every
call was safe, since a pointer that the head passed unread is not seen
again.
-/
import Svacara.Btree.FreeLog
import Svacara.Btree.Proofs.FreeList
import Mathlib.Data.List.Nodup

namespace Svacara.Btree

open Buf Outcome

-- ======================================================== one page

/-- A page of the list: the pointers `xs` in its first slots, nothing in
the others, and a link to `next`. -/
structure ListPage (m : Ptr → Option BNode) (page next : Ptr) (xs : List Ptr) : Prop where
  ne : page ≠ 0
  node : ∃ node, m page = some node ∧ node.length = btreePageSize
    ∧ LNode.getNext node = .ok next
    ∧ ∀ i, i < freeListCap → LNode.getPtr node i = .ok (xs.getD i.toNat 0)

variable {m m' : Ptr → Option BNode} {page next ptr : Ptr} {xs : List Ptr}
  {node node' : BNode} {i : UInt64}

theorem ListPage.congr (h : ListPage m page next xs) (heq : m' page = m page) :
    ListPage m' page next xs := by
  obtain ⟨hne, node, hnode, hrest⟩ := h
  exact ⟨hne, node, heq.trans hnode, hrest⟩

theorem ListPage.slotAt (h : ListPage m page next xs) (hi : i < freeListCap) :
    slotAt m page i = some (xs.getD i.toNat 0) := by
  obtain ⟨-, node, hnode, -, -, hslot⟩ := h
  rw [Btree.slotAt, hnode, Option.bind_some, hslot i hi]
  rfl

theorem inPage_of_lt (h : i < freeListCap) : InPage i := UInt64.le_of_lt h

theorem slotPos_lt (h : i < freeListCap) : LNode.slotPos i + 8 ≤ btreePageSize := by
  have hlt : i.toNat < 511 := h
  rw [slotPos_of (inPage_of_lt h)]
  have hsize : btreePageSize = 4096 := rfl
  omega

/-- The word in front of the slots is the link. -/
theorem getNext_setPtr (hi : InPage i) (h : LNode.setPtr node i ptr = .ok node') :
    LNode.getNext node' = LNode.getNext node := by
  rw [LNode.setPtr, putUintAt] at h
  split at h
  · next hlen =>
      cases h
      have hpos := slotPos_of hi
      rw [LNode.getNext, LNode.getNext, uintAt_written_other hlen (by omega)]
  · cases h

theorem setNext_page (hlen : node.length = btreePageSize) (next : Ptr) :
    ∃ node', LNode.setNext node next = .ok node' ∧ node'.length = btreePageSize
      ∧ LNode.getNext node' = .ok next
      ∧ ∀ i, i < freeListCap → LNode.getPtr node' i = LNode.getPtr node i := by
  have hfit : 0 + 8 ≤ node.length := by
    rw [hlen]
    decide
  have hset : LNode.setNext node next = .ok (splice node (leBytes 8 next.toNat) 0) := by
    rw [LNode.setNext, putUintAt, if_pos hfit]
  refine ⟨_, hset, (length_putUintAt hset).trans hlen, ?_, fun i hi =>
    getPtr_setNext (inPage_of_lt hi) hset⟩
  have hv : next.toNat < 256 ^ 8 := next.toNat_lt
  rw [LNode.getNext, uintAt_written hfit hv, ok_bind, pure_eq_ok, UInt64.ofNat_toNat]

theorem setPtr_page (hlen : node.length = btreePageSize) {idx : UInt64}
    (hidx : idx < freeListCap) (ptr : Ptr) :
    ∃ node', LNode.setPtr node idx ptr = .ok node' ∧ node'.length = btreePageSize
      ∧ LNode.getNext node' = LNode.getNext node
      ∧ ∀ i, i < freeListCap →
        LNode.getPtr node' i = if i = idx then .ok ptr else LNode.getPtr node i := by
  have hset : LNode.setPtr node idx ptr
      = .ok (splice node (leBytes 8 ptr.toNat) (LNode.slotPos idx)) := by
    rw [LNode.setPtr, putUintAt, if_pos (by rw [hlen]; exact slotPos_lt hidx)]
  exact ⟨_, hset, (length_putUintAt hset).trans hlen, getNext_setPtr (inPage_of_lt hidx) hset,
    fun i hi => getPtr_setPtr (inPage_of_lt hidx) (inPage_of_lt hi) hset⟩

/-- A slot of a page of zeros. -/
theorem getPtr_make (hi : i < freeListCap) : LNode.getPtr (make btreePageSize) i = .ok 0 := by
  have hzero : slice (make btreePageSize) (LNode.slotPos i) 8
      = List.replicate (min 8 (btreePageSize - LNode.slotPos i)) 0 := by
    rw [slice, make, List.drop_replicate, List.take_replicate]
  rw [LNode.getPtr, uintAt, if_pos (by rw [length_make]; exact slotPos_lt hi), hzero,
    leNat_zeros]
  rfl

-- ======================================================= the chain

/-- The first page of a part of the chain, or the page behind it. -/
def firstPage (chunks : List (Ptr × List Ptr)) (next : Ptr) : Ptr :=
  (chunks.head?.map Prod.fst).getD next

/-- Pages with their pointers, each linked to the one after it and the
last to `next`. -/
def Linked (m : Ptr → Option BNode) : List (Ptr × List Ptr) → Ptr → Prop
  | [], _ => True
  | c :: rest, next => ListPage m c.1 (firstPage rest next) c.2 ∧ Linked m rest next

theorem firstPage_append (A B : List (Ptr × List Ptr)) (next : Ptr) :
    firstPage (A ++ B) next = firstPage A (firstPage B next) := by
  cases A with
  | nil => rfl
  | cons c A => rfl

theorem linked_append {A B : List (Ptr × List Ptr)} :
    Linked m (A ++ B) next ↔ Linked m A (firstPage B next) ∧ Linked m B next := by
  induction A with
  | nil => exact ⟨fun h => ⟨trivial, h⟩, fun h => h.2⟩
  | cons c A ih =>
      rw [List.cons_append, Linked, Linked, ih, firstPage_append, and_assoc]

theorem Linked.congr {A : List (Ptr × List Ptr)} (h : Linked m A next)
    (heq : ∀ c ∈ A, m' c.1 = m c.1) : Linked m' A next := by
  induction A with
  | nil => trivial
  | cons c A ih =>
      exact ⟨h.1.congr (heq c (List.mem_cons_self ..)),
        ih h.2 fun d hd => heq d (List.mem_cons_of_mem _ hd)⟩

theorem Linked.mem {A : List (Ptr × List Ptr)} (h : Linked m A next) {c : Ptr × List Ptr}
    (hc : c ∈ A) : c.1 ≠ 0 ∧ m c.1 ≠ none := by
  induction A with
  | nil => cases hc
  | cons d A ih =>
      rcases List.mem_cons.mp hc with rfl | hc
      · obtain ⟨hne, node, hnode, -⟩ := h.1
        exact ⟨hne, by rw [hnode]; exact Option.some_ne_none node⟩
      · exact ih h.2 hc

/-- A chain with pages: all but the last have something in them; the last
is the tail page, filled up to the tail's position. -/
structure Chain (m : Ptr → Option BNode) (fl : FreeList) (C : List (Ptr × List Ptr))
    (ys : List Ptr) : Prop where
  linked : Linked m (C ++ [(fl.tailPage, ys)]) 0
  nodup : ((C ++ [(fl.tailPage, ys)]).map Prod.fst).Nodup
  full : ∀ c ∈ C, c.2 ≠ []
  count : ys.length = (fl.tailSeq % freeListCap).toNat

/-- The chain of a free list. -/
inductive Chained (m : Ptr → Option BNode) (fl : FreeList) : List (Ptr × List Ptr) → Prop
  | empty (hpage : fl.tailPage = 0) (hseq : fl.tailSeq = 0) : Chained m fl []
  | pages {C : List (Ptr × List Ptr)} {ys : List Ptr} (hchain : Chain m fl C ys) :
      Chained m fl (C ++ [(fl.tailPage, ys)])

/-- Where the head is, and the pushed pointers it has passed: there is no
list, it is in one of the pages, or it has left the last one. -/
inductive HeadAt (fl : FreeList) (chunks : List (Ptr × List Ptr)) : List Ptr → Prop
  | start (hnil : chunks = []) (hpage : fl.headPage = 0) (hseq : fl.headSeq = 0) :
      HeadAt fl chunks []
  | inside {P Q : List (Ptr × List Ptr)} {xs : List Ptr}
      (heq : chunks = P ++ (fl.headPage, xs) :: Q) (hseq : fl.headSeq < headCap) :
      HeadAt fl chunks (P.flatMap Prod.snd ++ xs.take fl.headSeq.toNat)
  | off (hne : chunks ≠ []) (hpage : fl.headPage = 0) :
      HeadAt fl chunks (chunks.flatMap Prod.snd)

-- =================================================== the two calls

variable {σ : Type} {refusal : Fault} {ops : FreeOps σ} {pages : σ → Ptr → Option BNode} {s : σ}
  {fl : FreeList} {C : List (Ptr × List Ptr)} {ys : List Ptr}

/-- A new page for the end of the chain. -/
theorem newTail_page (hl : FreeLawful refusal ops pages) (s : σ) :
    Returns refusal (newTail ops s) fun r =>
      pages s r.1 = none ∧ ListPage (pages r.2) r.1 0 []
        ∧ ∀ p, p ≠ r.1 → pages r.2 p = pages s p := by
  obtain ⟨data, hdata, hlen, hnext, hslot⟩ := setNext_page (length_make _) 0
  rw [newTail, hdata, ok_bind]
  refine (hl.newPage s data).mono ?_
  rintro ⟨p, s'⟩ ⟨hp0, hfresh, hpages⟩
  dsimp only at hp0 hfresh hpages ⊢
  refine ⟨hfresh, ⟨hp0, data, ?_, hlen, hnext, fun i hi => ?_⟩, fun q hq => ?_⟩
  · rw [hpages, Function.update_self]
  · rw [hslot i hi, getPtr_make hi]
    rfl
  · rw [hpages, Function.update_of_ne hq]

theorem mod_cap_lt (seq : UInt64) : seq % freeListCap < freeListCap := by
  show (seq % freeListCap).toNat < 511
  rw [UInt64.toNat_mod]
  exact Nat.mod_lt _ (by decide)

/-- The tail's position after a push, unless it is at a page's end. -/
theorem mod_cap_succ {seq : UInt64} (hmod : (seq + 1) % freeListCap ≠ 0) :
    ((seq + 1) % freeListCap).toNat = (seq % freeListCap).toNat + 1 := by
  have hne : ((seq + 1) % freeListCap).toNat ≠ 0 := fun h => hmod (UInt64.toNat_inj.mp h)
  have hlt := seq.toNat_lt
  have hcap : freeListCap.toNat = 511 := rfl
  rw [UInt64.toNat_mod, UInt64.toNat_add, hcap] at hne ⊢
  rw [UInt64.toNat_mod, hcap]
  have hone : (1 : UInt64).toNat = 1 := rfl
  rw [hone] at hne ⊢
  by_cases hwrap : seq.toNat + 1 = 2 ^ 64
  · rw [hwrap] at hne
    exact absurd rfl hne
  · rw [Nat.mod_eq_of_lt (show seq.toNat + 1 < 2 ^ 64 by omega)] at hne ⊢
    omega

theorem getD_push (ys : List Ptr) (ptr : Ptr) (n : Nat) :
    (ys ++ [ptr]).getD n 0 = if n = ys.length then ptr else ys.getD n 0 := by
  simp only [List.getD_eq_getElem?_getD]
  by_cases hn : n = ys.length
  · rw [if_pos hn, hn, List.getElem?_concat_length]
    rfl
  · rw [if_neg hn]
    by_cases hlt : n < ys.length
    · rw [List.getElem?_append_left hlt]
    · rw [List.getElem?_eq_none (by rw [List.length_append, List.length_singleton]; omega),
        List.getElem?_eq_none (by omega)]

/-- The tail page with one more slot written and its link set. -/
theorem ListPage.push (hnode : node.length = btreePageSize)
    (hslot : ∀ i, i < freeListCap → LNode.getPtr node i = .ok (ys.getD i.toNat 0))
    {idx : UInt64} (hidx : idx < freeListCap) (hcount : ys.length = idx.toNat) (ptr : Ptr) :
    ∃ node', LNode.setPtr node idx ptr = .ok node' ∧ node'.length = btreePageSize
      ∧ LNode.getNext node' = LNode.getNext node
      ∧ ∀ i, i < freeListCap → LNode.getPtr node' i = .ok ((ys ++ [ptr]).getD i.toNat 0) := by
  obtain ⟨node', hset, hlen, hnext, hptr⟩ := setPtr_page hnode hidx ptr
  refine ⟨node', hset, hlen, hnext, fun i hi => ?_⟩
  rw [hptr i hi, hslot i hi, getD_push, hcount]
  by_cases heq : i = idx
  · rw [if_pos heq, if_pos (congrArg UInt64.toNat heq)]
  · rw [if_neg heq, if_neg fun h => heq (UInt64.toNat_inj.mp h)]

/-- `PushTail` on a list that has pages: one slot of the tail page is
written, and a page that is full now gets an empty one behind it. -/
theorem pushTail_pages (hl : FreeLawful refusal ops pages) (hch : Chain (pages s) fl C ys)
    (ptr : Ptr) :
    Returns refusal (pushTail ops s fl ptr) fun r =>
      r.1.headPage = fl.headPage ∧ r.1.headSeq = fl.headSeq
        ∧ ∃ E : List (Ptr × List Ptr), E.flatMap Prod.snd = []
          ∧ Chained (pages r.2) r.1 (C ++ (fl.tailPage, ys ++ [ptr]) :: E) := by
  obtain ⟨hC, ⟨htail, node, hnode, hlen, hnext, hslot⟩, -⟩ := linked_append.mp hch.linked
  have hfresh : ∀ c ∈ C, c.1 ≠ fl.tailPage := by
    intro c hc heq
    have hnodup := hch.nodup
    rw [List.map_append, List.nodup_append] at hnodup
    exact hnodup.2.2 _ (List.mem_map_of_mem hc) _ (List.mem_singleton.mpr rfl) heq
  obtain ⟨s₁, hset, hs₁⟩ := hl.setPage s fl.tailPage node hnode
  obtain ⟨node₁, hput, hlen₁, hnext₁, hslot₁⟩ := ListPage.push hlen hslot
    (mod_cap_lt fl.tailSeq) hch.count ptr
  have hlive : pages s₁ fl.tailPage ≠ none := by
    rw [hs₁, hnode]
    exact Option.some_ne_none node
  have hs₂ : pages (ops.poke s₁ fl.tailPage node₁)
      = Function.update (pages s) fl.tailPage (some node₁) := by
    rw [hl.poke _ _ _ hlive, hs₁]
  rw [pushTail, ensureTail, if_neg htail]
  simp only [pure_eq_ok, ok_bind, hset, hput]
  by_cases hmod : (fl.tailSeq + 1) % freeListCap = 0
  · rw [if_pos hmod]
    refine (newTail_page hl _).bind ?_
    rintro ⟨q, s₃⟩ ⟨hq, hpage, hsame⟩
    obtain ⟨node₂, hput₂, hlen₂, hnext₂, hslot₂⟩ := setNext_page hlen₁ q
    simp only [hput₂, ok_bind]
    have hcur : pages s₃ fl.tailPage = some node₁ := by
      have hne : fl.tailPage ≠ q := by
        rintro rfl
        rw [hs₂, Function.update_self] at hq
        cases hq
      rw [hsame _ hne, hs₂, Function.update_self]
    have hs₄ : pages (ops.poke s₃ fl.tailPage node₂)
        = Function.update (pages s₃) fl.tailPage (some node₂) :=
      hl.poke _ _ _ (by rw [hcur]; exact Option.some_ne_none node₁)
    -- the new page is none of the old ones
    have hold : ∀ c ∈ C ++ [(fl.tailPage, ys)], c.1 ≠ q := by
      rintro c hc rfl
      obtain ⟨-, hc⟩ := hch.linked.mem hc
      by_cases hct : c.1 = fl.tailPage
      · rw [hct, hs₂, Function.update_self] at hq
        cases hq
      · rw [hs₂, Function.update_of_ne hct] at hq
        exact hc hq
    have hqt : q ≠ fl.tailPage := (hold (fl.tailPage, ys) (by simp)).symm
    refine Meets.ok ⟨rfl, rfl, [(q, [])], rfl, ?_⟩
    rw [show C ++ (fl.tailPage, ys ++ [ptr]) :: [(q, [])]
      = (C ++ [(fl.tailPage, ys ++ [ptr])]) ++ [(q, [])] by rw [List.append_assoc]; rfl]
    refine .pages ⟨?_, ?_, ?_, ?_⟩
    · refine linked_append.mpr ⟨linked_append.mpr ⟨hC.congr fun c hc => ?_, ⟨htail, node₂, ?_,
        hlen₂, hnext₂, fun i hi => ?_⟩, trivial⟩, hpage.congr ?_, trivial⟩
      · rw [hs₄, Function.update_of_ne (hfresh c hc),
          hsame _ (hold c (List.mem_append_left _ hc)), hs₂,
          Function.update_of_ne (hfresh c hc)]
      · rw [hs₄, Function.update_self]
      · rw [hslot₂ i hi, hslot₁ i hi]
      · rw [hs₄, Function.update_of_ne hqt]
    · have hnodup := hch.nodup
      rw [List.map_append] at hnodup ⊢
      rw [List.map_append]
      refine List.nodup_append.mpr ⟨hnodup, List.nodup_singleton _, ?_⟩
      intro a ha b hb
      rw [List.mem_singleton.mp hb]
      rw [show C.map Prod.fst ++ [(fl.tailPage, ys ++ [ptr])].map Prod.fst
        = (C ++ [(fl.tailPage, ys)]).map Prod.fst by rw [List.map_append]; rfl] at ha
      obtain ⟨c, hc, rfl⟩ := List.mem_map.mp ha
      exact hold c hc
    · intro c hc
      rcases List.mem_append.mp hc with hc | hc
      · exact hch.full c hc
      · rw [List.mem_singleton.mp hc]
        exact List.append_ne_nil_of_right_ne_nil ys (List.cons_ne_nil ptr [])
    · exact (congrArg UInt64.toNat hmod).symm
  · rw [if_neg hmod]
    refine Meets.ok ⟨rfl, rfl, [], rfl, .pages ⟨?_, ?_, hch.full, ?_⟩⟩
    · refine linked_append.mpr ⟨hC.congr fun c hc => ?_, ⟨htail, node₁, ?_, hlen₁,
        hnext₁.trans hnext, hslot₁⟩, trivial⟩
      · rw [hs₂, Function.update_of_ne (hfresh c hc)]
      · rw [hs₂, Function.update_self]
    · have hnodup := hch.nodup
      rw [List.map_append] at hnodup ⊢
      exact hnodup
    · rw [List.length_append, hch.count, mod_cap_succ hmod]
      rfl

/-- The first `PushTail` makes the list. -/
theorem pushTail_first (hl : FreeLawful refusal ops pages) (htail : fl.tailPage = 0)
    (hseq : fl.tailSeq = 0) (ptr : Ptr) :
    Returns refusal (pushTail ops s fl ptr) fun r =>
      r.1.headSeq = fl.headSeq ∧ ∃ E : List (Ptr × List Ptr), E.flatMap Prod.snd = []
        ∧ Chained (pages r.2) r.1 ((r.1.headPage, [ptr]) :: E) := by
  have hensure : Returns refusal (ensureTail ops s fl) fun r =>
      Chain (pages r.2) r.1 [] [] ∧ r.1.tailPage ≠ 0 ∧ r.1.headPage = r.1.tailPage
        ∧ r.1.headSeq = fl.headSeq := by
    rw [ensureTail, if_pos htail]
    refine (newTail_page hl s).bind ?_
    rintro ⟨q, s₁⟩ ⟨-, hpage, -⟩
    refine Meets.ok ⟨⟨⟨hpage, trivial⟩, List.nodup_singleton _,
      fun _ hc => absurd hc List.not_mem_nil, ?_⟩, hpage.ne, rfl, rfl⟩
    dsimp only
    rw [hseq]
    rfl
  rw [pushTail]
  refine hensure.bind ?_
  rintro ⟨fl₁, s₁⟩ ⟨hch, hne, hhead, hheadSeq⟩
  have hpush := pushTail_pages hl hch ptr
  rw [pushTail, ensureTail, if_neg hne, pure_eq_ok, ok_bind] at hpush
  refine hpush.mono ?_
  rintro ⟨fl₂, s₂⟩ ⟨hpage₂, hseq₂, E, hE, hch₂⟩
  dsimp only at hpage₂ hseq₂ hheadSeq hhead ⊢
  refine ⟨hseq₂.trans hheadSeq, E, hE, ?_⟩
  rw [hpage₂, hhead]
  exact hch₂

/-- `PopHead` with the head on a page: the slot is read, and after the
last slot the head goes on to the next page. -/
theorem popHead_page (hl : FreeLawful refusal ops pages)
    (hpage : ListPage (pages s) fl.headPage next xs) (hseq : fl.headSeq < headCap)
    (hne : next ≠ fl.headPage) :
    ∃ fl' s', popHead ops s fl = .ok (xs.getD fl.headSeq.toNat 0, fl', s')
      ∧ pages s' = pages s ∧ fl'.tailPage = fl.tailPage ∧ fl'.tailSeq = fl.tailSeq
      ∧ (fl.headSeq + 1 ≠ headCap ∧ fl'.headPage = fl.headPage
          ∧ fl'.headSeq = fl.headSeq + 1
        ∨ fl.headSeq + 1 = headCap ∧ fl'.headPage = next
          ∧ (next ≠ 0 → fl'.headSeq = 0)) := by
  have hlt : fl.headSeq.toNat < 64 := hseq
  have hone : (fl.headSeq + 1).toNat = fl.headSeq.toNat + 1 := by
    rw [UInt64.toNat_add, show (1 : UInt64).toNat = 1 from rfl]
    omega
  have hlast : freeListCap ≤ (fl.headSeq + 1) * 8 ↔ fl.headSeq + 1 = headCap := by
    rw [UInt64.le_iff_toNat_le, ← UInt64.toNat_inj, UInt64.toNat_mul, hone,
      show (8 : UInt64).toNat = 8 from rfl, show freeListCap.toNat = 511 from rfl,
      show headCap.toNat = 64 from rfl]
    omega
  have hcap : fl.headSeq < freeListCap := by
    show fl.headSeq.toNat < 511
    omega
  obtain ⟨hhead, node, hnode, -, hnext, hslot⟩ := hpage
  rw [popHead, if_neg hhead, hl.getPage _ _ _ hnode, ok_bind, hslot _ hcap, ok_bind]
  simp only [hnext, ok_bind]
  by_cases hend : freeListCap ≤ (fl.headSeq + 1) * 8
  · obtain ⟨s', hset, hs'⟩ := hl.setPage s fl.headPage node hnode
    rw [if_pos hend]
    by_cases hn : next = 0
    · rw [if_neg (not_not.mpr hn), if_pos hne, hset, ok_bind]
      exact ⟨_, s', rfl, hs', rfl, rfl, Or.inr ⟨hlast.mp hend, rfl, fun h => absurd hn h⟩⟩
    · rw [if_pos hn, if_pos hne, hset, ok_bind]
      exact ⟨_, s', rfl, hs', rfl, rfl, Or.inr ⟨hlast.mp hend, rfl, fun _ => rfl⟩⟩
  · rw [if_neg hend]
    exact ⟨_, s, rfl, rfl, rfl, rfl, Or.inl ⟨mt hlast.mpr hend, rfl, rfl⟩⟩

-- ================================================== what is passed

variable {chunks : List (Ptr × List Ptr)} {passed : List Ptr}

/-- What a page list ends in. -/
theorem append_singleton_cases {α : Type} {C P Q : List α} {a b : α}
    (h : C ++ [a] = P ++ b :: Q) :
    C = P ∧ a = b ∧ Q = [] ∨ ∃ Q', Q = Q' ++ [a] ∧ C = P ++ b :: Q' := by
  rcases List.eq_nil_or_concat Q with rfl | ⟨Q', c, rfl⟩
  · obtain ⟨hC, hab⟩ := List.append_inj' h rfl
    exact Or.inl ⟨hC, List.singleton_inj.mp hab, rfl⟩
  · rw [List.concat_eq_append, ← List.cons_append, ← List.append_assoc] at h
    obtain ⟨hC, hac⟩ := List.append_inj' h rfl
    cases List.singleton_inj.mp hac
    exact Or.inr ⟨Q', List.concat_eq_append, hC⟩

/-- A push that the head is not behind leaves the passed pointers alone;
one that it is behind is passed at once. -/
theorem HeadAt.push (hch : Chain m fl C ys)
    (hhead : HeadAt fl (C ++ [(fl.tailPage, ys)]) passed) {fl' : FreeList} {p : Ptr}
    {E : List (Ptr × List Ptr)} (hE : E.flatMap Prod.snd = [])
    (hpage : fl'.headPage = fl.headPage) (hseq : fl'.headSeq = fl.headSeq) :
    ∃ extra, HeadAt fl' (C ++ (fl.tailPage, ys ++ [p]) :: E) (passed ++ extra)
      ∧ (extra = [] ↔ fl.Safe m (.push p)) := by
  have htail : fl.tailPage ≠ 0 := (hch.linked.mem (c := (fl.tailPage, ys)) (by simp)).1
  have hcount : ys.length = (fl.tailSeq % freeListCap).toNat := hch.count
  cases hhead with
  | start hnil => exact absurd hnil (by simp)
  | off hne hoff =>
      refine ⟨[p], ?_, iff_of_false (List.cons_ne_nil _ _) ?_⟩
      · have hall : (C ++ [(fl.tailPage, ys)]).flatMap Prod.snd ++ [p]
            = (C ++ (fl.tailPage, ys ++ [p]) :: E).flatMap Prod.snd := by
          simp [hE]
        rw [hall]
        exact .off (by simp) (hpage.trans hoff)
      · rintro (h0 | ⟨h0, -⟩)
        · exact htail h0
        · exact h0 hoff
  | @inside P Q xs heq hlt =>
      have hmem : (fl.headPage, xs) ∈ C ++ [(fl.tailPage, ys)] := by
        rw [heq]
        exact List.mem_append_cons_self
      have hhead0 : fl.headPage ≠ 0 := (hch.linked.mem hmem).1
      rcases append_singleton_cases heq with ⟨rfl, hpair, rfl⟩ | ⟨Q', rfl, hC⟩
      · -- head and tail are on one page
        obtain ⟨hpages, rfl⟩ := Prod.mk.inj hpair
        have hinside : HeadAt fl' (C ++ (fl.tailPage, ys ++ [p]) :: E)
            (C.flatMap Prod.snd ++ (ys ++ [p]).take fl.headSeq.toNat) := by
          rw [← hseq]
          exact .inside (by rw [hpage, hpages]) (by rw [hseq]; exact hlt)
        by_cases hle : fl.headSeq.toNat ≤ ys.length
        · refine ⟨[], ?_, iff_of_true rfl (Or.inr ⟨hhead0, fun _ => ?_⟩)⟩
          · rwa [List.take_append_of_le_length hle, ← List.append_nil (_ ++ ys.take _)]
              at hinside
          · rw [UInt64.le_iff_toNat_le, ← hcount]
            exact hle
        · refine ⟨[p], ?_, iff_of_false (List.cons_ne_nil _ _) ?_⟩
          · rw [List.take_of_length_le (by rw [List.length_append]; exact Nat.not_le.mp hle),
              ← List.append_assoc] at hinside
            rw [List.take_of_length_le (Nat.le_of_not_le hle)]
            exact hinside
          · rintro (h0 | ⟨-, h0⟩)
            · exact htail h0
            · have hle' := UInt64.le_iff_toNat_le.mp (h0 hpages.symm)
              rw [← hcount] at hle'
              exact hle hle'
      · refine ⟨[], ?_, iff_of_true rfl (Or.inr ⟨hhead0, fun heqp => ?_⟩)⟩
        · rw [List.append_nil, ← hseq]
          refine .inside (Q := Q' ++ (fl.tailPage, ys ++ [p]) :: E) ?_ (by rw [hseq]; exact hlt)
          rw [hC, hpage, List.append_assoc]
          rfl
        · -- the head's page would be in the chain twice
          have hnodup := hch.nodup
          rw [List.map_append, List.nodup_append] at hnodup
          refine absurd heqp (hnodup.2.2 _ ?_ _ (List.mem_singleton.mpr rfl))
          rw [hC]
          exact List.mem_map_of_mem List.mem_append_cons_self

theorem Chained.linked (h : Chained m fl chunks) :
    Linked m chunks 0 ∧ (chunks.map Prod.fst).Nodup := by
  cases h with
  | empty => exact ⟨trivial, List.nodup_nil⟩
  | pages hchain => exact ⟨hchain.linked, hchain.nodup⟩

/-- The tail is where it was, so the chain is. -/
theorem Chained.congr (h : Chained m fl chunks) {fl' : FreeList}
    (hpage : fl'.tailPage = fl.tailPage) (hseq : fl'.tailSeq = fl.tailSeq) :
    Chained m fl' chunks := by
  cases h with
  | empty h₁ h₂ => exact .empty (hpage.trans h₁) (hseq.trans h₂)
  | pages hchain =>
      obtain ⟨hlinked, hnodup, hfull, hcount⟩ := hchain
      rw [← hpage] at hlinked hnodup ⊢
      rw [← hseq] at hcount
      exact .pages ⟨hlinked, hnodup, hfull, hcount⟩

-- ========================================================= the log

/-- A list of pointers that is behind another one stays behind it. -/
theorem whole_extend {popped passed : List Ptr} (l extra : List Ptr)
    (hsub : popped.Sublist passed) :
    popped ++ l = passed ++ l ++ extra ↔ popped = passed ∧ extra = [] := by
  constructor
  · intro h
    have hlen := congrArg List.length h
    have hle := hsub.length_le
    simp only [List.length_append] at hlen
    obtain rfl : extra = [] := List.length_eq_zero_iff.mp (by omega)
    rw [List.append_nil] at h
    exact ⟨List.append_cancel_right h, rfl⟩
  · rintro ⟨rfl, rfl⟩
    rw [List.append_nil]

/-- The log of a list, with the chain, the pointers passed and whether
all calls were safe. -/
structure Tracked (m : Ptr → Option BNode) (x : FreeLog σ) (chunks : List (Ptr × List Ptr))
    (passed : List Ptr) (safe : Prop) : Prop where
  chained : Chained m x.list chunks
  head : HeadAt x.list chunks passed
  pushed : x.pushed = chunks.flatMap Prod.snd
  nonzero : ∀ p ∈ x.pushed, p ≠ 0
  popped : x.popped.Sublist passed
  whole : x.popped = passed ↔ safe
  used : ∀ i ∈ x.used, i < freeListCap

variable {x : FreeLog σ} {safe : Prop}

theorem Tracked.start (s : σ) : Tracked m (FreeLog.start s) [] [] True where
  chained := .empty rfl rfl
  head := .start rfl rfl rfl
  pushed := rfl
  nonzero _ hp := absurd hp List.not_mem_nil
  popped := List.Sublist.slnil
  whole := iff_of_true rfl trivial
  used _ hi := absurd hi List.not_mem_nil

theorem Tracked.push (hl : FreeLawful refusal ops pages)
    (h : Tracked (pages x.pages) x chunks passed safe) {p : Ptr} (hp : p ≠ 0) :
    Returns refusal (x.step ops (.push p)) fun r => ∃ chunks' passed',
      Tracked (pages r.2.pages) r.2 chunks' passed'
        (safe ∧ x.list.Safe (pages x.pages) (.push p)) := by
  obtain ⟨hchained, hhead, hpushed, hnonzero, hpopped, hwhole, hused⟩ := h
  have hnonzero' : ∀ q ∈ x.pushed ++ [p], q ≠ 0 := by
    intro q hq
    rcases List.mem_append.mp hq with hq | hq
    · exact hnonzero q hq
    · rw [List.mem_singleton.mp hq]
      exact hp
  have hused' : ∀ i ∈ x.used ++ [x.list.tailSeq % freeListCap], i < freeListCap := by
    intro i hi
    rcases List.mem_append.mp hi with hi | hi
    · exact hused i hi
    · rw [List.mem_singleton.mp hi]
      exact mod_cap_lt _
  cases hchained with
  | empty htail hseq =>
      cases hhead with
      | inside heq => exact absurd heq (by simp)
      | off hne => exact absurd rfl hne
      | start _ hpage hheadSeq =>
          refine (pushTail_first hl htail hseq p).bind ?_
          rintro ⟨fl, s⟩ ⟨hseq', E, hE, hch⟩
          dsimp only at hseq' hch
          have hat : HeadAt fl ((fl.headPage, [p]) :: E) [] := by
            have hzero : fl.headSeq = 0 := hseq'.trans hheadSeq
            have hin : HeadAt fl ([] ++ (fl.headPage, [p]) :: E)
                ([] ++ [p].take fl.headSeq.toNat) :=
              .inside rfl (by rw [hzero]; decide)
            rw [hzero] at hin
            exact hin
          refine Meets.ok ⟨_, [], hch, hat, ?_, hnonzero', hpopped, ?_, hused'⟩
          · simp [hpushed, hE]
          · rw [hwhole]
            exact ⟨fun hs => ⟨hs, Or.inl htail⟩, fun hs => hs.1⟩
  | @pages C ys hchain =>
      refine (pushTail_pages hl hchain p).bind ?_
      rintro ⟨fl, s⟩ ⟨hpage', hseq', E, hE, hch⟩
      dsimp only at hpage' hseq' hch
      obtain ⟨extra, hat, hextra⟩ := hhead.push (p := p) hchain hE hpage' hseq'
      refine Meets.ok ⟨_, _, hch, hat, ?_, hnonzero',
        hpopped.trans (List.sublist_append_left _ _), ?_, hused'⟩
      · simp [hpushed, hE]
      · have hw := whole_extend [] extra hpopped
        rw [List.append_nil, List.append_nil] at hw
        exact hw.trans (and_congr hwhole hextra)

/-- A slot of a page with pointers holds 0 just when it is behind them. -/
theorem getD_eq_zero_iff (hxs : ∀ p ∈ xs, p ≠ 0) (n : Nat) :
    xs.getD n 0 = 0 ↔ xs.length ≤ n := by
  rw [List.getD_eq_getElem?_getD]
  by_cases hn : n < xs.length
  · rw [List.getElem?_eq_getElem hn]
    exact iff_of_false (hxs _ (List.getElem_mem hn)) (Nat.not_le.mpr hn)
  · rw [List.getElem?_eq_none (Nat.not_lt.mp hn)]
    exact iff_of_true rfl (Nat.not_lt.mp hn)

/-- The pointers of a page are among those pushed. -/
theorem Tracked.chunk_nonzero (h : Tracked m x chunks passed safe) {c : Ptr × List Ptr}
    (hc : c ∈ chunks) : ∀ p ∈ c.2, p ≠ 0 := by
  intro p hp
  refine h.nonzero p ?_
  rw [h.pushed]
  exact List.mem_flatMap.mpr ⟨c, hc, hp⟩

/-- The page of the head. -/
theorem Chained.page_at {P Q : List (Ptr × List Ptr)} {c : Ptr × List Ptr}
    (h : Chained m fl (P ++ c :: Q)) :
    ListPage m c.1 (firstPage Q 0) c.2 ∧ firstPage Q 0 ≠ c.1 := by
  obtain ⟨hlinked, hnodup⟩ := h.linked
  obtain ⟨-, hpage, hQ⟩ := linked_append.mp hlinked
  refine ⟨hpage, ?_⟩
  cases Q with
  | nil => exact hpage.ne.symm
  | cons d Q =>
      rw [List.map_append, List.map_cons, List.map_cons] at hnodup
      have hcd := (List.nodup_cons.mp (List.nodup_append.mp hnodup).2.1).1
      exact fun heq => hcd (heq ▸ List.mem_cons_self ..)

theorem Tracked.pop_stay (ops : FreeOps σ) (h : Tracked (pages x.pages) x chunks passed safe)
    (hpage : x.list.headPage = 0) :
    ∃ y, x.step ops .pop = .ok (0, y) ∧ Tracked (pages y.pages) y chunks passed
      (safe ∧ x.list.Safe (pages x.pages) .pop) := by
  have hpop : popHead ops x.pages x.list = .ok (0, x.list, x.pages) := by
    rw [popHead, if_pos hpage]
    rfl
  refine ⟨_, by rw [FreeLog.step, hpop, ok_bind]; rfl, ?_⟩
  rw [if_pos rfl, if_pos hpage]
  refine ⟨h.chained, h.head, h.pushed, h.nonzero, h.popped, h.whole.trans ?_, h.used⟩
  exact ⟨fun hs => ⟨hs, fun h0 => absurd hpage h0⟩, fun hs => hs.1⟩

/-- What the head passes when it has read a slot: the pointer there, and
with the last slot all that is behind it in the page. -/
theorem HeadAt.pop {fl fl' : FreeList} {P Q : List (Ptr × List Ptr)}
    (hlinked : Linked m (P ++ (fl.headPage, xs) :: Q) 0) (hxs : ∀ p ∈ xs, p ≠ 0)
    (hseq : fl.headSeq < headCap)
    (hmove : fl.headSeq + 1 ≠ headCap ∧ fl'.headPage = fl.headPage
          ∧ fl'.headSeq = fl.headSeq + 1
        ∨ fl.headSeq + 1 = headCap ∧ fl'.headPage = firstPage Q 0
          ∧ (firstPage Q 0 ≠ 0 → fl'.headSeq = 0)) :
    ∃ extra, HeadAt fl' (P ++ (fl.headPage, xs) :: Q)
        (P.flatMap Prod.snd ++ xs.take (fl.headSeq.toNat + 1) ++ extra)
      ∧ (extra = [] ↔ fl.Safe m .pop) := by
  have hlt : fl.headSeq.toNat < 64 := hseq
  have hone : (fl.headSeq + 1).toNat = fl.headSeq.toNat + 1 := by
    rw [UInt64.toNat_add, show (1 : UInt64).toNat = 1 from rfl]
    omega
  obtain ⟨-, hpage, hQ⟩ := linked_append.mp hlinked
  rcases hmove with ⟨hnot, hpg, hsq⟩ | ⟨hend, hpg, hzero⟩
  · refine ⟨[], ?_, iff_of_true rfl fun _ hend => absurd hend hnot⟩
    rw [List.append_nil, ← hone, ← hsq]
    refine .inside (by rw [hpg]) ?_
    have hne : (fl.headSeq + 1).toNat ≠ 64 := fun h => hnot (UInt64.toNat_inj.mp h)
    show fl'.headSeq.toNat < 64
    rw [hsq]
    omega
  · have h64 : fl.headSeq.toNat + 1 = 64 := by
      rw [← hone, hend]
      rfl
    refine ⟨xs.drop 64, ?_, ?_⟩
    · rw [h64, List.append_assoc, List.take_append_drop]
      cases Q with
      | nil =>
          have hall : P.flatMap Prod.snd ++ xs
              = (P ++ [(fl.headPage, xs)]).flatMap Prod.snd := by
            simp
          rw [hall]
          exact .off (by simp) hpg
      | cons d Q =>
          have hpage' : fl'.headPage = d.1 := hpg
          have hin : HeadAt fl' (P ++ [(fl.headPage, xs)] ++ (fl'.headPage, d.2) :: Q)
              ((P ++ [(fl.headPage, xs)]).flatMap Prod.snd ++ d.2.take fl'.headSeq.toNat) :=
            .inside rfl (by rw [hzero hQ.1.ne]; decide)
          rw [hzero hQ.1.ne, hpage'] at hin
          simpa using hin
    · have hslot := hpage.slotAt (i := headCap) (by decide)
      rw [List.drop_eq_nil_iff]
      constructor
      · intro hle _ _
        rw [hslot]
        exact congrArg some ((getD_eq_zero_iff hxs _).mpr hle)
      · intro hsafe
        have h0 := hsafe hpage.ne hend
        rw [hslot] at h0
        exact (getD_eq_zero_iff hxs _).mp (Option.some.inj h0)

theorem Tracked.pop_read (hl : FreeLawful refusal ops pages)
    (h : Tracked (pages x.pages) x chunks passed safe) {P Q : List (Ptr × List Ptr)}
    (heq : chunks = P ++ (x.list.headPage, xs) :: Q)
    (hpassed : passed = P.flatMap Prod.snd ++ xs.take x.list.headSeq.toNat)
    (hseq : x.list.headSeq < headCap) :
    ∃ y passed', x.step ops .pop = .ok (xs.getD x.list.headSeq.toNat 0, y)
      ∧ Tracked (pages y.pages) y chunks passed'
        (safe ∧ x.list.Safe (pages x.pages) .pop) := by
  have hchained := h.chained
  rw [heq] at hchained
  obtain ⟨hpage, hne⟩ := hchained.page_at
  have hxs : ∀ p ∈ xs, p ≠ 0 := h.chunk_nonzero (c := (x.list.headPage, xs))
    (by rw [heq]; exact List.mem_append_cons_self)
  obtain ⟨fl, s, hpop, hpages, htail, htailSeq, hmove⟩ := popHead_page hl hpage hseq hne
  obtain ⟨extra, hat, hextra⟩ := HeadAt.pop hchained.linked.1 hxs hseq hmove
  have hcap : x.list.headSeq < freeListCap := by
    have hlt : x.list.headSeq.toNat < 64 := hseq
    show x.list.headSeq.toNat < 511
    omega
  -- what was read is what the head passes first
  have hread : (if xs.getD x.list.headSeq.toNat 0 = 0 then x.popped
      else x.popped ++ [xs.getD x.list.headSeq.toNat 0])
        = x.popped ++ xs[x.list.headSeq.toNat]?.toList := by
    by_cases hn : x.list.headSeq.toNat < xs.length
    · rw [if_neg (mt (getD_eq_zero_iff hxs _).mp (Nat.not_le.mpr hn)),
        List.getD_eq_getElem?_getD, List.getElem?_eq_getElem hn]
      rfl
    · rw [if_pos ((getD_eq_zero_iff hxs _).mpr (Nat.not_lt.mp hn)),
        List.getElem?_eq_none (Nat.not_lt.mp hn), Option.toList_none, List.append_nil]
  rw [List.take_add_one, ← List.append_assoc, ← hpassed, ← heq] at hat
  have hstep : x.step ops .pop = .ok (xs.getD x.list.headSeq.toNat 0, { x with
      list := fl
      pages := s
      popped := x.popped ++ xs[x.list.headSeq.toNat]?.toList
      used := x.used ++ [x.list.headSeq] }) := by
    rw [FreeLog.step, hpop, ok_bind]
    dsimp only
    rw [if_neg hpage.ne, hread]
    rfl
  refine ⟨_, _, hstep, ?_, hat, h.pushed, h.nonzero, ?_, ?_, ?_⟩
  · dsimp only
    rw [hpages]
    exact h.chained.congr htail htailSeq
  · dsimp only
    rw [List.append_assoc]
    exact (h.popped.append_right _).trans
      (List.Sublist.append_left (List.sublist_append_left _ _) _)
  · exact (whole_extend _ extra h.popped).trans (and_congr h.whole hextra)
  · intro i hi
    rcases List.mem_append.mp hi with hi | hi
    · exact h.used i hi
    · rw [List.mem_singleton.mp hi]
      exact hcap

theorem Tracked.pop (hl : FreeLawful refusal ops pages)
    (h : Tracked (pages x.pages) x chunks passed safe) :
    ∃ ptr y passed', x.step ops .pop = .ok (ptr, y)
      ∧ Tracked (pages y.pages) y chunks passed'
        (safe ∧ x.list.Safe (pages x.pages) .pop) := by
  have hstay : x.list.headPage = 0 → ∃ ptr y passed', x.step ops .pop = .ok (ptr, y)
      ∧ Tracked (pages y.pages) y chunks passed'
        (safe ∧ x.list.Safe (pages x.pages) .pop) := by
    intro h0
    obtain ⟨y, hstep, hy⟩ := h.pop_stay ops h0
    exact ⟨0, y, passed, hstep, hy⟩
  cases h.head with
  | start _ hpage => exact hstay hpage
  | off _ hpage => exact hstay hpage
  | inside heq hseq =>
      obtain ⟨y, passed', hstep, hy⟩ := h.pop_read hl heq rfl hseq
      exact ⟨_, y, passed', hstep, hy⟩

end Svacara.Btree
