/-
Which pages `PopHead` hands out.

The first half is about slots: how they survive a write to another word
of their page, and from that what a call does to the slots of all pages
(`pushTail_slots`, `popHead_slots`). `Recorded` is the invariant of an
episode: a slot that was written holds a pushed pointer, any other slot
holds what it held at the commit point. Both directions of
`noReuse_iff` are read off it at each pop.
-/
import Svacara.Btree.FreeRun
import Svacara.Btree.Memory
import Svacara.Btree.Proofs.Node

namespace Svacara.Btree

open Buf Outcome

-- =========================================================== words

/-- A slot index that the list uses; no position wraps. -/
def InPage (idx : UInt64) : Prop := idx ≤ freeListCap

theorem slotPos_of {idx : UInt64} (h : InPage idx) :
    LNode.slotPos idx = 8 + 8 * idx.toNat := by
  have hle : idx.toNat ≤ 511 := h
  have h8 : (UInt64.ofNat freeListHeader).toNat = 8 := rfl
  rw [LNode.slotPos, UInt64.toNat_add, UInt64.toNat_mul, h8]
  have h8' : (8 : UInt64).toNat = 8 := rfl
  rw [h8']
  omega

theorem inPage_mod (seq : UInt64) : InPage (seq % freeListCap) := by
  show (seq % freeListCap).toNat ≤ 511
  rw [UInt64.toNat_mod]
  have h : freeListCap.toNat = 511 := rfl
  have := Nat.mod_lt seq.toNat (show 0 < 511 by decide)
  rw [h]
  omega

theorem slotPos_disjoint {i j : UInt64} (hi : InPage i) (hj : InPage j) (hne : i ≠ j) :
    LNode.slotPos i + 8 ≤ LNode.slotPos j ∨ LNode.slotPos j + 8 ≤ LNode.slotPos i := by
  rw [slotPos_of hi, slotPos_of hj]
  have hnat : i.toNat ≠ j.toNat := fun h => hne (UInt64.toNat_inj.mp h)
  omega

-- =============================================== slots of one page

variable {node node' : BNode} {i idx : UInt64} {ptr next : Ptr}

theorem length_putUintAt {w pos v : Nat} (h : putUintAt w node pos v = .ok node') :
    node'.length = node.length := by
  rw [putUintAt] at h
  split at h
  · next hlen =>
      cases h
      exact length_splice _ _ (by rw [length_leBytes]; exact hlen)
  · cases h

theorem getPtr_setPtr (hidx : InPage idx) (hi : InPage i)
    (h : LNode.setPtr node idx ptr = .ok node') :
    LNode.getPtr node' i = if i = idx then .ok ptr else LNode.getPtr node i := by
  rw [LNode.setPtr, putUintAt] at h
  split at h
  · next hlen =>
      cases h
      by_cases heq : i = idx
      · have hv : ptr.toNat < 256 ^ 8 := ptr.toNat_lt
        rw [if_pos heq, heq, LNode.getPtr, uintAt_written hlen hv, ok_bind, pure_eq_ok,
          UInt64.ofNat_toNat]
      · rw [if_neg heq, LNode.getPtr, LNode.getPtr,
          uintAt_written_other hlen (slotPos_disjoint hi hidx heq)]
  · cases h

theorem getPtr_setNext (hi : InPage i) (h : LNode.setNext node next = .ok node') :
    LNode.getPtr node' i = LNode.getPtr node i := by
  rw [LNode.setNext, putUintAt] at h
  split at h
  · next hlen =>
      cases h
      have hpos := slotPos_of hi
      rw [LNode.getPtr, LNode.getPtr, uintAt_written_other hlen (by omega)]
  · cases h

theorem leNat_zeros (n : Nat) : leNat (List.replicate n 0) = 0 := by
  induction n with
  | zero => rfl
  | succ n ih => simp [List.replicate_succ, leNat, ih]

/-- A new page of the list has nothing in its slots. -/
theorem getPtr_newTail (hi : InPage i) (h : LNode.setNext (make btreePageSize) 0 = .ok node)
    (hget : LNode.getPtr node i = .ok ptr) : ptr = 0 := by
  rw [getPtr_setNext hi h, LNode.getPtr, uintAt] at hget
  split at hget
  · have hzero : slice (make btreePageSize) (LNode.slotPos i) 8
        = List.replicate (min 8 (btreePageSize - LNode.slotPos i)) 0 := by
      rw [slice, make, List.drop_replicate, List.take_replicate]
    rw [hzero, leNat_zeros] at hget
    cases hget
    rfl
  · cases hget

-- ============================================== slots of all pages

variable {σ : Type} {refusal : Fault} {ops : FreeOps σ} {pages : σ → Ptr → Option BNode}
  {s s' : σ} {fl fl' : FreeList} {m m' m'' : Ptr → Option BNode} {page : Ptr}

/-- All pages are still there, and all slots hold what they held, except
that a new page has come with nothing in its slots. -/
structure KeepsSlots (m m' : Ptr → Option BNode) : Prop where
  sized : Sized m → Sized m'
  live : ∀ p, m p ≠ none → m' p ≠ none
  slot : ∀ p i, InPage i → slotAt m' p i = slotAt m p i
    ∨ m p = none ∧ ∀ ptr, slotAt m' p i = some ptr → ptr = 0

theorem KeepsSlots.refl (m : Ptr → Option BNode) : KeepsSlots m m where
  sized h := h
  live _ h := h
  slot _ _ _ := Or.inl rfl

theorem KeepsSlots.trans (h : KeepsSlots m m') (h' : KeepsSlots m' m'') : KeepsSlots m m'' where
  sized hm := h'.sized (h.sized hm)
  live p hp := h'.live p (h.live p hp)
  slot p i hi := by
    rcases h'.slot p i hi with heq' | ⟨hnone, hzero⟩
    · rcases h.slot p i hi with heq | ⟨hnone, hzero⟩
      · exact Or.inl (heq'.trans heq)
      · refine Or.inr ⟨hnone, fun ptr hptr => hzero ptr ?_⟩
        rwa [← heq']
    · have hp : m p = none := by
        by_contra hp
        exact h.live p hp hnone
      exact Or.inr ⟨hp, hzero⟩

theorem slotAt_update (m : Ptr → Option BNode) (p page : Ptr) (node : BNode) (i : UInt64) :
    slotAt (Function.update m page (some node)) p i
      = if p = page then (LNode.getPtr node i).toOption else slotAt m p i := by
  unfold slotAt
  by_cases hp : p = page
  · rw [if_pos hp, hp, Function.update_self]
    rfl
  · rw [if_neg hp, Function.update_of_ne hp]

theorem Sized.update (h : Sized m) (hlen : node.length = btreePageSize) (page : Ptr) :
    Sized (Function.update m page (some node)) := by
  intro p n hn
  by_cases hp : p = page
  · rw [hp, Function.update_self] at hn
    cases hn
    exact hlen
  · rw [Function.update_of_ne hp] at hn
    exact h p n hn

theorem update_live {p : Ptr} (hp : m p ≠ none) (page : Ptr) (node : BNode) :
    Function.update m page (some node) p ≠ none := by
  by_cases hpp : p = page
  · rw [hpp, Function.update_self]
    exact Option.some_ne_none _
  · rwa [Function.update_of_ne hpp]

/-- One slot of one page is written. -/
theorem slotAt_setPtr (hpage : m page = some node) (hput : LNode.setPtr node idx ptr = .ok node')
    (hidx : InPage idx) (hi : InPage i) (p : Ptr) :
    slotAt (Function.update m page (some node')) p i
      = if p = page ∧ i = idx then some ptr else slotAt m p i := by
  rw [slotAt_update, getPtr_setPtr hidx hi hput]
  by_cases hp : p = page
  · by_cases hii : i = idx
    · rw [if_pos hp, if_pos hii, if_pos ⟨hp, hii⟩]
      rfl
    · rw [if_pos hp, if_neg hii, if_neg (fun h => hii h.2), hp, slotAt, hpage]
      rfl
  · rw [if_neg hp, if_neg (fun h => hp h.1)]

/-- A page is replaced by one with the same slots. -/
theorem KeepsSlots.of_update (hpage : m page = some node) (hlen : node'.length = node.length)
    (hslots : ∀ i, InPage i → LNode.getPtr node' i = LNode.getPtr node i) :
    KeepsSlots m (Function.update m page (some node')) where
  sized h := h.update (hlen.trans (h page node hpage)) page
  live p hp := update_live hp page node'
  slot p i hi := by
    left
    rw [slotAt_update]
    by_cases hpp : p = page
    · rw [if_pos hpp, hslots i hi, hpp, slotAt, hpage]
      rfl
    · rw [if_neg hpp]

/-- A new page for the list. -/
theorem newTail_keeps (hl : FreeLawful refusal ops pages) (h : newTail ops s = .ok (ptr, s')) :
    ptr ≠ 0 ∧ pages s ptr = none ∧ KeepsSlots (pages s) (pages s')
      ∧ ∀ p, p ≠ ptr → pages s' p = pages s p := by
  obtain ⟨data, hdata, hnew⟩ := bind_eq_ok.mp h
  obtain ⟨hptr, hfresh, hpages⟩ := (hl.newPage s data).get hnew
  dsimp only at hptr hfresh hpages
  refine ⟨hptr, hfresh, ⟨fun hsized => ?_, fun p hp => ?_, fun p i hi => ?_⟩, fun p hp => ?_⟩
  · rw [hpages]
    exact hsized.update ((length_putUintAt hdata).trans (length_make _)) ptr
  · have hpp : p ≠ ptr := by
      rintro rfl
      exact hp hfresh
    rw [hpages, Function.update_of_ne hpp]
    exact hp
  · rw [hpages, slotAt_update]
    by_cases hpp : p = ptr
    · right
      rw [if_pos hpp, hpp]
      refine ⟨hfresh, fun q hq => getPtr_newTail hi hdata ?_⟩
      cases hget : LNode.getPtr data i with
      | ok v =>
          rw [hget] at hq
          exact congrArg Except.ok (Option.some.inj hq)
      | error e =>
          rw [hget] at hq
          cases hq
    · exact Or.inl (if_neg hpp)
  · rw [hpages, Function.update_of_ne hp]

/-- A new page put behind the one that is full. -/
theorem linkTail_keeps (hl : FreeLawful refusal ops pages) (hcur : pages s page = some node)
    (hnew : newTail ops s = .ok (next, s')) (hnext : LNode.setNext node next = .ok node') :
    KeepsSlots (pages s) (pages (ops.poke s' page node')) := by
  obtain ⟨-, hfresh, hkeep, hsame⟩ := newTail_keeps hl hnew
  have hne : page ≠ next := by
    rintro rfl
    rw [hcur] at hfresh
    cases hfresh
  have hcur' : pages s' page = some node := (hsame _ hne).trans hcur
  refine hkeep.trans ?_
  rw [hl.poke _ _ _ (by rw [hcur']; exact Option.some_ne_none _)]
  exact KeepsSlots.of_update hcur' (length_putUintAt hnext) fun i hi => getPtr_setNext hi hnext

theorem ensureTail_keeps (hl : FreeLawful refusal ops pages)
    (h : ensureTail ops s fl = .ok (fl', s')) :
    KeepsSlots (pages s) (pages s') ∧ fl'.headSeq = fl.headSeq ∧ fl'.tailSeq = fl.tailSeq
      ∧ fl'.tailPage = if fl.tailPage = 0 then fl'.headPage else fl.tailPage := by
  rw [ensureTail] at h
  by_cases htail : fl.tailPage = 0
  · rw [if_pos htail] at h ⊢
    obtain ⟨⟨p, s₁⟩, hnew, hret⟩ := bind_eq_ok.mp h
    cases hret
    exact ⟨(newTail_keeps hl hnew).2.2.1, rfl, rfl, rfl⟩
  · rw [if_neg htail] at h ⊢
    cases h
    exact ⟨KeepsSlots.refl _, rfl, rfl, rfl⟩

/-- The page that `SetPage` returns. -/
theorem setPage_eq (hl : FreeLawful refusal ops pages) {p : Ptr}
    (h : ops.setPage s p = .ok (node, s')) : pages s p = some node ∧ pages s' = pages s := by
  cases hp : pages s p with
  | none =>
      obtain ⟨e, he⟩ := hl.setPage_none s p hp
      rw [h] at he
      cases he
  | some n =>
      obtain ⟨s₁, hs₁, hkeep⟩ := hl.setPage s p n hp
      rw [h] at hs₁
      cases hs₁
      exact ⟨rfl, hkeep⟩

theorem getPage_eq (hl : FreeLawful refusal ops pages) {p : Ptr}
    (h : ops.getPage s p = .ok node) : pages s p = some node := by
  cases hp : pages s p with
  | none =>
      obtain ⟨e, he⟩ := hl.getPage_none s p hp
      rw [h] at he
      cases he
  | some n =>
      have hn := hl.getPage s p n hp
      rw [h] at hn
      cases hn
      rfl

-- ======================================================= the calls

/-- `PushTail` writes one slot and leaves the others alone. -/
theorem pushTail_slots (hl : FreeLawful refusal ops pages)
    (h : pushTail ops s fl ptr = .ok (fl', s')) (hpage : page
      = if fl.tailPage = 0 then fl'.headPage else fl.tailPage) :
    fl'.headSeq = fl.headSeq ∧ (Sized (pages s) → Sized (pages s'))
      ∧ (∀ p, pages s p ≠ none → pages s' p ≠ none)
      ∧ slotAt (pages s') page (fl.tailSeq % freeListCap) = some ptr
      ∧ ∀ p i, InPage i → (p, i) ≠ (page, fl.tailSeq % freeListCap) →
        slotAt (pages s') p i = slotAt (pages s) p i
          ∨ pages s p = none ∧ ∀ q, slotAt (pages s') p i = some q → q = 0 := by
  rw [pushTail] at h
  obtain ⟨⟨fl₁, s₁⟩, htail, h⟩ := bind_eq_ok.mp h
  obtain ⟨⟨node, s₂⟩, hset, h⟩ := bind_eq_ok.mp h
  dsimp only at h hset
  obtain ⟨node₁, hput, h⟩ := bind_eq_ok.mp h
  obtain ⟨hkeep₁, hhead₁, hseq₁, htail₁⟩ := ensureTail_keeps hl htail
  obtain ⟨hnode, hs₂⟩ := setPage_eq hl hset
  rw [hseq₁] at hput h
  have hidx : InPage (fl.tailSeq % freeListCap) := inPage_mod _
  have hlive₂ : pages s₂ fl₁.tailPage ≠ none := by
    rw [hs₂, hnode]
    exact Option.some_ne_none _
  -- the pages with the slot written
  have hs₃ : pages (ops.poke s₂ fl₁.tailPage node₁)
      = Function.update (pages s₁) fl₁.tailPage (some node₁) := by
    rw [hl.poke _ _ _ hlive₂, hs₂]
  have hslot₃ : ∀ p i, InPage i → slotAt (pages (ops.poke s₂ fl₁.tailPage node₁)) p i
      = if p = fl₁.tailPage ∧ i = fl.tailSeq % freeListCap then some ptr
        else slotAt (pages s₁) p i := by
    intro p i hi
    rw [hs₃]
    exact slotAt_setPtr hnode hput hidx hi p
  have hlive₃ : ∀ p, pages s₁ p ≠ none → pages (ops.poke s₂ fl₁.tailPage node₁) p ≠ none := by
    intro p hp
    rw [hs₃]
    exact update_live hp _ _
  -- what is left, the page after a full one, keeps all slots
  have hrest : KeepsSlots (pages (ops.poke s₂ fl₁.tailPage node₁)) (pages s')
      ∧ fl'.headSeq = fl₁.headSeq ∧ fl'.headPage = fl₁.headPage := by
    split at h
    · obtain ⟨⟨next, s₄⟩, hnew, h⟩ := bind_eq_ok.mp h
      obtain ⟨node₂, hnext, h⟩ := bind_eq_ok.mp h
      cases h
      have hcur : pages (ops.poke s₂ fl₁.tailPage node₁) fl₁.tailPage = some node₁ := by
        rw [hs₃, Function.update_self]
      exact ⟨linkTail_keeps hl hcur hnew hnext, rfl, rfl⟩
    · cases h
      exact ⟨KeepsSlots.refl _, rfl, rfl⟩
  obtain ⟨hkeep, hhead, hheadPage⟩ := hrest
  have hpage₁ : page = fl₁.tailPage := by rw [hpage, htail₁, hheadPage]
  refine ⟨hhead.trans hhead₁, fun hsized => ?_,
    fun p hp => hkeep.live p (hlive₃ p (hkeep₁.live p hp)), ?_, ?_⟩
  · apply hkeep.sized
    rw [hs₃]
    have hsized₁ := hkeep₁.sized hsized
    exact hsized₁.update ((length_putUintAt hput).trans (hsized₁ _ _ hnode)) _
  · have hwritten := hslot₃ page _ hidx
    rw [if_pos ⟨hpage₁, rfl⟩] at hwritten
    rcases hkeep.slot page _ hidx with heq | ⟨hnone, -⟩
    · rw [heq, hwritten]
    · rw [slotAt, hnone] at hwritten
      cases hwritten
  · intro p i hi hne
    have hother := hslot₃ p i hi
    rw [if_neg (fun h => hne (Prod.ext (h.1.trans hpage₁.symm) h.2))] at hother
    rcases hkeep.slot p i hi with heq | ⟨hnone, hzero⟩
    · rw [heq, hother]
      exact hkeep₁.slot p i hi
    · have hp : pages s p = none := by
        by_contra hp
        exact hlive₃ p (hkeep₁.live p hp) hnone
      exact Or.inr ⟨hp, hzero⟩

/-- A slot that can be read is in its page. -/
theorem lt_of_slotAt (hsized : Sized m) (hi : InPage i) (h : slotAt m page i = some ptr) :
    i < freeListCap := by
  rw [slotAt] at h
  cases hpage : m page with
  | none =>
      rw [hpage] at h
      cases h
  | some n =>
      have hlen := hsized page n hpage
      have hpos := slotPos_of hi
      rw [hpage, Option.bind_some, LNode.getPtr, uintAt] at h
      split at h
      · next hfit =>
          show i.toNat < 511
          rw [hlen, hpos] at hfit
          have : btreePageSize = 4096 := rfl
          omega
      · cases h

/-- `PopHead` returns what the head slot holds and changes no page. -/
theorem popHead_slots (hl : FreeLawful refusal ops pages) (hsized : Sized (pages s))
    (hseq : InPage fl.headSeq) (h : popHead ops s fl = .ok (ptr, fl', s')) :
    pages s' = pages s ∧ InPage fl'.headSeq
      ∧ (fl.headPage = 0 ∧ ptr = 0
        ∨ fl.headPage ≠ 0 ∧ slotAt (pages s) fl.headPage fl.headSeq = some ptr) := by
  rw [popHead] at h
  by_cases hhead : fl.headPage = 0
  · rw [if_pos hhead] at h
    cases h
    exact ⟨rfl, hseq, Or.inl ⟨hhead, rfl⟩⟩
  rw [if_neg hhead] at h
  obtain ⟨node, hget, h⟩ := bind_eq_ok.mp h
  obtain ⟨p, hptr, h⟩ := bind_eq_ok.mp h
  obtain ⟨next, hnext, h⟩ := bind_eq_ok.mp h
  have hslot : slotAt (pages s) fl.headPage fl.headSeq = some p := by
    rw [slotAt, getPage_eq hl hget, Option.bind_some, hptr]
    rfl
  have hsucc : InPage (fl.headSeq + 1) := by
    have hlt : fl.headSeq.toNat < 511 := lt_of_slotAt hsized hseq hslot
    show (fl.headSeq + 1).toNat ≤ 511
    rw [UInt64.toNat_add]
    have h1 : (1 : UInt64).toNat = 1 := rfl
    omega
  have hzero : InPage 0 := show (0 : UInt64) ≤ freeListCap by decide
  suffices hend : pages s' = pages s ∧ InPage fl'.headSeq ∧ p = ptr by
    obtain ⟨hpages, hin, rfl⟩ := hend
    exact ⟨hpages, hin, Or.inr ⟨hhead, hslot⟩⟩
  -- the end of a page: the head moves on, and the old page is fetched once more
  split at h
  · rw [hnext, ok_bind] at h
    by_cases hn : next = 0
    · rw [if_neg (not_not.mpr hn)] at h
      split at h
      · obtain ⟨⟨old, s₁⟩, hset, h⟩ := bind_eq_ok.mp h
        cases h
        exact ⟨(setPage_eq hl hset).2, hsucc, rfl⟩
      · cases h
        exact ⟨rfl, hsucc, rfl⟩
    · rw [if_pos hn] at h
      split at h
      · obtain ⟨⟨old, s₁⟩, hset, h⟩ := bind_eq_ok.mp h
        cases h
        exact ⟨(setPage_eq hl hset).2, hzero, rfl⟩
      · cases h
        exact ⟨rfl, hzero, rfl⟩
  · cases h
    exact ⟨rfl, hsucc, rfl⟩

-- ===================================================== the episode

variable {x y : Episode σ} {c : FreeCall} {calls : List FreeCall}

/-- What the record of an episode says about the pages, with `m` the
pages at its start. -/
structure Recorded (pages : σ → Ptr → Option BNode) (m : Ptr → Option BNode)
    (x : Episode σ) : Prop where
  sized : Sized (pages x.pages)
  seq : InPage x.list.headSeq
  nonzero : ∀ p ∈ x.pushed, p ≠ 0
  live : ∀ p, m p ≠ none → pages x.pages p ≠ none
  written : ∀ p i, (p, i) ∈ x.slots → InPage i
    ∧ ∃ ptr ∈ x.pushed, slotAt (pages x.pages) p i = some ptr
  old : ∀ p i, InPage i → (p, i) ∉ x.slots →
    slotAt (pages x.pages) p i = slotAt m p i
      ∨ m p = none ∧ ∀ ptr, slotAt (pages x.pages) p i = some ptr → ptr = 0

theorem Recorded.start (hsized : Sized (pages s)) (hseq : InPage fl.headSeq) :
    Recorded pages (pages s) (.start fl s) where
  sized := hsized
  seq := hseq
  nonzero _ h := absurd h List.not_mem_nil
  live _ h := h
  written _ _ h := absurd h List.not_mem_nil
  old _ _ _ _ := Or.inl rfl

theorem Recorded.push (hl : FreeLawful refusal ops pages) (h : Recorded pages m x)
    {p : Ptr} (hp : p ≠ 0) (hstep : x.step ops (.push p) = .ok (ptr, y)) :
    Recorded pages m y := by
  obtain ⟨⟨fl, s⟩, hpush, hret⟩ := bind_eq_ok.mp hstep
  cases hret
  obtain ⟨hseq, hsized, hlive, hslot, hother⟩ := pushTail_slots hl hpush rfl
  generalize hpage : (if x.list.tailPage = 0 then fl.headPage else x.list.tailPage) = page
    at hslot hother ⊢
  refine ⟨hsized h.sized, ?_, ?_, fun q hq => hlive q (h.live q hq), ?_, ?_⟩
  · show InPage fl.headSeq
    rw [hseq]
    exact h.seq
  · intro q hq
    rcases List.mem_cons.mp hq with rfl | hq
    · exact hp
    · exact h.nonzero q hq
  · intro q i hmem
    by_cases heq : (q, i) = (page, x.list.tailSeq % freeListCap)
    · cases heq
      exact ⟨inPage_mod _, p, List.mem_cons_self .., hslot⟩
    · have hmem' := (List.mem_cons.mp hmem).resolve_left heq
      obtain ⟨hi, v, hv, hval⟩ := h.written q i hmem'
      refine ⟨hi, v, List.mem_cons_of_mem _ hv, ?_⟩
      -- the slot was there, so its page is not a new one
      rcases hother q i hi heq with hsame | ⟨hnone, -⟩
      · rw [hsame, hval]
      · rw [slotAt, hnone] at hval
        cases hval
  · intro q i hi hmem
    have hne : (q, i) ≠ (page, x.list.tailSeq % freeListCap) :=
      fun heq => hmem (heq ▸ List.mem_cons_self ..)
    have hold := h.old q i hi fun hin => hmem (List.mem_cons_of_mem _ hin)
    rcases hother q i hi hne with hsame | ⟨hnone, hzero⟩
    · dsimp only
      rw [hsame]
      exact hold
    · have hm : m q = none := by
        by_contra hm
        exact h.live q hm hnone
      exact Or.inr ⟨hm, hzero⟩

/-- A `PopHead` keeps the record, and returns an old page if and only if
it reads an old slot. -/
theorem Recorded.pop (hl : FreeLawful refusal ops pages) (h : Recorded pages m x)
    (hstep : x.step ops .pop = .ok (ptr, y)) :
    Recorded pages m y ∧ ((ptr ≠ 0 → ptr ∉ x.pushed) ↔ x.PopsOld m) := by
  obtain ⟨⟨p, fl, s⟩, hpop, hret⟩ := bind_eq_ok.mp hstep
  cases hret
  obtain ⟨hpages, hseq, hval⟩ := popHead_slots hl h.sized h.seq hpop
  constructor
  · constructor
    · dsimp only
      rw [hpages]
      exact h.sized
    · exact hseq
    · exact h.nonzero
    · dsimp only
      rw [hpages]
      exact h.live
    · dsimp only
      rw [hpages]
      exact h.written
    · dsimp only
      rw [hpages]
      exact h.old
  · rcases hval with ⟨hhead, rfl⟩ | ⟨hhead, hslot⟩
    · exact iff_of_true (fun h0 => absurd rfl h0) (Or.inl hhead)
    by_cases hmem : (x.list.headPage, x.list.headSeq) ∈ x.slots
    · obtain ⟨-, v, hv, hval⟩ := h.written _ _ hmem
      obtain rfl : ptr = v := Option.some.inj (hslot.symm.trans hval)
      refine iff_of_false (fun hnot => hnot (h.nonzero ptr hv) hv) ?_
      rintro (h0 | ⟨hnot, -⟩)
      · exact hhead h0
      · exact hnot hmem
    · have hold : x.PopsOld m ↔ ∀ q ∈ x.pushed,
          slotAt m x.list.headPage x.list.headSeq ≠ some q :=
        ⟨fun ho => (ho.resolve_left hhead).2, fun ho => Or.inr ⟨hmem, ho⟩⟩
      rw [hold]
      rcases h.old _ _ h.seq hmem with hsame | ⟨hnone, hzero⟩
      · -- the slot holds what it held
        rw [hslot] at hsame
        rw [← hsame]
        constructor
        · intro hnot q hq heq
          cases heq
          exact hnot (h.nonzero ptr hq) hq
        · intro hnot _ hq
          exact hnot ptr hq rfl
      · -- a slot of a new page, with nothing in it
        refine iff_of_true (fun h0 => absurd (hzero ptr hslot) h0) fun q _ heq => ?_
        rw [slotAt, hnone] at heq
        cases heq

/-- In every episode over a page store, no `PopHead` returns a page pushed
since the commit point if and only if every `PopHead` reads a slot that
has not been written since, and one whose page has not been freed again. -/
theorem noReuse_iff (hl : FreeLawful refusal ops pages) (fl : FreeList) (s : σ)
    (hsized : Sized (pages s)) (hseq : fl.headSeq ≤ freeListCap) (calls : List FreeCall)
    (hpush : ∀ p, .push p ∈ calls → p ≠ 0) :
    NoReuse ops (.start fl s) calls ↔ AllPopsOld ops (pages s) (.start fl s) calls := by
  have hrec : Recorded pages (pages s) (.start fl s) := .start hsized hseq
  generalize pages s = m at hrec
  generalize Episode.start fl s = x at hrec
  -- over the calls, with the record kept by each
  induction calls generalizing x with
  | nil => exact Iff.rfl
  | cons c calls ih =>
      have hpush' : ∀ p, .push p ∈ calls → p ≠ 0 :=
        fun p hp => hpush p (List.mem_cons_of_mem _ hp)
      cases c with
      | push p =>
          have hp : p ≠ 0 := hpush p (List.mem_cons_self ..)
          constructor
          · intro h
            refine ⟨fun hc => (nomatch hc), fun ptr y hstep => ?_⟩
            exact (ih hpush' y (hrec.push hl hp hstep)).mp (h ptr y hstep).2
          · intro h ptr y hstep
            refine ⟨fun hc => (nomatch hc), ?_⟩
            exact (ih hpush' y (hrec.push hl hp hstep)).mpr (h.2 ptr y hstep)
      | pop =>
          constructor
          · intro h
            refine ⟨fun _ ⟨⟨ptr, y⟩, hstep⟩ => ?_, fun ptr y hstep => ?_⟩
            · exact (hrec.pop hl hstep).2.mp ((h ptr y hstep).1 rfl)
            · exact (ih hpush' y (hrec.pop hl hstep).1).mp (h ptr y hstep).2
          · intro h ptr y hstep
            refine ⟨fun _ => (hrec.pop hl hstep).2.mpr (h.1 rfl ⟨_, hstep⟩), ?_⟩
            exact (ih hpush' y (hrec.pop hl hstep).1).mpr (h.2 ptr y hstep)

/-- A list that holds 5 at the commit point: behind a push of 7, `PopHead`
returns 5. -/
theorem noReuse_iff_push_pop :
    ∃ fl s y z, pushTail memFreeOps .empty .zero 5 = .ok (fl, s)
      ∧ (Episode.start fl s).step memFreeOps (.push 7) = .ok (0, y)
      ∧ y.step memFreeOps .pop = .ok (5, z)
      ∧ NoReuse memFreeOps (.start fl s) [.push 7, .pop]
      ∧ AllPopsOld memFreeOps s.pages (.start fl s) [.push 7, .pop] := by
  have hrun : (pushTail memFreeOps .empty .zero 5 >>= fun x =>
      (Episode.start x.1 x.2).step memFreeOps (.push 7) >>= fun y =>
        y.2.step memFreeOps .pop >>= fun z => pure (y.1, z.1, y.2.pushed))
      = .ok (0, 5, [7]) := by decide +kernel
  obtain ⟨⟨fl, s⟩, hold, hrun⟩ := bind_eq_ok.mp hrun
  obtain ⟨⟨p, y⟩, hpush, hrun⟩ := bind_eq_ok.mp hrun
  obtain ⟨⟨q, z⟩, hpop, hrun⟩ := bind_eq_ok.mp hrun
  obtain ⟨rfl, rfl, hpushed⟩ : p = 0 ∧ q = 5 ∧ y.pushed = [7] := by
    simpa [pure, Except.pure] using hrun
  obtain ⟨hseq, hsized, -⟩ := pushTail_slots memFreeOps_lawful hold rfl
  have hiff := noReuse_iff memFreeOps_lawful fl s (hsized fun p n hn => (nomatch hn))
    (hseq.trans_le (by decide)) [.push 7, .pop] (by simp)
  have hno : NoReuse memFreeOps (.start fl s) [.push 7, .pop] := by
    intro ptr y' hstep
    obtain ⟨rfl, rfl⟩ : 0 = ptr ∧ y = y' := by simpa [hpush] using hstep
    refine ⟨fun hc => (nomatch hc), fun ptr z' hstep => ⟨fun _ _ => ?_, trivial⟩⟩
    obtain ⟨rfl, rfl⟩ : 5 = ptr ∧ z = z' := by simpa [hpop] using hstep
    rw [hpushed]
    decide
  exact ⟨fl, s, y, z, hold, hpush, hpop, hno, hiff.mp hno⟩

/-- The page pushed first is the page popped first. -/
theorem pop_returns_pushed :
    let x : Episode MemStore := .start .zero .empty
    (∃ y z, x.step memFreeOps (.push 7) = .ok (0, y) ∧ y.step memFreeOps .pop = .ok (7, z)
        ∧ 7 ∈ y.pushed)
      ∧ ¬ NoReuse memFreeOps x [.push 7, .pop] := by
  intro x
  have hrun : ((x.step memFreeOps (.push 7) >>= fun r =>
      r.2.step memFreeOps .pop >>= fun r => pure r.1) : Except Fault Ptr) = .ok 7 := by
    decide +kernel
  obtain ⟨⟨p, y⟩, hpush, hrun⟩ := bind_eq_ok.mp hrun
  obtain ⟨⟨q, z⟩, hpop, hq⟩ := bind_eq_ok.mp hrun
  cases hq
  obtain ⟨r, -, hret⟩ := bind_eq_ok.mp hpush
  cases hret
  have hmem : (7 : Ptr) ∈ [7] := List.mem_cons_self ..
  refine ⟨⟨_, z, hpush, hpop, hmem⟩, fun h => ?_⟩
  exact ((h _ _ hpush).2 7 z hpop).1 rfl (by decide) hmem

end Svacara.Btree
