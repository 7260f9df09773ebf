/-
Overflow chains hold their data.

`ChunkChain m cs` describes a chain in the heap `m`: the pages of `cs`, each
with its part of the data and a link to the one behind it. The loop of
`allocOverflow` extends a chain at its end. Its last page has the link 0
until the next one is allocated, so the invariant of the loop is about the
page before the part that is still to come (`allocOverflowLoop_chain`),
and one call of it writes that page once. Reading and freeing walk down
the chain.

What `allocOverflow` allocates is the footprint `ps` of an `Owned`: the
heap before with the pages `ps` added, and nothing else changed
(`overflow_holds`).
-/
import Svacara.Btree.Overflow
import Svacara.Btree.Memory
import Svacara.Btree.Proofs.Node
import Svacara.Lib.Heap

namespace Svacara.Btree

open Buf Outcome Heap

-- ==================================================== the contract

/-- The contract of the callbacks, with writes that persist. -/
structure OverflowLawful {σ : Type} (refusal : Fault) (ops : OverflowOps σ)
    (live : σ → Ptr → Option BNode) : Prop extends Lawful refusal ops.toPageOps live where
  poke : ∀ s p n, live s p ≠ none →
    live (ops.poke s p n) = Function.update (live s) p (some n)

-- ======================================================== one page

/-- A page of a chain with its data and its link. -/
structure ChunkPage (page : BNode) (next : Ptr) (chunk : Bytes) : Prop where
  len : page.length = btreePageSize
  small : chunk.length ≤ maxChunk
  magic : uintAt 2 page 0 = .ok ovflMagic
  size : uintAt 2 page 2 = .ok chunk.length
  link : uintAt 8 page 4 = .ok next.toNat
  data : sliceAt page 12 chunk.length = .ok chunk

theorem overflowPage_chunk {chunk : Bytes} (h : chunk.length ≤ maxChunk) :
    ∃ page, overflowPage chunk = .ok page ∧ ChunkPage page 0 chunk := by
  have hmax : maxChunk = 4084 := rfl
  have h₀ : (make btreePageSize).length = 4096 := length_make ..
  have h₁ : (splice (make btreePageSize) (leBytes 2 ovflMagic) 0).length = 4096 := by
    rw [length_splice _ _ (by rw [length_leBytes]; omega), h₀]
  have h₂ : (splice (splice (make btreePageSize) (leBytes 2 ovflMagic) 0)
      (leBytes 2 chunk.length) 2).length = 4096 := by
    rw [length_splice _ _ (by rw [length_leBytes]; omega), h₁]
  have h₃ : (splice (splice (splice (make btreePageSize) (leBytes 2 ovflMagic) 0)
      (leBytes 2 chunk.length) 2) (leBytes 8 0) 4).length = 4096 := by
    rw [length_splice _ _ (by rw [length_leBytes]; omega), h₂]
  refine ⟨splice (splice (splice (splice (make btreePageSize) (leBytes 2 ovflMagic) 0)
    (leBytes 2 chunk.length) 2) (leBytes 8 0) 4) chunk 12, ?_, ?_⟩
  · rw [overflowPage, putUintAt_of (by omega), ok_bind, u16_of_lt (by omega),
      putUintAt_of (by omega), ok_bind, putUintAt_of (by omega), ok_bind,
      copyAt_of (by omega)]
  · refine ⟨?_, h, ?_, ?_, ?_, ?_⟩
    · rw [length_splice _ _ (by omega), h₃]
      rfl
    · rw [uintAt_splice (by omega) (by omega),
        uintAt_splice (by rw [length_leBytes]; omega) (by omega),
        uintAt_splice (by rw [length_leBytes]; omega) (by omega),
        uintAt_written (by omega) (by decide)]
    · rw [uintAt_splice (by omega) (by omega),
        uintAt_splice (by rw [length_leBytes]; omega) (by omega),
        uintAt_written (by omega) (by omega)]
    · rw [uintAt_splice (by omega) (by omega), uintAt_written (by omega) (by decide)]
      rfl
    · rw [sliceAt, if_pos (by rw [length_splice _ _ (by omega)]; omega),
        slice_splice_self _ _ (by omega)]

/-- Writing the link leaves the rest of a page. -/
theorem ChunkPage.relink {page : BNode} {next : Ptr} {chunk : Bytes}
    (h : ChunkPage page next chunk) (ptr : Ptr) :
    ∃ page', putUintAt 8 page 4 ptr.toNat = .ok page' ∧ ChunkPage page' ptr chunk := by
  have hlen : page.length = 4096 := h.len
  have hmax : maxChunk = 4084 := rfl
  have hsmall := h.small
  have hfit : 4 + (leBytes 8 ptr.toNat).length ≤ page.length := by
    rw [length_leBytes]
    omega
  have hlen' := length_splice page (leBytes 8 ptr.toNat) hfit
  refine ⟨_, putUintAt_of (by omega), ⟨hlen'.trans hlen, h.small, ?_, ?_, ?_, ?_⟩⟩
  · rw [uintAt_splice hfit (by omega), h.magic]
  · rw [uintAt_splice hfit (by omega), h.size]
  · exact uintAt_written (by omega) ptr.toNat_lt
  · have hdata := h.data
    rw [sliceAt, if_pos (by omega)] at hdata
    rw [sliceAt, if_pos (by omega), slice_splice_of_disjoint _ _ hfit
      (by rw [length_leBytes]; omega), hdata]

-- ======================================================= the chain

/-- The page `p` of the heap is one of a chain. -/
def IsLink (m : Ptr → Option BNode) (p next : Ptr) (chunk : Bytes) : Prop :=
  p ≠ 0 ∧ ∃ page, m p = some page ∧ ChunkPage page next chunk

/-- The first page of a chain, 0 if there is none. -/
def headOf : List (Ptr × Bytes) → Ptr
  | [] => 0
  | c :: _ => c.1

/-- Pages with their data, each linked to the one behind it. -/
def ChunkChain (m : Ptr → Option BNode) : List (Ptr × Bytes) → Prop
  | [] => True
  | c :: cs => IsLink m c.1 (headOf cs) c.2 ∧ ChunkChain m cs

theorem IsLink.congr {m m' : Ptr → Option BNode} {p next : Ptr} {chunk : Bytes}
    (h : IsLink m p next chunk) (heq : m' p = m p) : IsLink m' p next chunk := by
  obtain ⟨hne, page, hpage, hchunk⟩ := h
  exact ⟨hne, page, heq.trans hpage, hchunk⟩

theorem IsLink.live {m : Ptr → Option BNode} {p next : Ptr} {chunk : Bytes}
    (h : IsLink m p next chunk) : m p ≠ none := by
  obtain ⟨-, page, hpage, -⟩ := h
  rw [hpage]
  exact Option.some_ne_none _

/-- A chain is about the contents of its pages only. -/
theorem ChunkChain.congr {m m' : Ptr → Option BNode} {cs : List (Ptr × Bytes)}
    (h : ChunkChain m cs) (heq : ∀ p ∈ cs.map Prod.fst, m' p = m p) : ChunkChain m' cs := by
  induction cs with
  | nil => trivial
  | cons c cs ih =>
      obtain ⟨hc, hcs⟩ := h
      rw [List.map_cons] at heq
      exact ⟨hc.congr (heq c.1 (List.mem_cons_self ..)),
        ih hcs fun p hp => heq p (List.mem_cons_of_mem _ hp)⟩

theorem ChunkChain.live {m : Ptr → Option BNode} {cs : List (Ptr × Bytes)}
    (h : ChunkChain m cs)
    {p : Ptr} (hp : p ∈ cs.map Prod.fst) : m p ≠ none := by
  induction cs with
  | nil => cases hp
  | cons c cs ih =>
      obtain ⟨hc, hcs⟩ := h
      rw [List.map_cons] at hp
      rcases List.mem_cons.mp hp with rfl | hp
      · exact hc.live
      · exact ih hcs hp

-- ====================================================== allocation

/-- The pages for `n` bytes. -/
def chunkCount (n : Nat) : Nat := overflowSizeLoop n 0

theorem overflowSizeLoop_add (n pages : Nat) :
    overflowSizeLoop n pages = pages + chunkCount n := by
  unfold chunkCount
  induction n using Nat.strong_induction_on generalizing pages with
  | _ n ih =>
      have hmax : maxChunk = 4084 := rfl
      rw [overflowSizeLoop, overflowSizeLoop.eq_def n 0]
      by_cases hn : 0 < n
      · have hlt : (if maxChunk < n then n - maxChunk else 0) < n := by
          split
          · omega
          · omega
        rw [if_pos hn, if_pos hn, ih _ hlt (pages + 1), ih _ hlt (0 + 1)]
        omega
      · rw [if_neg hn, if_neg hn, Nat.add_zero]

theorem chunkCount_zero : chunkCount 0 = 0 := by
  rw [chunkCount, overflowSizeLoop, if_neg (lt_irrefl 0)]

theorem chunkCount_pos {n : Nat} (h : 0 < n) :
    chunkCount n = chunkCount (if maxChunk < n then n - maxChunk else 0) + 1 := by
  rw [chunkCount, overflowSizeLoop, if_pos h, overflowSizeLoop_add]
  omega

section Ops

variable {σ : Type} {refusal : Fault} {ops : OverflowOps σ} {live : σ → Ptr → Option BNode}

/-- Linking the page before writes to that page only. -/
theorem linkOverflow_spec (hl : OverflowLawful refusal ops live) {s : σ} {prev : Ptr}
    {before : Bytes} (hprev : prev ≠ 0 → IsLink (live s) prev 0 before) (ptr : Ptr) :
    ∃ s', linkOverflow ops s prev ptr = .ok s'
      ∧ (prev ≠ 0 → IsLink (live s') prev ptr before)
      ∧ (∀ p, p ≠ prev ∨ prev = 0 → live s' p = live s p)
      ∧ ∀ p, live s' p = none ↔ live s p = none := by
  unfold linkOverflow
  by_cases h : prev = 0
  · rw [if_neg (not_not.mpr h)]
    exact ⟨s, rfl, fun hne => absurd h hne, fun _ _ => rfl, fun _ => Iff.rfl⟩
  · obtain ⟨-, page, hpage, hchunk⟩ := hprev h
    obtain ⟨page', hput, hchunk'⟩ := hchunk.relink ptr
    have hlive : live s prev ≠ none := (hprev h).live
    have hpoke := hl.poke s prev page' hlive
    rw [if_pos h, hl.getPage s prev page hpage, ok_bind, hput, ok_bind]
    refine ⟨_, rfl, fun _ => ⟨h, page', ?_, hchunk'⟩, ?_, ?_⟩
    · rw [hpoke, Function.update_self]
    · intro p hp
      rw [hpoke, Function.update_of_ne (hp.resolve_right h)]
    · intro p
      rw [hpoke]
      by_cases hp : p = prev
      · rw [hp, Function.update_self]
        exact ⟨fun hnone => absurd hnone (Option.some_ne_none _), fun hnone => absurd hnone hlive⟩
      · rw [Function.update_of_ne hp]

/-- What the loop leaves, for the data `bs` behind a page `prev`: a chain
of new pages, to which `prev` is linked. -/
structure Extended (m m' : Ptr → Option BNode) (prev : Ptr) (before bs : Bytes)
    (cs : List (Ptr × Bytes)) : Prop where
  data : (cs.map Prod.snd).flatten = bs
  count : cs.length = chunkCount bs.length
  chain : ChunkChain m' cs
  linked : prev ≠ 0 → IsLink m' prev (headOf cs) before
  nodup : (cs.map Prod.fst).Nodup
  fresh : ∀ p ∈ cs.map Prod.fst, m p = none
  frame : ∀ p, p ∉ cs.map Prod.fst → p ≠ prev ∨ prev = 0 → m' p = m p

theorem extended_nil {m : Ptr → Option BNode} {prev : Ptr} {before : Bytes}
    (hprev : prev ≠ 0 → IsLink m prev 0 before) : Extended m m prev before [] [] where
  data := rfl
  count := chunkCount_zero.symm
  chain := trivial
  linked := hprev
  nodup := List.nodup_nil
  fresh _ hp := absurd hp List.not_mem_nil
  frame _ _ _ := rfl

/-- One more page in front: `m₁` is the heap with the page `ptr` added and
`prev` linked to it. -/
theorem Extended.cons {m m₁ m' : Ptr → Option BNode} {prev ptr : Ptr}
    {before chunk rest : Bytes} {cs : List (Ptr × Bytes)} {n : Nat}
    (h : Extended m₁ m' ptr chunk rest cs) (hptr : ptr ≠ 0) (hfree : m ptr = none)
    (hprev : prev ≠ 0 → IsLink m₁ prev ptr before) (hprev' : prev ≠ 0 → m prev ≠ none)
    (hsame : ∀ p, p ≠ ptr → p ≠ prev ∨ prev = 0 → m₁ p = m p)
    (hnone : ∀ p, m₁ p = none → m p = none) (hptr₁ : m₁ ptr ≠ none)
    (hn : n = chunkCount rest.length + 1) (hlen : chunkCount (chunk ++ rest).length = n) :
    Extended m m' prev before (chunk ++ rest) ((ptr, chunk) :: cs) := by
  have hout : ∀ {p}, m₁ p ≠ none → p ∉ cs.map Prod.fst := fun hp hmem => hp (h.fresh _ hmem)
  constructor
  · rw [List.map_cons, List.flatten_cons, h.data]
  · rw [List.length_cons, h.count, hlen, hn]
  · exact ⟨h.linked hptr, h.chain⟩
  · intro hne
    have hne' : prev ≠ ptr := fun heq => hprev' hne (heq ▸ hfree)
    exact (hprev hne).congr (h.frame prev (hout (hprev hne).live) (Or.inl hne'))
  · exact List.nodup_cons.mpr ⟨hout hptr₁, h.nodup⟩
  · intro p hp
    rcases List.mem_cons.mp hp with rfl | hp
    · exact hfree
    · exact hnone p (h.fresh p hp)
  · intro p hp hpp
    obtain ⟨hp₁, hp₂⟩ := not_or.mp (mt List.mem_cons.mpr hp)
    rw [h.frame p hp₂ (Or.inl hp₁), hsame p hp₁ hpp]

/-- The part of the data that the next page takes, and the rest. -/
theorem chunk_split (bs : Bytes) :
    ∃ chunk rest, (if maxChunk < bs.length then bs.take maxChunk else bs) = chunk
      ∧ bs.drop chunk.length = rest ∧ chunk ++ rest = bs ∧ chunk.length ≤ maxChunk
      ∧ rest.length = if maxChunk < bs.length then bs.length - maxChunk else 0 := by
  by_cases h : maxChunk < bs.length
  · rw [if_pos h, if_pos h]
    refine ⟨_, _, rfl, rfl, ?_, ?_, ?_⟩
    · rw [List.length_take_of_le h.le, List.take_append_drop]
    · rw [List.length_take_of_le h.le]
    · rw [List.length_take_of_le h.le, List.length_drop]
  · rw [if_neg h, if_neg h]
    refine ⟨_, _, rfl, rfl, ?_, not_lt.mp h, ?_⟩
    · rw [List.drop_length, List.append_nil]
    · rw [List.drop_length, List.length_nil]

/-- The induction is on the fuel: a round allocates a page, links `prev`
to it, and leaves it as the `prev` of the next round. -/
theorem allocOverflowLoop_chain (hl : OverflowLawful refusal ops live) :
    ∀ (fuel : Nat) (s : σ) (bs : Bytes) (first prev : Ptr) (before : Bytes),
      bs.length ≤ fuel → (prev ≠ 0 → IsLink (live s) prev 0 before) →
      Returns refusal (allocOverflowLoop ops fuel s bs first prev) fun r =>
        ∃ cs, Extended (live s) (live r.2) prev before bs cs
          ∧ r.1 = if first = 0 then headOf cs else first := by
  have hnil : ∀ (fuel : Nat) (s : σ) (first prev : Ptr) (before : Bytes),
      (prev ≠ 0 → IsLink (live s) prev 0 before) →
      Returns refusal (allocOverflowLoop ops fuel s [] first prev) fun r =>
        ∃ cs, Extended (live s) (live r.2) prev before [] cs
          ∧ r.1 = if first = 0 then headOf cs else first := by
    intro fuel s first prev before hprev
    rw [allocOverflowLoop]
    refine Meets.ok ⟨[], extended_nil hprev, ?_⟩
    split
    · next h => exact h
    · rfl
  intro fuel
  induction fuel with
  | zero =>
      intro s bs first prev before hfuel hprev
      obtain rfl : bs = [] := List.length_eq_zero_iff.mp (Nat.le_zero.mp hfuel)
      exact hnil 0 s first prev before hprev
  | succ fuel ih =>
      intro s bs first prev before hfuel hprev
      cases bs with
      | nil => exact hnil _ s first prev before hprev
      | cons b bs =>
          obtain ⟨chunk, rest, hchunk, hrest, hsplit, hsmall, hlen⟩ := chunk_split (b :: bs)
          obtain ⟨page, hpage, hempty⟩ := overflowPage_chunk hsmall
          have hmax : maxChunk = 4084 := rfl
          have hpos : 0 < (b :: bs).length := Nat.succ_pos _
          have hcount := chunkCount_pos hpos
          rw [allocOverflowLoop]
          dsimp only
          rw [hchunk, hrest, hpage, ok_bind]
          refine (hl.newPage s page).bind ?_
          intro r hr
          obtain ⟨ptr, s₁⟩ := r
          obtain ⟨hptr, hfree, hlive⟩ := hr
          dsimp only at hptr hfree hlive ⊢
          have hne : prev ≠ 0 → prev ≠ ptr := fun h heq =>
            (hprev h).live (heq ▸ hfree)
          have hprev₁ : prev ≠ 0 → IsLink (live s₁) prev 0 before := fun h =>
            (hprev h).congr (by rw [hlive, Function.update_of_ne (hne h)])
          obtain ⟨s₂, hlink, hprev₂, hsame, hnone⟩ := linkOverflow_spec hl hprev₁ ptr
          have hptr₂ : live s₂ ptr = some page := by
            rw [hsame ptr, hlive, Function.update_self]
            by_cases h : prev = 0
            · exact Or.inr h
            · exact Or.inl (hne h).symm
          rw [hlink, ok_bind]
          have hrestlen : rest.length ≤ fuel := by
            rw [hlen]
            split
            · omega
            · omega
          refine (ih s₂ rest _ ptr chunk hrestlen
            fun _ => ⟨hptr, page, hptr₂, hempty⟩).mono ?_
          intro r hr
          obtain ⟨cs, hext, hfirst⟩ := hr
          refine ⟨(ptr, chunk) :: cs, ?_, ?_⟩
          · rw [← hsplit]
            refine hext.cons hptr hfree hprev₂ (fun h => (hprev h).live) ?_ ?_ ?_ rfl ?_
            · intro p hp hpp
              rw [hsame p hpp, hlive, Function.update_of_ne hp]
            · intro p hp
              have hp₁ := (hnone p).mp hp
              rw [hlive] at hp₁
              by_cases heq : p = ptr
              · rw [heq]
                exact hfree
              · rwa [Function.update_of_ne heq] at hp₁
            · rw [hptr₂]
              exact Option.some_ne_none _
            · rw [hsplit, hcount, hlen]
          · rw [hfirst]
            by_cases h : first = 0
            · rw [if_pos h, if_pos h, if_neg hptr]
              rfl
            · rw [if_neg h, if_neg h, if_neg h]

-- ============================================= reading and freeing

/-- Reading walks down the chain. The induction is on the chain. -/
theorem readOverflowLoop_chain (hl : OverflowLawful refusal ops live) {s : σ} :
    ∀ (cs : List (Ptr × Bytes)) (fuel : Nat) (out : Bytes), ChunkChain (live s) cs →
      cs.length ≤ fuel →
      readOverflowLoop ops fuel s (headOf cs) out
        = .ok (out ++ (cs.map Prod.snd).flatten) := by
  intro cs
  induction cs with
  | nil =>
      intro fuel out _ _
      rw [List.map_nil, List.flatten_nil, List.append_nil]
      cases fuel with
      | zero => rfl
      | succ fuel => rfl
  | cons c cs ih =>
      intro fuel out hchain hfuel
      obtain ⟨⟨hne, page, hpage, hchunk⟩, hcs⟩ := hchain
      have hsmall := hchunk.small
      have hmax : maxChunk = 4084 := rfl
      cases fuel with
      | zero => exact absurd hfuel (Nat.not_succ_le_zero _)
      | succ fuel =>
          rw [readOverflowLoop, headOf, if_neg hne, hl.getPage s c.1 page hpage, ok_bind,
            hchunk.magic, ok_bind, if_neg (not_not.mpr rfl), hchunk.size, ok_bind]
          dsimp only
          rw [u16_of_lt (by omega), if_pos (by omega), Nat.add_sub_cancel_left, hchunk.data,
            ok_bind, hchunk.link, ok_bind, UInt64.ofNat_toNat,
            ih fuel _ hcs (Nat.le_of_succ_le_succ hfuel), List.map_cons, List.flatten_cons,
            List.append_assoc]

/-- Freeing walks down the chain and frees its pages in order. -/
theorem freeOverflow_chain (hl : OverflowLawful refusal ops live) :
    ∀ (cs : List (Ptr × Bytes)) (fuel : Nat) (s : σ), ChunkChain (live s) cs →
      (cs.map Prod.fst).Nodup → cs.length ≤ fuel →
      freeOverflow ops fuel s (headOf cs) = (cs.map Prod.fst).foldlM ops.delPage s
        ∧ ∃ s', freeOverflow ops fuel s (headOf cs) = .ok s'
          ∧ ∀ p, live s' p = if p ∈ cs.map Prod.fst then none else live s p := by
  intro cs
  induction cs with
  | nil =>
      intro fuel s _ _ _
      have hstop : freeOverflow ops fuel s 0 = .ok s := by
        cases fuel with
        | zero => rfl
        | succ fuel => rfl
      exact ⟨hstop, s, hstop, fun p => (if_neg List.not_mem_nil).symm⟩
  | cons c cs ih =>
      intro fuel s hchain hnodup hfuel
      obtain ⟨hlink, hcs⟩ := hchain
      have hlive := hlink.live
      obtain ⟨hne, page, hpage, hchunk⟩ := hlink
      rw [List.map_cons] at hnodup ⊢
      obtain ⟨hout, hnodup⟩ := List.nodup_cons.mp hnodup
      cases fuel with
      | zero => exact absurd hfuel (Nat.not_succ_le_zero _)
      | succ fuel =>
          obtain ⟨s₁, hdel, hlive₁⟩ := hl.delPage s c.1 hlive
          have hcs₁ : ChunkChain (live s₁) cs := hcs.congr fun p hp => by
            have hne' : p ≠ c.1 := fun heq => hout (heq ▸ hp)
            rw [hlive₁, Function.update_of_ne hne']
          obtain ⟨hfold, s', hfree, hlive'⟩ := ih fuel s₁ hcs₁ hnodup
            (Nat.le_of_succ_le_succ hfuel)
          have hstep : freeOverflow ops (fuel + 1) s (headOf (c :: cs))
              = freeOverflow ops fuel s₁ (headOf cs) := by
            rw [freeOverflow, headOf, if_neg hne, hl.getPage s c.1 page hpage, ok_bind,
              hchunk.link, ok_bind, hdel, ok_bind, UInt64.ofNat_toNat]
          rw [hstep, List.foldlM_cons, hdel, ok_bind]
          refine ⟨hfold, s', hfree, fun p => ?_⟩
          rw [hlive' p, hlive₁]
          by_cases hp : p = c.1
          · rw [hp, if_pos (List.mem_cons_self ..), if_neg hout, Function.update_self]
          · rw [Function.update_of_ne hp]
            simp only [List.mem_cons, hp, false_or]

end Ops

-- ========================================================= results

/-- What `allocOverflow` has done when it returned the pointer `ptr`:
the pages `ps` are new, as many as `overflowSize` says, and no other page
has changed; reading from `ptr` gives the data; and freeing from it frees
the pages `ps`, one after the other, which leaves the heap as it was. -/
def HoldsData {σ : Type} (ops : OverflowOps σ) (live : σ → Ptr → Option BNode) (s : σ)
    (data : Bytes) (ptr : Ptr) (s' : σ) : Prop :=
  ∃ ps, ps.length = overflowSize data ∧ Owned (live s) (live s') ps
    ∧ ∀ fuel, overflowSize data ≤ fuel →
      readOverflow ops fuel s' ptr = .ok data
        ∧ freeOverflow ops fuel s' ptr = ps.foldlM ops.delPage s'
        ∧ ∃ s'', freeOverflow ops fuel s' ptr = .ok s'' ∧ live s'' = live s

/-- Chains hold exactly their data, for data of any length and over every
store that keeps the contract, unless it has no page left. -/
theorem overflow_holds {σ : Type} {refusal : Fault} {ops : OverflowOps σ}
    {live : σ → Ptr → Option BNode} (hl : OverflowLawful refusal ops live)
    (s : σ) (data : Bytes) :
    Returns refusal (allocOverflow ops s data) fun r => HoldsData ops live s data r.1 r.2 := by
  have hheader : ∃ node, setHeader (make btreePageSize) bnodeLeaf 1 = .ok node := by
    obtain ⟨node, hnode, -⟩ := holds_setHeader (make btreePageSize) bnodeLeaf 1
      (by rw [length_make]; decide) (by decide) (by rw [length_make]; decide)
    exact ⟨node, hnode⟩
  obtain ⟨node, hnode⟩ := hheader
  rw [allocOverflow, hnode, ok_bind]
  refine (allocOverflowLoop_chain hl data.length s data 0 0 [] le_rfl
    fun h => absurd rfl h).mono ?_
  intro r hr
  obtain ⟨cs, hext, hfirst⟩ := hr
  rw [if_pos rfl] at hfirst
  have hcount : cs.length = overflowSize data := hext.count
  have howned : Owned (live s) (live r.2) (cs.map Prod.fst) := by
    refine ⟨hext.nodup, hext.fresh, ?_, fun p hp => hext.frame p hp (Or.inr rfl)⟩
    intro p hp
    exact hext.chain.live hp
  refine ⟨cs.map Prod.fst, by rw [List.length_map, hcount], howned, ?_⟩
  intro fuel hfuel
  rw [hfirst]
  obtain ⟨hfold, s'', hfree, hlive⟩ := freeOverflow_chain hl cs fuel r.2 hext.chain hext.nodup
    (hcount.trans_le hfuel)
  refine ⟨?_, hfold, s'', hfree, ?_⟩
  · rw [readOverflow, readOverflowLoop_chain hl cs fuel [] hext.chain (hcount.trans_le hfuel),
      List.nil_append, hext.data]
  · funext p
    rw [hlive p]
    split
    · next hp => exact (hext.fresh p hp).symm
    · next hp => exact hext.frame p hp (Or.inr rfl)

/-- Pages in memory. -/
def memOverflowOps : OverflowOps MemStore where
  toPageOps := memOps
  poke := MemStore.poke

theorem memOverflowOps_lawful : OverflowLawful .noPage memOverflowOps MemStore.pages where
  toLawful := memOps_lawful
  poke := memFreeOps_lawful.poke

/-- Two bytes more than a page takes. -/
def longData : Bytes := List.replicate maxChunk 1 ++ [2, 3]

/-- In an empty store they are a chain of two pages. -/
theorem overflow_holds_two_pages :
    overflowSize longData = 2
      ∧ ∃ ptr s', allocOverflow memOverflowOps MemStore.empty longData = .ok (ptr, s')
        ∧ HoldsData memOverflowOps MemStore.pages MemStore.empty longData ptr s' := by
  obtain ⟨⟨ptr, s'⟩, halloc, hholds⟩ :=
    (overflow_holds memOverflowOps_lawful MemStore.empty longData).ok_of_isOk (by decide +kernel)
  exact ⟨by decide +kernel, ptr, s', halloc, hholds⟩

end Svacara.Btree
