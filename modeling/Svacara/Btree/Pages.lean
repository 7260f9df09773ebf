/-
What the tree may assume of its page callbacks.

`Lawful refusal ops live` is the contract, with `live` reading off the
pages that have been allocated and not freed, with their contents: a
fetched page is what was passed to `NewPage`, a new pointer is not zero
and not live, and a live page can be freed. `NewPage` may also refuse:
pointers are 64 bits wide, so no store can go on handing out fresh ones
for ever, and a contract that said so would have no model. The fault it
refuses with is a parameter of the contract, and `Returns` lets that
fault through and no other: nothing but the store stops a call.

`Ledger live` is a store with the list of pages its user holds, each of
them live, and `audited` is the callbacks with that list kept: an
allocation enters the page, freeing a page strikes it out, and freeing
one that is not listed is reported as `Fault.doubleFree`.

`logged` is the callbacks with a log of the calls that change the store.
`Keeping ops I` says what one may read off such a log after a run that
stored no node larger than a page.
-/
import Svacara.Btree.Insert
import Svacara.Lib.Outcome
import Mathlib.Logic.Function.Basic

namespace Svacara.Btree

open Outcome

/-- The call returned a value with `Q`, unless `NewPage` refused a page. -/
abbrev Returns {α : Type} (refusal : Fault) (x : Except Fault α) (Q : α → Prop) : Prop :=
  Meets (· = refusal) x Q

/-- The contract of the callbacks over the live pages. -/
structure Lawful {σ : Type} (refusal : Fault) (ops : PageOps σ)
    (live : σ → Ptr → Option BNode) : Prop where
  getPage : ∀ s p n, live s p = some n → ops.getPage s p = .ok n
  newPage : ∀ s n, Returns refusal (ops.newPage s n) fun r =>
    r.1 ≠ 0 ∧ live s r.1 = none
      ∧ live r.2 = Function.update (live s) r.1 (some n)
  delPage : ∀ s p, live s p ≠ none →
    ∃ s', ops.delPage s p = .ok s' ∧ live s' = Function.update (live s) p none

section Audit

variable {σ : Type} {refusal : Fault} {ops : PageOps σ} {live : σ → Ptr → Option BNode}

/-- A store and the pages allocated from it and not freed. -/
structure Ledger {σ : Type} (live : σ → Ptr → Option BNode) where
  store : σ
  held : List Ptr
  nodup : held.Nodup
  isLive : ∀ p ∈ held, live store p ≠ none

/-- The ledger before the first allocation. -/
def Ledger.open (live : σ → Ptr → Option BNode) (s : σ) : Ledger live where
  store := s
  held := []
  nodup := List.nodup_nil
  isLive _ hp := absurd hp List.not_mem_nil

/-- The pages held, with their contents. -/
def Ledger.pages (x : Ledger live) : Ptr → Option BNode :=
  fun p => if p ∈ x.held then live x.store p else none

theorem Lawful.new_eq (hl : Lawful refusal ops live) {s s' : σ} {n : BNode} {p : Ptr}
    (h : ops.newPage s n = .ok (p, s')) : p ≠ 0 ∧ live s p = none
      ∧ live s' = Function.update (live s) p (some n) :=
  (hl.newPage s n).get h

theorem Lawful.del_eq (hl : Lawful refusal ops live) {s s' : σ} {p : Ptr}
    (hp : live s p ≠ none) (h : ops.delPage s p = .ok s') :
    live s' = Function.update (live s) p none := by
  obtain ⟨s₁, h₁, hlive⟩ := hl.delPage s p hp
  rw [h] at h₁
  cases h₁
  exact hlive

def Ledger.enter (x : Ledger live) {s : σ} {n : BNode} {p : Ptr}
    (hp : live x.store p = none)
    (hs : live s = Function.update (live x.store) p (some n)) : Ledger live where
  store := s
  held := p :: x.held
  nodup := List.nodup_cons.mpr ⟨fun hmem => x.isLive p hmem hp, x.nodup⟩
  isLive q hq := by
    rw [hs]
    by_cases hqp : q = p
    · rw [hqp, Function.update_self]
      exact Option.some_ne_none n
    · rw [Function.update_of_ne hqp]
      exact x.isLive q ((List.mem_cons.mp hq).resolve_left hqp)

def Ledger.strike (x : Ledger live) {s : σ} {p : Ptr}
    (hs : live s = Function.update (live x.store) p none) : Ledger live where
  store := s
  held := x.held.erase p
  nodup := x.nodup.erase p
  isLive q hq := by
    obtain ⟨hqp, hq⟩ := x.nodup.mem_erase_iff.mp hq
    rw [hs, Function.update_of_ne hqp]
    exact x.isLive q hq

theorem Ledger.pages_enter (x : Ledger live) {s : σ} {n : BNode} {p : Ptr}
    (hp : live x.store p = none)
    (hs : live s = Function.update (live x.store) p (some n)) :
    (x.enter hp hs).pages = Function.update x.pages p (some n) := by
  funext q
  show (if q ∈ p :: x.held then live s q else none) = _
  by_cases hqp : q = p
  · rw [hqp, if_pos (List.mem_cons_self ..), hs, Function.update_self,
      Function.update_self]
  · have hmem : q ∈ p :: x.held ↔ q ∈ x.held := by simp [hqp]
    rw [hs, Function.update_of_ne hqp, Function.update_of_ne hqp]
    simp only [hmem]
    rfl

theorem Ledger.pages_strike (x : Ledger live) {s : σ} {p : Ptr}
    (hs : live s = Function.update (live x.store) p none) :
    (x.strike hs).pages = Function.update x.pages p none := by
  funext q
  show (if q ∈ x.held.erase p then live s q else none) = _
  by_cases hqp : q = p
  · rw [hqp, Function.update_self, hs, Function.update_self, ite_self]
  · rw [hs, Function.update_of_ne hqp, Function.update_of_ne hqp]
    simp only [List.mem_erase_of_ne hqp]
    rfl

/-- The callbacks with the ledger kept. -/
def audited (hl : Lawful refusal ops live) : PageOps (Ledger live) where
  getPage x p := ops.getPage x.store p
  newPage x n :=
    match h : ops.newPage x.store n with
    | .ok (p, _) => .ok (p, x.enter (hl.new_eq h).2.1 (hl.new_eq h).2.2)
    | .error e => .error e
  delPage x p :=
    if hp : p ∈ x.held then
      match h : ops.delPage x.store p with
      | .ok _ => .ok (x.strike (hl.del_eq (x.isLive p hp) h))
      | .error e => .error e
    else .error .doubleFree

/-- Auditing keeps the contract, for the pages held. -/
theorem audited_lawful (hl : Lawful refusal ops live) :
    Lawful refusal (audited hl) Ledger.pages where
  getPage x p n hn := by
    apply hl.getPage
    by_cases hp : p ∈ x.held
    · rw [Ledger.pages, if_pos hp] at hn
      exact hn
    · rw [Ledger.pages, if_neg hp] at hn
      cases hn
  newPage x n := by
    have hnew := hl.newPage x.store n
    unfold audited
    dsimp only
    split
    · next p s' h =>
      obtain ⟨hp0, hfree, hupd⟩ := hl.new_eq h
      refine Meets.ok ⟨hp0, ?_, ?_⟩
      · exact if_neg fun hmem => x.isLive p hmem hfree
      · exact x.pages_enter hfree hupd
    · next e h =>
      rcases hnew with ⟨a, ha, -⟩ | ⟨e', he, hallow⟩
      · rw [h] at ha
        cases ha
      · rw [h] at he
        cases he
        exact Or.inr ⟨e, rfl, hallow⟩
  delPage x p hp := by
    have hmem : p ∈ x.held := by
      by_contra hout
      exact hp (if_neg hout)
    obtain ⟨s', hdel, -⟩ := hl.delPage x.store p (x.isLive p hmem)
    unfold audited
    dsimp only
    rw [dif_pos hmem]
    split
    · next s₁ h =>
      have hs₁ := hl.del_eq (x.isLive p hmem) h
      exact ⟨_, rfl, x.pages_strike hs₁⟩
    · next e h =>
      rw [hdel] at h
      cases h

end Audit

/-- By its own account the node fits a page. -/
def FitsPage (node : BNode) : Prop :=
  ∃ size, nbytes node = .ok size ∧ size ≤ btreePageSize

/-- The callbacks keep `I` as long as what they store fits a page. -/
structure Keeping {σ : Type} (ops : PageOps σ) (I : σ → Prop) : Prop where
  newPage : ∀ s node r, I s → FitsPage node → ops.newPage s node = .ok r → I r.2
  delPage : ∀ s p s', I s → ops.delPage s p = .ok s' → I s'

/-- A call of `NewPage` or of `DelPage`. -/
inductive PageCall where
  | newPage (node : BNode)
  | delPage (ptr : Ptr)
  deriving DecidableEq

section Log

variable {σ : Type} {refusal : Fault} {ops : PageOps σ} {live : σ → Ptr → Option BNode}

/-- The callbacks with a log. -/
def logged {σ : Type} (ops : PageOps σ) : PageOps (σ × List PageCall) where
  getPage x p := ops.getPage x.1 p
  newPage x n := do
    let (p, s) ← ops.newPage x.1 n
    return (p, (s, x.2 ++ [.newPage n]))
  delPage x p := do
    let s ← ops.delPage x.1 p
    return (s, x.2 ++ [.delPage p])

/-- The log changes nothing of the contract. -/
theorem logged_lawful (hl : Lawful refusal ops live) :
    Lawful refusal (logged ops) fun x => live x.1 where
  getPage x p n hn := hl.getPage x.1 p n hn
  newPage x n := (hl.newPage x.1 n).bind fun _ h => Meets.ok h
  delPage x p hp := by
    obtain ⟨s', hdel, hlive⟩ := hl.delPage x.1 p hp
    refine ⟨(s', x.2 ++ [.delPage p]), ?_, hlive⟩
    show (ops.delPage x.1 p >>= fun s => pure (s, x.2 ++ [PageCall.delPage p])) = _
    rw [hdel, ok_bind, pure_eq_ok]

/-- What the log says was stored fits a page. -/
def StoredFit (x : σ × List PageCall) : Prop :=
  ∀ node, PageCall.newPage node ∈ x.2 → FitsPage node

theorem logged_keeping (ops : PageOps σ) : Keeping (logged ops) StoredFit where
  newPage x n r hx hn h := by
    obtain ⟨⟨p, s⟩, -, h⟩ := bind_eq_ok.mp h
    cases h
    intro node hmem
    rcases List.mem_append.mp hmem with hmem | hmem
    · exact hx node hmem
    · cases List.mem_singleton.mp hmem
      exact hn
  delPage x p x' hx h := by
    obtain ⟨s, -, h⟩ := bind_eq_ok.mp h
    cases h
    intro node hmem
    rcases List.mem_append.mp hmem with hmem | hmem
    · exact hx node hmem
    · cases List.mem_singleton.mp hmem

end Log

end Svacara.Btree
