/-
Calls on a free list between two commits.

`FreeLawful refusal ops pages` is what the list may assume of its
callbacks, with `pages` reading off the page store: a page is read as it
was written last, a page that is not there cannot be read, and `NewPage`
makes a page that was not there before or refuses with `refusal`.

An `Episode` is a list since the last `SetMaxSeq`, with a record of what
`PushTail` has done in it: the slots that were written and the pointers
that were put there. The list itself does not keep that record; its field
`maxSeq` is set and never looked at.
-/
import Svacara.Btree.FreeList
import Svacara.Btree.Pages

namespace Svacara.Btree

/-- The contract of the free list's callbacks. -/
structure FreeLawful {σ : Type} (refusal : Fault) (ops : FreeOps σ)
    (pages : σ → Ptr → Option BNode) : Prop where
  getPage : ∀ s p n, pages s p = some n → ops.getPage s p = .ok n
  getPage_none : ∀ s p, pages s p = none → ∃ e, ops.getPage s p = .error e
  newPage : ∀ s n, Returns refusal (ops.newPage s n) fun r =>
    r.1 ≠ 0 ∧ pages s r.1 = none
      ∧ pages r.2 = Function.update (pages s) r.1 (some n)
  setPage : ∀ s p n, pages s p = some n →
    ∃ s', ops.setPage s p = .ok (n, s') ∧ pages s' = pages s
  setPage_none : ∀ s p, pages s p = none → ∃ e, ops.setPage s p = .error e
  poke : ∀ s p n, pages s p ≠ none →
    pages (ops.poke s p n) = Function.update (pages s) p (some n)

/-- All pages have the size of a page. -/
def Sized (m : Ptr → Option BNode) : Prop := ∀ p n, m p = some n → n.length = btreePageSize

/-- What a slot of a page holds, if the page is there and has the slot. -/
def slotAt (m : Ptr → Option BNode) (page : Ptr) (idx : UInt64) : Option Ptr :=
  (m page).bind fun node => (LNode.getPtr node idx).toOption

-- ======================================================== episodes

inductive FreeCall where
  | push (ptr : Ptr)
  | pop
  deriving DecidableEq

/-- A free list, the slots that have been written since the last
`SetMaxSeq`, and the pointers that have been pushed. -/
structure Episode (σ : Type) where
  list : FreeList
  pages : σ
  slots : List (Ptr × UInt64)
  pushed : List Ptr

/-- The commit point. -/
def Episode.start {σ : Type} (fl : FreeList) (s : σ) : Episode σ :=
  ⟨fl.setMaxSeq, s, [], []⟩

section Ops

variable {σ : Type} (ops : FreeOps σ)

/-- One call and what `PopHead` returns, 0 for a `PushTail`. -/
def Episode.step (x : Episode σ) : FreeCall → Except Fault (Ptr × Episode σ)
  | .push ptr => do
      let (fl, s) ← pushTail ops x.pages x.list ptr
      -- the first push makes the page it writes to
      let page := if x.list.tailPage = 0 then fl.headPage else x.list.tailPage
      let slot := (page, x.list.tailSeq % freeListCap)
      return (0, ⟨fl, s, slot :: x.slots, ptr :: x.pushed⟩)
  | .pop => do
      let (ptr, fl, s) ← popHead ops x.pages x.list
      return (ptr, { x with list := fl, pages := s })

/-- No `PopHead` returns a page that was pushed before it. -/
def NoReuse : Episode σ → List FreeCall → Prop
  | _, [] => True
  | x, c :: calls => ∀ ptr y, x.step ops c = .ok (ptr, y) →
      (c = .pop → ptr ≠ 0 → ptr ∉ x.pushed) ∧ NoReuse y calls

/-- The next `PopHead` reads a slot that no push has written, and what
the slot held at the commit point, in the pages `m`, has not been pushed
again. -/
def Episode.PopsOld (m : Ptr → Option BNode) (x : Episode σ) : Prop :=
  x.list.headPage = 0 ∨ (x.list.headPage, x.list.headSeq) ∉ x.slots
    ∧ ∀ ptr ∈ x.pushed, slotAt m x.list.headPage x.list.headSeq ≠ some ptr

/-- Every `PopHead` of the calls is made where that is so. -/
def AllPopsOld (m : Ptr → Option BNode) : Episode σ → List FreeCall → Prop
  | _, [] => True
  | x, c :: calls => (c = .pop → (∃ r, x.step ops c = .ok r) → x.PopsOld m)
      ∧ ∀ ptr y, x.step ops c = .ok (ptr, y) → AllPopsOld m y calls

end Ops

end Svacara.Btree
