/-
A free list from its first call on, with a log of what went through it.

`FreeLog` keeps, beside the list and its pages, the pointers pushed and
the pointers returned, each in the order of the calls, and the slot
indices that were used. The pushes land in the slots of a chain of pages,
511 to a page; a page is left by the head after its first 64 slots.

A call is `Safe` for what has been pushed if it does not put the head
behind a written slot that it has not read, and does not write a slot
behind the head.
-/
import Svacara.Btree.FreeRun

namespace Svacara.Btree

structure FreeLog (σ : Type) where
  list : FreeList
  pages : σ
  pushed : List Ptr
  popped : List Ptr
  used : List UInt64

/-- An empty list over a page store. -/
def FreeLog.start {σ : Type} (s : σ) : FreeLog σ := ⟨.zero, s, [], [], []⟩

/-- The slots a page of the list has before the head leaves it. -/
def headCap : UInt64 := 64

/-- Before a `PushTail`: there is no list yet, or the head is on a page
and not behind the slot to be written. Before a `PopHead` of the last
slot that the head reads in its page: nothing is in the slot after it. -/
def FreeList.Safe (m : Ptr → Option BNode) (fl : FreeList) : FreeCall → Prop
  | .push _ => fl.tailPage = 0 ∨ fl.headPage ≠ 0
      ∧ (fl.headPage = fl.tailPage → fl.headSeq ≤ fl.tailSeq % freeListCap)
  | .pop => fl.headPage ≠ 0 → fl.headSeq + 1 = headCap →
      slotAt m fl.headPage headCap = some 0

/-- The page linked behind the head page, if there is one, has nothing in
its first slot. -/
def NothingBehind (m : Ptr → Option BNode) (fl : FreeList) : Prop :=
  fl.headPage = 0 ∨ ∀ node next, m fl.headPage = some node →
    LNode.getNext node = .ok next → next = 0 ∨ slotAt m next 0 = some 0

/-- Every pointer pushed so far has been returned, as often as it was
pushed. -/
def FreeLog.Returned {σ : Type} (x : FreeLog σ) : Prop :=
  ∀ p, x.pushed.count p ≤ x.popped.count p

section Ops

variable {σ : Type} (ops : FreeOps σ)

/-- One call and what `PopHead` returns, 0 for a `PushTail`. -/
def FreeLog.step (x : FreeLog σ) : FreeCall → Except Fault (Ptr × FreeLog σ)
  | .push ptr => do
      let (fl, s) ← pushTail ops x.pages x.list ptr
      return (0, { x with
        list := fl
        pages := s
        pushed := x.pushed ++ [ptr]
        used := x.used ++ [x.list.tailSeq % freeListCap] })
  | .pop => do
      let (ptr, fl, s) ← popHead ops x.pages x.list
      return (ptr, { x with
        list := fl
        pages := s
        popped := if ptr = 0 then x.popped else x.popped ++ [ptr]
        used := if x.list.headPage = 0 then x.used else x.used ++ [x.list.headSeq] })

def FreeLog.run (x : FreeLog σ) : List FreeCall → Except Fault (FreeLog σ)
  | [] => .ok x
  | c :: calls => do
      let (_, x) ← x.step ops c
      x.run calls

/-- Every call of the run is made where it is safe; `pages` reads off the
page store. -/
def AllSafe (pages : σ → Ptr → Option BNode) : FreeLog σ → List FreeCall → Prop
  | _, [] => True
  | x, c :: calls => x.list.Safe (pages x.pages) c
      ∧ ∀ ptr y, x.step ops c = .ok (ptr, y) → AllSafe pages y calls

end Ops

end Svacara.Btree
