/-
`internal/btree/freelist.go`: the list of pages that may be reused.

The list is a chain of pages, each with a next pointer and slots for
page numbers. Its callbacks are again a parameter. `SetPage` hands out
the page as a slice that the list then writes to, so the interface has
one more entry than the source's: `poke` is such a write, through the
slice that `SetPage` returned for the pointer.

Positions are computed as 64-bit words, as the source's `int`s are; one
that is negative there is out of range here.
-/
import Svacara.Btree.Insert

namespace Svacara.Btree

def freeListHeader : Nat := 8

def freeListCap : UInt64 := 511

example : freeListCap.toNat = (btreePageSize - freeListHeader) / 8 := by decide

/-- The callbacks `GetPage`, `NewPage`, `SetPage` of a `FreeList`, and a
write to the page that `SetPage` returned. -/
structure FreeOps (σ : Type) where
  getPage : σ → Ptr → Except Fault BNode
  newPage : σ → BNode → Except Fault (Ptr × σ)
  setPage : σ → Ptr → Except Fault (BNode × σ)
  poke : σ → Ptr → BNode → σ

structure FreeList where
  headPage : Ptr
  headSeq : UInt64
  tailPage : Ptr
  tailSeq : UInt64
  maxSeq : UInt64
  deriving DecidableEq

/-- The zero value of the type: no page yet. -/
def FreeList.zero : FreeList := ⟨0, 0, 0, 0, 0⟩

-- =========================================================== LNode

namespace LNode

def getNext (node : BNode) : Except Fault Ptr := do
  let n ← uintAt 8 node 0
  return UInt64.ofNat n

def setNext (node : BNode) (next : Ptr) : Except Fault BNode :=
  putUintAt 8 node 0 next.toNat

/-- Where slot `idx` is. -/
def slotPos (idx : UInt64) : Nat := (UInt64.ofNat freeListHeader + idx * 8).toNat

def getPtr (node : BNode) (idx : UInt64) : Except Fault Ptr := do
  let n ← uintAt 8 node (slotPos idx)
  return UInt64.ofNat n

def setPtr (node : BNode) (idx : UInt64) (ptr : Ptr) : Except Fault BNode :=
  putUintAt 8 node (slotPos idx) ptr.toNat

end LNode

-- ========================================================= methods

section Ops

variable {σ : Type} (ops : FreeOps σ)

/-- `PopHead`: 0 when there is no list. -/
def popHead (s : σ) (fl : FreeList) : Except Fault (Ptr × FreeList × σ) := do
  if fl.headPage = 0 then return (0, fl, s)
  let node ← ops.getPage s fl.headPage
  let ptr ← LNode.getPtr node fl.headSeq
  let fl := { fl with headSeq := fl.headSeq + 1 }
  let next ← LNode.getNext node
  if freeListCap ≤ fl.headSeq * 8 then
    let fl := if next ≠ 0 then { fl with headSeq := 0 } else fl
    let newHead ← LNode.getNext node
    if newHead ≠ fl.headPage then
      let (_, s) ← ops.setPage s fl.headPage
      return (ptr, { fl with headPage := newHead }, s)
    return (ptr, { fl with headPage := newHead }, s)
  return (ptr, fl, s)

/-- A page for the end of the chain. -/
def newTail (s : σ) : Except Fault (Ptr × σ) := do
  let data ← LNode.setNext (make btreePageSize) 0
  ops.newPage s data

/-- The first statement of `PushTail`: the first push makes the list. -/
def ensureTail (s : σ) (fl : FreeList) : Except Fault (FreeList × σ) := do
  if fl.tailPage = 0 then
    let (p, s) ← newTail ops s
    return ({ fl with tailPage := p, headPage := p }, s)
  return (fl, s)

def pushTail (s : σ) (fl : FreeList) (ptr : Ptr) : Except Fault (FreeList × σ) := do
  let (fl, s) ← ensureTail ops s fl
  let (node, s) ← ops.setPage s fl.tailPage
  let idx := fl.tailSeq % freeListCap
  let node ← LNode.setPtr node idx ptr
  let s := ops.poke s fl.tailPage node
  let fl := { fl with tailSeq := fl.tailSeq + 1 }
  if fl.tailSeq % freeListCap = 0 then
    let (next, s) ← newTail ops s
    let node ← LNode.setNext node next
    let s := ops.poke s fl.tailPage node
    return ({ fl with tailPage := next }, s)
  return (fl, s)

end Ops

def FreeList.setMaxSeq (fl : FreeList) : FreeList := { fl with maxSeq := fl.tailSeq }

end Svacara.Btree
