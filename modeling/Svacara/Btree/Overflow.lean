/-
`internal/btree/overflow.go`: data of any length in a chain of pages.

A page of the chain is a magic number, the length of its data as a
uint16, the pointer to the next page, 0 on the last, and the data from
byte 12 on. `allocOverflow` allocates a page with the link 0 and then
writes the pointer into the page before it, through the slice that the
callback handed out: `poke` is that write, as for the free list.

Nothing in the package calls these functions. Reading and freeing follow
links as far as they go, so both take fuel.
-/
import Svacara.Btree.Insert

namespace Svacara.Btree

open Buf

def ovflMagic : Nat := 0xBEEF

/-- The data that one page takes. -/
def maxChunk : Nat := btreePageSize - 12

/-- The callbacks of a `BTree`, and a write to the page that `GetPage`
returned. -/
structure OverflowOps (σ : Type) extends PageOps σ where
  poke : σ → Ptr → BNode → σ

/-- A page of the chain, not linked yet. -/
def overflowPage (chunk : Bytes) : Except Fault BNode := do
  let page ← putUintAt 2 (make btreePageSize) 0 ovflMagic
  let page ← putUintAt 2 page 2 (u16 chunk.length)
  let page ← putUintAt 8 page 4 0
  copyAt page 12 chunk

section Ops

variable {σ : Type} (ops : OverflowOps σ)

/-- Write `ptr` as the link of the page `prev`, if there is one. -/
def linkOverflow (s : σ) (prev ptr : Ptr) : Except Fault σ := do
  if prev ≠ 0 then
    let prevPage ← ops.getPage s prev
    let prevPage ← putUintAt 8 prevPage 4 ptr.toNat
    return ops.poke s prev prevPage
  return s

/-- The loop of `allocOverflow`. Each round takes a byte or more, so the
length of the data is fuel enough. -/
def allocOverflowLoop : Nat → σ → Bytes → Ptr → Ptr → Except Fault (Ptr × σ)
  | _, s, [], firstPtr, _ => .ok (firstPtr, s)
  | 0, _, _ :: _, _, _ => .error .fuel
  | fuel + 1, s, b :: bs, firstPtr, prevPtr => do
      let remaining := b :: bs
      let chunk := if maxChunk < remaining.length then remaining.take maxChunk else remaining
      let page ← overflowPage chunk
      let (ptr, s) ← ops.newPage s page
      let firstPtr := if firstPtr = 0 then ptr else firstPtr
      let s ← linkOverflow ops s prevPtr ptr
      allocOverflowLoop fuel s (remaining.drop chunk.length) firstPtr ptr

def allocOverflow (s : σ) (data : Bytes) : Except Fault (Ptr × σ) := do
  -- a leaf that the source makes and does not use
  let _ ← setHeader (make btreePageSize) bnodeLeaf 1
  allocOverflowLoop ops data.length s data 0 0

/-- The loop of `readOverflow`. The end of the slice is a sum in 16
bits. -/
def readOverflowLoop : Nat → σ → Ptr → Bytes → Except Fault Bytes
  | 0, _, ptr, out => if ptr = 0 then .ok out else .error .fuel
  | fuel + 1, s, ptr, out =>
      if ptr = 0 then .ok out
      else do
        let page ← ops.getPage s ptr
        let magic ← uintAt 2 page 0
        if magic ≠ ovflMagic then return out
        let chunkLen ← uintAt 2 page 2
        let stop := u16 (12 + chunkLen)
        let chunk ← if 12 ≤ stop then sliceAt page 12 (stop - 12) else .error .index
        let next ← uintAt 8 page 4
        readOverflowLoop fuel s (UInt64.ofNat next) (out ++ chunk)

def readOverflow (fuel : Nat) (s : σ) (ptr : Ptr) : Except Fault Bytes :=
  readOverflowLoop ops fuel s ptr []

def freeOverflow : Nat → σ → Ptr → Except Fault σ
  | 0, s, ptr => if ptr = 0 then .ok s else .error .fuel
  | fuel + 1, s, ptr =>
      if ptr = 0 then .ok s
      else do
        let page ← ops.getPage s ptr
        let next ← uintAt 8 page 4
        let s ← ops.delPage s ptr
        freeOverflow fuel s (UInt64.ofNat next)

end Ops

/-- The loop of `overflowSize`. -/
def overflowSizeLoop (n pages : Nat) : Nat :=
  if 0 < n then overflowSizeLoop (if maxChunk < n then n - maxChunk else 0) (pages + 1)
  else pages
  termination_by n
  decreasing_by
    have : maxChunk = 4084 := rfl
    split
    · omega
    · omega

def overflowSize (data : Bytes) : Nat := overflowSizeLoop data.length 0

end Svacara.Btree
