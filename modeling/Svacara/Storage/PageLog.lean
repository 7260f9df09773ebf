/-
A page manager between two flushes, with a log of what each page is to
hold.

`Alloc` hands over a page, `Write` a page to be changed in place. The log
keeps the latest content of every page that is pending, by the order of
the calls. After the flush a pending page should be in the file at the
offset that its number says, and every other page as it was (`Placed`).

`FlushPages` writes the new pages as one run of bytes, from the page
behind the flushed ones on, after the updates. `LaidOut` says what that
needs: on each page that the run covers stands what the page is to hold.
-/
import Svacara.Storage.Page

namespace Svacara.Storage

open Buf

/-- A change to a page through the slice that `Write` returned. -/
structure Edit where
  apply : Bytes → Bytes
  length_apply : ∀ page, (apply page).length = page.length

inductive PageUse where
  | alloc (page : Bytes)
  | write (ptr : Ptr) (edit : Edit)

structure PageLog where
  pm : PageMgr
  latest : Ptr → Option Bytes

/-- What a page is to hold in a state reached by earlier calls: a `Write`
to a new page was the later one. -/
def PageMgr.pending (pm : PageMgr) (ptr : Ptr) : Option Bytes :=
  match pm.updates.lookup ptr with
  | some page => some page
  | none => pm.temp[(ptr - pm.flushed).toNat]?

namespace PageLog

def start (pm : PageMgr) : PageLog := ⟨pm, pm.pending⟩

def step (x : PageLog) : PageUse → Except Fault PageLog
  | .alloc page =>
      let (ptr, pm) := x.pm.alloc page
      .ok ⟨pm, Function.update x.latest ptr (some page)⟩
  | .write ptr edit => do
      let (page, pm) ← x.pm.write ptr
      return ⟨pm.poke ptr (edit.apply page),
        Function.update x.latest ptr (some (edit.apply page))⟩

def run (x : PageLog) : List PageUse → Except Fault PageLog
  | [] => .ok x
  | c :: calls => do
      let x ← x.step c
      x.run calls

end PageLog

/-- The file holds the first 4096 bytes of the page at its offset. -/
def Holds (file : Bytes) (ptr : Ptr) (page : Bytes) : Prop :=
  slice file (ptr.toNat * pageSize) pageSize = page.take pageSize

/-- The bytes of a page that lie below the old end of file are the old
ones. -/
def Untouched (old new : Bytes) (ptr : Ptr) : Prop :=
  ∀ i, i < pageSize → ptr.toNat * pageSize + i < old.length →
    new[ptr.toNat * pageSize + i]? = old[ptr.toNat * pageSize + i]?

/-- Every pending page is in the file where its number says, and nothing
else has changed. -/
def Placed (latest : Ptr → Option Bytes) (old new : Bytes) : Prop :=
  ∀ ptr, match latest ptr with
    | some page => Holds new ptr page
    | none => Untouched old new ptr

/-- The buffers of the new pages, end to end, have at each page that they
cover what the page is to hold; the bytes of the file if it is not
pending. -/
def PageLog.LaidOut (x : PageLog) : Prop :=
  ∀ i (ptr : Ptr), i * pageSize < x.pm.temp.flatten.length →
    ptr.toNat = x.pm.flushed.toNat + i →
    match x.latest ptr with
    | some page => slice x.pm.temp.flatten (i * pageSize) pageSize = page.take pageSize
    | none => ∀ j, j < pageSize →
        ptr.toNat * pageSize + j < x.pm.file.bytes.length →
        x.pm.temp.flatten[i * pageSize + j]?
          = x.pm.file.bytes[ptr.toNat * pageSize + j]?

end Svacara.Storage
