/-
`internal/storage/page.go`: the mappings, at the widths of the machine.

`Storage.Page` counts bytes and pages in naturals. Here `total`, sizes
and lengths are `int` and page numbers `uint64`, both with their
overflow, and a slice of a mapping checks its bounds. The page manager
is kept as far as `ExtendMMap` and `Read` use it.

A mapping that succeeds is a view of as many bytes of the file as were
asked for, from the offset on. What `Read` returns is a view again, and
its bytes are those of a file that has one at every offset; that the
real file ends somewhere, and what a touch behind its end does, is the
matter of `Storage.Page`.
-/
import Svacara.Storage.Page

namespace Svacara.Storage

/-- `chunk[lo:hi]`. -/
def Chunk.slice (c : Chunk) (lo hi : UInt64) : Except Fault Chunk :=
  if lo ≤ hi ∧ hi.toNat ≤ c.len then .ok ⟨c.off + lo.toNat, (hi - lo).toNat⟩
  else .error .index

/-- The bytes that a view shows. -/
def Chunk.bytes (c : Chunk) (file : Nat → UInt8) : Bytes :=
  (List.range c.len).map fun i => file (c.off + i)

namespace Mapping

-- =========================================================== state

structure MmapState where
  total : Int64
  chunks : List Chunk
  deriving DecidableEq

structure PageMgr where
  mmap : MmapState
  updates : AList fun _ : Ptr => Bytes

def newPageMgr : PageMgr := ⟨⟨0, []⟩, ∅⟩

-- ============================================================ Read

/-- The loop of `Read` over the chunks, from page `start` on. -/
def lookup (ptr : Ptr) : UInt64 → List Chunk → Except Fault Chunk
  | _, [] => .error (.panic ("bad ptr: " ++ toString ptr.toNat))
  | start, chunk :: chunks =>
      let stop := start + UInt64.ofNat chunk.len / UInt64.ofNat pageSize
      if ptr < stop then
        let offset := UInt64.ofNat pageSize * (ptr - start)
        chunk.slice offset (offset + UInt64.ofNat pageSize)
      else lookup ptr stop chunks

def read (file : Nat → UInt8) (pm : PageMgr) (ptr : Ptr) : Except Fault Bytes :=
  match pm.updates.lookup ptr with
  | some node => .ok node
  | none => do
      let page ← lookup ptr 0 pm.mmap.chunks
      return page.bytes file

-- ====================================================== ExtendMMap

/-- `MaxChunkMB << 20`. -/
def maxChunk : Int64 := Int64.ofNat (maxChunkMB * 2 ^ 20)

/-- The doubling loop of `ExtendMMap`. Sixty-four doublings turn every
`int` into 0, and a loop that gets there goes on for ever. -/
def growAlloc (total size : Int64) : Nat → Int64 → Except Fault Int64
  | 0, _ => .error .fuel
  | fuel + 1, alloc =>
      if total + alloc < size then growAlloc total size fuel (alloc * 2)
      else .ok alloc

/-- `syscall.Mmap` on the open file. -/
def mmap (w : World) (off len : Int64) : Except String Chunk :=
  match w.error .mmap with
  | some e => .error e
  | none => .ok ⟨off.toNatClampNeg, len.toNatClampNeg⟩

def extendMMap (w : World) (pm : PageMgr) (size : Int64) :
    Except Fault (Option String × PageMgr) := do
  if size ≤ pm.mmap.total then return (none, pm)
  let alloc := if pm.mmap.total < maxChunk then maxChunk else pm.mmap.total
  let alloc ← growAlloc pm.mmap.total size 64 alloc
  match mmap w pm.mmap.total alloc with
  | .error e => return (some ("mmap: " ++ e), pm)
  | .ok chunk => return (none, { pm with
      mmap := ⟨pm.mmap.total + alloc, pm.mmap.chunks ++ [chunk]⟩ })

-- ============================================================ runs

/-- A page manager that has seen nothing but successful calls of
`ExtendMMap`, and changes to its pending pages in between. -/
inductive Reached : PageMgr → Prop where
  | new : Reached newPageMgr
  | extend {pm pm' : PageMgr} (w : World) (size : Int64) (hpm : Reached pm)
      (hneg : 0 ≤ size.toInt) (hsize : size.toInt < 2 ^ 62)
      (hok : extendMMap w pm size = .ok (none, pm')) : Reached pm'
  | pages {pm : PageMgr} (updates : AList fun _ : Ptr => Bytes) (hpm : Reached pm) :
      Reached { pm with updates := updates }

end Mapping

-- ========================================================== layout

/-- The chunks lie end to end, from `start` to `stop`. -/
def Contiguous : Nat → List Chunk → Nat → Prop
  | start, [], stop => start = stop
  | start, chunk :: chunks, stop =>
      chunk.off = start ∧ Contiguous (start + chunk.len) chunks stop

/-- Byte `i` of the file lies in the chunk. -/
def Chunk.Has (c : Chunk) (i : Nat) : Prop := c.off ≤ i ∧ i < c.off + c.len

/-- The chunk starts and ends between two pages. -/
def Chunk.Aligned (c : Chunk) : Prop := pageSize ∣ c.off ∧ pageSize ∣ c.len

/-- The chunks show the file up to `total`, end to end and by whole
pages. -/
structure Tiled (chunks : List Chunk) (total : Nat) : Prop where
  contiguous : Contiguous 0 chunks total
  aligned : ∀ c ∈ chunks, c.Aligned

-- ===================================================== both levels

namespace Mapping

/-- The page manager of `Storage.Page` with its numbers as `int`s. -/
def narrow (pm : Storage.PageMgr) : PageMgr :=
  ⟨⟨Int64.ofNat pm.total, pm.chunks⟩, pm.updates⟩

/-- A file as its mappings show it, with zeros behind its end. -/
def shown (file : File) : Nat → UInt8 := fun i => file.bytes.getD i 0

end Mapping

end Svacara.Storage
