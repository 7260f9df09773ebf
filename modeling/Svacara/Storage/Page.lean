/-
`internal/storage/page.go`: the page manager.

# The file and its mappings

The file is its bytes, with the writes that were made to it since it was
opened, in order (nothing in the code reads that list: it is there to
say what a crash leaves behind). A mapping is a window on the file, not
a copy, so all that is kept of it is its place and length. Reading a
mapped page that begins at or behind the end of the file is a SIGBUS;
the rest of a page that the file ends in reads as zeros.

# Pending pages

A page is pending in `temp`, with a number behind the flushed ones, or
in `updates`, under its own number. `Write` returns the page in
`updates` as a slice to be written to; `poke` is such a write.

# Errors

Which operating system calls fail, and with which text, is an argument
(`World`), as is the order in which `FlushPages` walks the map of
updates. A write that fails writes nothing. `WriteAt` returns an error
when it writes less than it was given, so the check of the byte count
that follows it can only fail for a page of the wrong length.
-/
import Svacara.Btree.FreeList
import Mathlib.Data.List.AList

namespace Svacara.Storage

open Buf

def pageSize : Nat := 4096

def maxChunkMB : Nat := 64

-- ======================================================== the file

structure File where
  bytes : Bytes
  writes : List (Nat × Bytes)
  deriving DecidableEq

/-- `f[off : off+len(src)] = src`, with zeros up to `off` if need be. -/
def overwrite (f : Bytes) (off : Nat) (src : Bytes) : Bytes :=
  splice (f ++ make (off + src.length - f.length)) src off

/-- A `WriteAt` that does not fail. -/
def File.writeAt (f : File) (src : Bytes) (off : Nat) : File where
  bytes := overwrite f.bytes off src
  writes := f.writes ++ [(off, src)]

/-- The page of a mapping that lies at `off` in the file. -/
def File.page (f : File) (off : Nat) : Except Fault Bytes :=
  if off < f.bytes.length then
    .ok (slice f.bytes off pageSize
      ++ make (pageSize - (slice f.bytes off pageSize).length))
  else .error .pastEof

/-- The calls to the operating system that may report an error. -/
inductive SysCall where
  | openFile
  | stat
  | mmap
  | writePage (ptr : Ptr)
  | writeTemp
  | fsync
  | writeMeta
  | fsyncMeta
  | recoverMeta
  | recoverFsync

/-- One entry of the map of updates. -/
abbrev Update := Sigma fun _ : Ptr => Bytes

/-- What a call of the store does not decide itself. -/
structure World where
  error : SysCall → Option String
  visit : Visit Update

/-- No operating system call fails. -/
def World.Quiet (w : World) : Prop := ∀ c, w.error c = none

/-- Nothing fails, and maps are walked as they are stored. -/
def World.calm : World := ⟨fun _ => none, .inOrder⟩

-- ================================================ the page manager

/-- A mapping of `len` bytes from `off` on. -/
structure Chunk where
  off : Nat
  len : Nat
  deriving DecidableEq

structure PageMgr where
  file : File
  total : Nat
  chunks : List Chunk
  flushed : UInt64
  temp : List Bytes
  updates : AList fun _ : Ptr => Bytes

def newPageMgr (file : File) : PageMgr where
  file := file
  total := 0
  chunks := []
  flushed := 0
  temp := []
  updates := ∅

/-- The loop of `Read` over the mappings, from page `start` on. -/
def readChunks (file : File) (ptr : Nat) : Nat → List Chunk → Except Fault Bytes
  | _, [] => .error (.panic ("bad ptr: " ++ toString ptr))
  | start, chunk :: chunks =>
      if ptr < start + chunk.len / pageSize then
        file.page (chunk.off + pageSize * (ptr - start))
      else readChunks file ptr (start + chunk.len / pageSize) chunks

namespace PageMgr

def read (pm : PageMgr) (ptr : Ptr) : Except Fault Bytes :=
  match pm.updates.lookup ptr with
  | some node => .ok node
  | none => readChunks pm.file ptr.toNat 0 pm.chunks

def alloc (pm : PageMgr) (page : Bytes) : Ptr × PageMgr :=
  (pm.flushed + UInt64.ofNat pm.temp.length, { pm with temp := pm.temp ++ [page] })

/-- A write to the page that `Write` returned for `ptr`. -/
def poke (pm : PageMgr) (ptr : Ptr) (page : Bytes) : PageMgr :=
  { pm with updates := pm.updates.insert ptr page }

def write (pm : PageMgr) (ptr : Ptr) : Except Fault (Bytes × PageMgr) :=
  match pm.updates.lookup ptr with
  | some node => .ok (node, pm)
  | none => do
      let page ← pm.read ptr
      let existing ← Btree.copyAt (make pageSize) 0 page
      return (existing, pm.poke ptr existing)

/-- The doubling loop of `ExtendMMap`. An `int` has 63 bits to grow into,
so a loop that is not done by then goes on for ever. -/
def growAlloc (total size : Nat) : Nat → Nat → Except Fault Nat
  | 0, _ => .error .fuel
  | fuel + 1, alloc =>
      if total + alloc < size then growAlloc total size fuel (alloc * 2)
      else .ok alloc

def extendMMap (w : World) (pm : PageMgr) (size : Nat) :
    Except Fault (Option String × PageMgr) := do
  if size ≤ pm.total then return (none, pm)
  let alloc := if pm.total < maxChunkMB * 2 ^ 20 then maxChunkMB * 2 ^ 20 else pm.total
  let alloc ← growAlloc pm.total size 64 alloc
  match w.error .mmap with
  | some e => return (some ("mmap: " ++ e), pm)
  | none => return (none, { pm with
      total := pm.total + alloc
      chunks := pm.chunks ++ [⟨pm.total, alloc⟩] })

/-- The loop of `FlushPages` over the updates; `n` counts the writes. -/
def flushUpdates (w : World) : List Update → Nat → File → Nat × Option String × File
  | [], n, file => (n, none, file)
  | ⟨ptr, page⟩ :: rest, n, file =>
      match w.error (.writePage ptr) with
      | some e => (n, some ("write page " ++ toString ptr.toNat ++ ": " ++ e), file)
      | none =>
          let file := file.writeAt page (ptr.toNat * pageSize)
          if page.length ≠ pageSize then
            (n, some ("short write page " ++ toString ptr.toNat ++ ": "
              ++ toString page.length ++ " bytes"), file)
          else flushUpdates w rest (n + 1) file

/-- The part of `FlushPages` that writes the new pages, after `n`
writes. -/
def flushTemp (w : World) (pm : PageMgr) (n : Nat) : Nat × Option String × PageMgr :=
  if 0 < pm.temp.length then
    match w.error .writeTemp with
    | some e => (n, some ("write temp pages: " ++ e), pm)
    | none => (n + pm.temp.length, none, { pm with
        file := pm.file.writeAt pm.temp.flatten (pm.flushed.toNat * pageSize)
        flushed := pm.flushed + UInt64.ofNat pm.temp.length
        temp := [] })
  else (n, none, pm)

/-- `FlushPages`: the number of writes and the error. -/
def flushPages (w : World) (pm : PageMgr) :
    Except Fault (Nat × Option String × PageMgr) := do
  if pm.temp.length = 0 ∧ pm.updates.entries.length = 0 then return (0, none, pm)
  let fileSize := (pm.flushed.toNat + pm.temp.length) * pageSize
  let (err, pm) ← extendMMap w pm fileSize
  match err with
  | some e => return (0, some e, pm)
  | none =>
      match flushUpdates w (w.visit.order pm.updates.entries) 0 pm.file with
      | (n, some e, file) => return (n, some e, { pm with file := file })
      | (n, none, file) => return flushTemp w { pm with file := file } n

def clearUpdates (pm : PageMgr) : PageMgr := { pm with updates := ∅, temp := [] }

def resetTo (pm : PageMgr) (flushed : UInt64) : PageMgr :=
  { pm with flushed := flushed, temp := [], updates := ∅ }

end PageMgr

-- =================================================== the meta page

def sigSize : Nat := 16

/-- The text `SvacaraDB01` and five zero bytes. -/
def metaSig : Bytes := [83, 118, 97, 99, 97, 114, 97, 68, 66, 48, 49, 0, 0, 0, 0, 0]

def metaOffRoot : Nat := sigSize
def metaOffUsed : Nat := sigSize + 8
def metaOffFree : Nat := sigSize + 16

/-- What the meta page records. -/
structure Meta where
  root : Ptr
  flushed : UInt64
  headPage : Ptr
  headSeq : UInt64
  tailPage : Ptr
  tailSeq : UInt64
  deriving DecidableEq

def writeMeta (page : Bytes) (d : Meta) : Except Fault Bytes := do
  let page ← Btree.copyAt page 0 metaSig
  let page ← Btree.putUintAt 8 page metaOffRoot d.root.toNat
  let page ← Btree.putUintAt 8 page metaOffUsed d.flushed.toNat
  let page ← Btree.putUintAt 8 page metaOffFree d.headPage.toNat
  let page ← Btree.putUintAt 8 page (metaOffFree + 8) d.headSeq.toNat
  let page ← Btree.putUintAt 8 page (metaOffFree + 16) d.tailPage.toNat
  Btree.putUintAt 8 page (metaOffFree + 24) d.tailSeq.toNat

/-- A `uint64` of the page. -/
def wordAt (page : Bytes) (pos : Nat) : Except Fault UInt64 := do
  let n ← Btree.uintAt 8 page pos
  return UInt64.ofNat n

/-- `ReadMeta`: `none` when the signature is not there. -/
def readMeta (page : Bytes) : Except Fault (Option Meta) := do
  let sig ← Btree.sliceAt page 0 sigSize
  if sig ≠ metaSig then return none
  let root ← wordAt page metaOffRoot
  let flushed ← wordAt page metaOffUsed
  let headPage ← wordAt page metaOffFree
  let headSeq ← wordAt page (metaOffFree + 8)
  let tailPage ← wordAt page (metaOffFree + 16)
  let tailSeq ← wordAt page (metaOffFree + 24)
  return some ⟨root, flushed, headPage, headSeq, tailPage, tailSeq⟩

end Svacara.Storage
