/-
`internal/kvstore/kv.go`: the key-value store over one file.

`Open` ties the three parts together: the tree takes its pages from the
free list first and from the page manager otherwise, and gives them back
to the free list; the free list keeps its own pages in the page manager.
`Pager` is what the closures capture, with the file inside.

`updateOrRevert` is the commit: pending pages first, then the meta page.
Every call has a `World` for the operating system calls it makes. The
path and the descriptor are left out, as is the mutex of the callers:
the methods of one store are called one at a time.

A page here is its 4096 bytes. A page that the source reads from the
mapping has the capacity of its chunk, so that an entry larger than its
page (one that `Insert` has cut off) reads on into the next pages where
`getVal` here reports an index fault.
-/
import Svacara.Btree.Delete
import Svacara.Storage.Recovery

namespace Svacara.Kvstore

open Svacara.Storage

abbrev SyncMode := Int

def syncOff : SyncMode := 0
def syncNormal : SyncMode := 1
def syncFull : SyncMode := 2

-- ======================================================= the pages

/-- The state behind the callbacks of the tree. -/
structure Pager where
  free : Btree.FreeList
  pg : PageMgr

/-- The callbacks of the free list. -/
def freeOps : Btree.FreeOps PageMgr where
  getPage pg ptr := pg.read ptr
  newPage pg node := .ok (pg.alloc node)
  setPage pg ptr := pg.write ptr
  poke pg ptr page := pg.poke ptr page

/-- `tree.NewPage`: a page of the free list is overwritten, else one is
appended. -/
def newPage (s : Pager) (node : Btree.BNode) : Except Fault (Ptr × Pager) := do
  let (ptr, free, pg) ← Btree.popHead freeOps s.pg s.free
  if ptr ≠ 0 then
    let (page, pg) ← pg.write ptr
    let page ← Btree.copyAt page 0 node
    return (ptr, ⟨free, pg.poke ptr page⟩)
  let (ptr, pg) := pg.alloc node
  return (ptr, ⟨free, pg⟩)

/-- `tree.DelPage`. -/
def delPage (s : Pager) (ptr : Ptr) : Except Fault Pager := do
  let (free, pg) ← Btree.pushTail freeOps s.pg s.free ptr
  return ⟨free, pg⟩

/-- The callbacks of the tree. -/
def treeOps : Btree.PageOps Pager where
  getPage s ptr := s.pg.read ptr
  newPage := newPage
  delPage := delPage

-- ======================================================= the store

structure KV where
  tree : Btree.BTree Pager
  syncMode : SyncMode
  failed : Bool

/-- A store over the pages of `pg`. -/
def KV.ofPages (root : Ptr) (free : Btree.FreeList) (pg : PageMgr) (mode : SyncMode) : KV where
  tree := ⟨root, ⟨free, pg⟩⟩
  syncMode := mode
  failed := false

/-- The part of `Open` for a file that is not empty. -/
def KV.openFile (w : World) (file : File) (mode : SyncMode) :
    Except Fault (Except String KV) := do
  let (err, pg) ← (newPageMgr file).extendMMap w file.bytes.length
  match err with
  | some e => return .error e
  | none =>
      let page ← pg.read 0
      let found ← readMetaSafe page
      match found with
      | none => return .error "not a valid SvacaraDB file (checksum failed)"
      | some d =>
          let free : Btree.FreeList := ⟨d.headPage, d.headSeq, d.tailPage, d.tailSeq, 0⟩
          return .ok (.ofPages d.root free (pg.resetTo d.flushed) mode)

def KV.open (w : World) (file : File) (mode : SyncMode) :
    Except Fault (Except String KV) := do
  match w.error .openFile, w.error .stat with
  | some e, _ => return .error ("open file: " ++ e)
  | none, some e => return .error ("stat: " ++ e)
  | none, none =>
      if file.bytes.length = 0 then
        return .ok (.ofPages 0 .zero ((newPageMgr file).resetTo 1) mode)
      KV.openFile w file mode

namespace KV

def pg (db : KV) : PageMgr := db.tree.pages.pg

def file (db : KV) : File := db.pg.file

def setPg (db : KV) (pg : PageMgr) : KV :=
  { db with tree := { db.tree with pages := { db.tree.pages with pg := pg } } }

/-- `Close`: what is left is the file. -/
def close (db : KV) : File := db.file

/-- `Get`. An entry that runs past its page is a fault; see above. -/
def get (fuel : Nat) (db : KV) (key : Bytes) : Except Fault (Option Bytes) :=
  Btree.get treeOps fuel db.tree key

def buildMeta (db : KV) (root : Ptr) (flushed : UInt64) : Except Fault Bytes :=
  let free := db.tree.pages.free
  writeMetaFull (make pageSize)
    ⟨root, flushed, free.headPage, free.headSeq, free.tailPage, free.tailSeq⟩

def saveMeta (db : KV) : Except Fault Bytes := db.buildMeta db.tree.root db.pg.flushed

def rollback (db : KV) (root : Ptr) (flushed : UInt64) : KV :=
  let db := db.setPg (db.pg.resetTo flushed).clearUpdates
  { db with tree := { db.tree with root := root } }

/-- The first part of `updateOrRevert`: after a failure the meta page is
written again. -/
def recoverMeta (w : World) (db : KV) (oldRoot : Ptr) (oldFlushed : UInt64) :
    Except Fault (Option String × KV) := do
  if !db.failed then return (none, db)
  let page ← db.buildMeta oldRoot oldFlushed
  match w.error .recoverMeta with
  | some e => return (some ("recover meta: " ++ e), db)
  | none =>
      let db := db.setPg { db.pg with file := db.file.writeAt page 0 }
      match w.error .recoverFsync with
      | some e => return (some ("recover fsync: " ++ e), db)
      | none => return (none, { db with failed := false })

/-- The last part of `updateOrRevert`: the meta page is written. -/
def commitMeta (w : World) (db : KV) (oldRoot : Ptr) (oldFlushed : UInt64) :
    Except Fault (Option String × KV) := do
  let db := db.setPg db.pg.clearUpdates
  let page ← db.saveMeta
  match w.error .writeMeta with
  | some e =>
      return (some ("write meta: " ++ e),
        { db.rollback oldRoot oldFlushed with failed := true })
  | none =>
      let db := db.setPg { db.pg with file := db.file.writeAt page 0 }
      if db.syncMode = syncFull then
        match w.error .fsyncMeta with
        | some e => return (some ("fsync2: " ++ e), { db with failed := true })
        | none => return (none, db)
      if db.syncMode = syncNormal then
        match w.error .fsyncMeta with
        | some e => return (some ("fsync: " ++ e), { db with failed := true })
        | none => return (none, db)
      return (none, db)

/-- The middle part of `updateOrRevert`: the pending pages are flushed. -/
def flushAndCommit (w : World) (db : KV) (oldRoot : Ptr) (oldFlushed : UInt64) :
    Except Fault (Option String × KV) := do
  let (_, err, pg) ← db.pg.flushPages w
  let db := db.setPg pg
  match err with
  | some e =>
      return (some ("flush: " ++ e), { db.rollback oldRoot oldFlushed with failed := true })
  | none =>
      if syncNormal ≤ db.syncMode then
        match w.error .fsync with
        | some e =>
            return (some ("fsync1: " ++ e),
              { db.rollback oldRoot oldFlushed with failed := true })
        | none => db.commitMeta w oldRoot oldFlushed
      else db.commitMeta w oldRoot oldFlushed

def updateOrRevert (w : World) (db : KV) (oldRoot : Ptr) (oldFlushed : UInt64) :
    Except Fault (Option String × KV) := do
  let (err, db) ← db.recoverMeta w oldRoot oldFlushed
  match err with
  | some e => return (some e, db)
  | none => db.flushAndCommit w oldRoot oldFlushed

/-- `Set`: the error. -/
def set (fuel : Nat) (w : World) (db : KV) (key val : Bytes) :
    Except Fault (Option String × KV) := do
  let oldRoot := db.tree.root
  let oldFlushed := db.pg.flushed
  let tree ← Btree.insert treeOps fuel db.tree key val
  KV.updateOrRevert w { db with tree := tree } oldRoot oldFlushed

/-- `Del`: whether the key was there, and the error. -/
def del (fuel : Nat) (w : World) (db : KV) (key : Bytes) :
    Except Fault (Bool × Option String × KV) := do
  let oldRoot := db.tree.root
  let oldFlushed := db.pg.flushed
  let (deleted, tree) ← Btree.delete treeOps fuel db.tree key
  let db := { db with tree := tree }
  if !deleted then return (false, none, db)
  let (err, db) ← db.updateOrRevert w oldRoot oldFlushed
  return (true, err, db)

end KV

end Svacara.Kvstore
