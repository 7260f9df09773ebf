/-
Sequences of `Set` and `Del` on one store, the map they are meant to
leave, what a crash leaves of the file, what becomes of the file over
many sessions, and what an error leaves of the store.

A call is made in a `World`. The map is said without the store:
`contents` executes the calls on a function. A crash keeps the page
writes made up to it, in program order and each one whole; a `WriteAt`
of several pages is that many page writes.
-/
import Svacara.Kvstore.Kv
import Mathlib.Logic.Function.Basic
import Mathlib.Logic.Relation

namespace Svacara.Kvstore

open Svacara.Storage Buf

/-- A call of `Set` or `Del`. -/
inductive Op where
  | set (w : World) (key val : Bytes)
  | del (w : World) (key : Bytes)

/-- A call without errors, with a 13-byte key and a value of at most 1000
bytes. -/
def Op.IsRow : Op → Prop
  | .set w key val => w.Quiet ∧ key.length = 13 ∧ val.length ≤ 1000
  | .del w key => w.Quiet ∧ key.length = 13

def Op.isSet : Op → Bool
  | .set _ _ _ => true
  | .del _ _ => false

-- ========================================================= the map

def Op.apply (m : Bytes → Option Bytes) : Op → Bytes → Option Bytes
  | .set _ key val => Function.update m key (some val)
  | .del _ key => Function.update m key none

/-- The map after the calls, from the empty one. -/
def contents (ops : List Op) : Bytes → Option Bytes := ops.foldl Op.apply fun _ => none

/-- `Get` returns what the map has, for every key. -/
def Shows (fuel : Nat) (db : KV) (m : Bytes → Option Bytes) : Prop :=
  ∀ k, db.get fuel k = .ok (m k)

-- ============================================================ runs

/-- One call: its error, and the store afterwards. -/
def step (fuel : Nat) (db : KV) : Op → Except Fault (Option String × KV)
  | .set w key val => db.set fuel w key val
  | .del w key => do
      let (_, err, db) ← db.del fuel w key
      return (err, db)

def run (fuel : Nat) : KV → List Op → Except Fault (List (Option String) × KV)
  | db, [] => .ok ([], db)
  | db, op :: ops => do
      let (err, db) ← step fuel db op
      let (errs, db) ← run fuel db ops
      return (err :: errs, db)

/-- The calls return one after another, none with an error, on a store
opened on an empty file. -/
def Reaches (fuel : Nat) (mode : SyncMode) (ops : List Op) (db : KV) : Prop :=
  ∃ db₀ errs, KV.open .calm ⟨[], []⟩ mode = .ok (.ok db₀)
    ∧ run fuel db₀ ops = .ok (errs, db) ∧ ∀ e ∈ errs, e = none

/-- Opening the file gives a store that shows the map. -/
def Reopens (fuel : Nat) (file : File) (m : Bytes → Option Bytes) : Prop :=
  ∀ (w : World) (mode : SyncMode), w.Quiet →
    ∃ db, KV.open w file mode = .ok (.ok db) ∧ Shows fuel db m

/-- All calls return, and the map is there, at once and after `Close` and
`Open`. -/
def Persists (fuel : Nat) (mode : SyncMode) (ops : List Op) : Prop :=
  ∃ db, Reaches fuel mode ops db ∧ Shows fuel db (contents ops)
    ∧ Reopens fuel db.close (contents ops)

/-- The call deletes another key than this one. -/
def Op.spares (key : Bytes) : Op → Bool
  | .set _ _ _ => false
  | .del _ other => other ≠ key

/-- After the first `Set` there are only deletions of other keys. -/
def oneSet : List Op → Bool
  | [] => true
  | .del _ _ :: ops => oneSet ops
  | .set _ key _ :: ops => ops.all (Op.spares key)

-- ========================================================= crashes

/-- The pages of a `WriteAt`. -/
def pageWrites (write : Nat × Bytes) : List (Nat × Bytes) :=
  (List.range ((write.2.length + (pageSize - 1)) / pageSize)).map fun i =>
    (write.1 + pageSize * i, slice write.2 (pageSize * i) pageSize)

/-- The page writes that turned the one file into the other. -/
def issued (before after : File) : List (Nat × Bytes) :=
  (after.writes.drop before.writes.length).flatMap pageWrites

/-- The file after a crash behind the first `n` of the page writes. -/
def crashed (before after : File) (n : Nat) : File where
  bytes := ((issued before after).take n).foldl (fun f w => overwrite f w.1 w.2) before.bytes
  writes := []

/-- The files a crash in the call may leave. A fault ends the call before
its first write. -/
inductive CrashFile (fuel : Nat) (db : KV) (op : Op) : File → Prop where
  | before : CrashFile fuel db op ⟨db.file.bytes, []⟩
  | during (err : Option String) (db' : KV) (n : Nat)
      (hstep : step fuel db op = .ok (err, db')) :
      CrashFile fuel db op (crashed db.file db'.file n)

/-- Whatever a crash leaves opens as the map before the call or as the
map after it. -/
def CrashAtomic (fuel : Nat) (ops : List Op) (db : KV) (op : Op) : Prop :=
  ∀ file, CrashFile fuel db op file →
    Reopens fuel file (contents ops) ∨ Reopens fuel file (contents (ops ++ [op]))

-- ======================================================== sessions

/-- The file a process leaves: it has closed the store, or it dies in a
further call. -/
inductive LeftFile (fuel : Nat) (db : KV) : File → Prop where
  | closed : LeftFile fuel db db.close
  | died (op : Op) (hop : op.IsRow) (file : File) (hcrash : CrashFile fuel db op file) :
      LeftFile fuel db file

/-- What one process makes of the file. A call that faults ends it, too. -/
inductive Session (fuel : Nat) (file : File) : File → Prop where
  | refused (w : World) (hw : w.Quiet) (mode : SyncMode) (e : String)
      (hopen : KV.open w file mode = .ok (.error e)) : Session fuel file file
  | ended (w : World) (hw : w.Quiet) (mode : SyncMode) (ops : List Op) (db₀ db : KV)
      (errs : List (Option String)) (hrows : ∀ op ∈ ops, op.IsRow)
      (hopen : KV.open w file mode = .ok (.ok db₀)) (hrun : run fuel db₀ ops = .ok (errs, db))
      (file' : File) (hleft : LeftFile fuel db file') : Session fuel file file'

/-- One process after another. -/
def Sessions (fuel : Nat) : File → File → Prop := Relation.ReflTransGen (Session fuel)

-- ========================================================== errors

/-- The steps of `updateOrRevert` that may fail, apart from the recovery
after an earlier failure. -/
inductive Stage where
  | flush
  | fsync
  | writeMeta
  | fsyncMeta
  deriving DecidableEq

/-- The step that makes an operating system call. -/
def SysCall.stage : SysCall → Option Stage
  | .mmap | .writePage _ | .writeTemp => some .flush
  | .fsync => some .fsync
  | .writeMeta => some .writeMeta
  | .fsyncMeta => some .fsyncMeta
  | .openFile | .stat | .recoverMeta | .recoverFsync => none

/-- Only this step reports an error. -/
def FailsOnly (w : World) (st : Stage) : Prop :=
  ∀ c, w.error c ≠ none → SysCall.stage c = some st

def Op.world : Op → World
  | .set w _ _ => w
  | .del w _ => w

/-- The store that a call hands to `updateOrRevert`. -/
inductive Commits (fuel : Nat) (db : KV) : Op → KV → Prop where
  | set {w : World} {key val : Bytes} {tree : Btree.BTree Pager}
      (htree : Btree.insert treeOps fuel db.tree key val = .ok tree) :
      Commits fuel db (.set w key val) { db with tree := tree }
  | del {w : World} {key : Bytes} {tree : Btree.BTree Pager}
      (htree : Btree.delete treeOps fuel db.tree key = .ok (true, tree)) :
      Commits fuel db (.del w key) { db with tree := tree }

/-- The operating system calls of the steps of `updateOrRevert`, as long as
none before it fails. -/
def KV.Makes (db : KV) : SysCall → Prop
  | .mmap => (db.pg.temp ≠ [] ∨ db.pg.updates ≠ ∅)
      ∧ db.pg.total < (db.pg.flushed.toNat + db.pg.temp.length) * pageSize
  | .writePage ptr => ptr ∈ db.pg.updates
  | .writeTemp => db.pg.temp ≠ []
  | .fsync => syncNormal ≤ db.syncMode
  | .writeMeta => True
  | .fsyncMeta => db.syncMode = syncNormal ∨ db.syncMode = syncFull
  | .openFile | .stat | .recoverMeta | .recoverFsync => False

/-- Nothing is pending. -/
def Idle (db : KV) : Prop := db.pg.temp = [] ∧ db.pg.updates = ∅

/-- The tree, the free list and the pending pages are what they were. -/
structure Restored (db db' : KV) : Prop where
  root : db'.tree.root = db.tree.root
  flushed : db'.pg.flushed = db.pg.flushed
  headPage : db'.tree.pages.free.headPage = db.tree.pages.free.headPage
  headSeq : db'.tree.pages.free.headSeq = db.tree.pages.free.headSeq
  tailPage : db'.tree.pages.free.tailPage = db.tree.pages.free.tailPage
  tailSeq : db'.tree.pages.free.tailSeq = db.tree.pages.free.tailSeq
  temp : db'.pg.temp = db.pg.temp
  updates : db'.pg.updates = db.pg.updates

end Svacara.Kvstore
