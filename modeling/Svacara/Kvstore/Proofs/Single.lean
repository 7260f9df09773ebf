/-
The states of a store that has written at most once.

On an empty file the store is `fresh`. The first `Set` appends one leaf
and commits, and leaves a file with a meta page and that leaf
(`OneLeaf`); the store is then `single`, and so is any store opened on
such a file. From there on nothing can be written: the old root has to
go to the free list, whose first page is allocated and then fetched
through the mapping, behind the end of the file (`delPage_single`).
-/
import Svacara.Btree.Proofs.Absent
import Svacara.Btree.Proofs.Delete
import Svacara.Kvstore.Run
import Svacara.Storage.Proofs.Meta

namespace Svacara.Kvstore

open Svacara.Storage Buf Outcome

-- ================================================= pages of a file

/-- A page that the file has. -/
theorem page_mid {f : File} {a m c : Bytes} {off : Nat} (hf : f.bytes = a ++ (m ++ c))
    (hoff : off = a.length) (hm : m.length = pageSize) : f.page off = .ok m := by
  have hpos : 0 < pageSize := by decide
  have hslice : slice f.bytes off pageSize = m := by
    rw [hf]
    exact slice_mid a m c hoff hm.symm
  have hlt : off < f.bytes.length := by
    rw [hf, List.length_append, List.length_append, hm]
    omega
  rw [File.page, if_pos hlt, hslice, hm, Nat.sub_self]
  exact congrArg Except.ok (List.append_nil m)

theorem page_past {f : File} {off : Nat} (h : f.bytes.length ≤ off) :
    f.page off = .error .pastEof :=
  if_neg (Nat.not_lt.mpr h)

/-- The length of the first mapping. -/
def firstMap : Nat := maxChunkMB * 2 ^ 20

/-- Reading through the first mapping. -/
theorem read_firstMap {pm : PageMgr} (hchunks : pm.chunks = [⟨0, firstMap⟩]) {ptr : Ptr}
    (hupd : pm.updates.lookup ptr = none) (hptr : ptr.toNat < firstMap / pageSize) :
    pm.read ptr = pm.file.page (pageSize * ptr.toNat) := by
  rw [PageMgr.read, hupd, hchunks]
  show (if ptr.toNat < 0 + firstMap / pageSize then _ else _) = _
  rw [if_pos (by rw [Nat.zero_add]; exact hptr), Nat.zero_add, Nat.sub_zero]

/-- A page manager with its first mapping. -/
def mapFirst (pm : PageMgr) : PageMgr :=
  { pm with total := firstMap, chunks := [⟨0, firstMap⟩] }

theorem extendMMap_first {w : World} (hw : w.Quiet) {pm : PageMgr} (htotal : pm.total = 0)
    (hchunks : pm.chunks = []) {size : Nat} (hpos : 0 < size) (hsize : size ≤ firstMap) :
    pm.extendMMap w size = .ok (none, mapFirst pm) := by
  have hgrow : PageMgr.growAlloc 0 size 64 firstMap = .ok firstMap := by
    rw [PageMgr.growAlloc, if_neg (by rw [Nat.zero_add]; exact Nat.not_lt.mpr hsize)]
  rw [PageMgr.extendMMap, htotal, if_neg (Nat.not_le.mpr hpos), if_pos (by decide)]
  show (PageMgr.growAlloc 0 size 64 firstMap >>= _) = _
  rw [hgrow, ok_bind, hw, Nat.zero_add, hchunks]
  rfl

-- ====================================================== the states

/-- The store on an empty file. -/
def fresh (mode : SyncMode) : KV :=
  .ofPages 0 .zero ((newPageMgr ⟨[], []⟩).resetTo 1) mode

/-- The page manager over a file of a meta page and one page. -/
def singlePg (file : File) : PageMgr where
  file := file
  total := firstMap
  chunks := [⟨0, firstMap⟩]
  flushed := 2
  temp := []
  updates := ∅

/-- The store with one leaf, at page 1. -/
def single (file : File) (mode : SyncMode) : KV := .ofPages 1 .zero (singlePg file) mode

/-- What the meta page says then. -/
def singleMeta : Meta := ⟨1, 2, 0, 0, 0, 0⟩

/-- A file with a meta page and a leaf with one pair. -/
def OneLeaf (file : File) (key val : Bytes) : Prop :=
  ∃ page leaf, file.bytes = page ++ leaf ∧ page.length = pageSize
    ∧ leaf.length = pageSize ∧ readMetaSafe page = .ok (some singleMeta)
    ∧ Btree.Encodes leaf Btree.bnodeLeaf (Btree.entries 0 [(key, val)])

variable {file : File} {key val : Bytes} {w : World} {fuel : Nat}

theorem OneLeaf.length (h : OneLeaf file key val) : file.bytes.length = 2 * pageSize := by
  obtain ⟨page, leaf, hbytes, hpage, hleaf, -⟩ := h
  rw [hbytes, List.length_append, hpage, hleaf]
  rfl

theorem OneLeaf.read_root (h : OneLeaf file key val) :
    ∃ leaf, (singlePg file).read 1 = .ok leaf
      ∧ Btree.Encodes leaf Btree.bnodeLeaf (Btree.entries 0 [(key, val)])
      ∧ leaf.length = pageSize := by
  obtain ⟨page, leaf, hbytes, hpage, hleaf, -, henc⟩ := h
  refine ⟨leaf, ?_, henc, hleaf⟩
  have hsplit : file.bytes = page ++ (leaf ++ []) := by rw [List.append_nil, hbytes]
  have hoff : pageSize * (1 : Ptr).toNat = page.length := by
    rw [hpage]
    rfl
  rw [read_firstMap rfl rfl (by decide)]
  exact page_mid hsplit hoff hleaf

theorem root_single (file : File) (mode : SyncMode) : (single file mode).tree.root ≠ 0 :=
  show (1 : Ptr) ≠ 0 by decide

theorem sorted_single (kv : Bytes × Bytes) : SortedMap.Sorted [kv] :=
  List.pairwise_singleton ..

/-- A store with one leaf shows its pair and nothing else. -/
theorem shows_single (h : OneLeaf file key val) (hfuel : 0 < fuel) (mode : SyncMode) :
    Shows fuel (single file mode) (Function.update (fun _ => none) key (some val)) := by
  intro k
  obtain ⟨leaf, hread, henc, -⟩ := h.read_root
  have hleaf : Btree.SearchNode (fun _ => none) 0 leaf [(key, val)] :=
    .of_leaf henc (List.cons_ne_nil _ _)
  have hget : (single file mode).get fuel k = .ok (List.lookup k [(key, val)]) := by
    unfold KV.get Btree.get
    rw [if_neg (root_single file mode)]
    show ((singlePg file).read 1 >>= _) = _
    rw [hread]
    exact hleaf.getLoop (fun _ _ hpage => by cases hpage) k (sorted_single _) fuel hfuel
  rw [hget, Function.update_apply]
  by_cases hk : k = key
  · rw [if_pos hk, hk, List.lookup_cons_self]
  · rw [if_neg hk, List.lookup_cons, beq_eq_false_iff_ne.mpr hk]
    rfl

-- ================================================= what is refused

/-- The first page given to the free list faults. -/
theorem delPage_single (h : OneLeaf file key val) (ptr : Ptr) :
    delPage ⟨.zero, singlePg file⟩ ptr = .error .pastEof := by
  obtain ⟨data, hdata⟩ : ∃ data, Btree.LNode.setNext (make Btree.btreePageSize) 0 = .ok data :=
    ⟨_, Btree.putUintAt_of (by rw [length_make]; decide)⟩
  -- the new page is number 2, pending in `temp`
  let pg : PageMgr := { singlePg file with temp := [data] }
  have htail : Btree.ensureTail freeOps (singlePg file) .zero = .ok (⟨2, 0, 2, 0, 0⟩, pg) := by
    unfold Btree.ensureTail Btree.newTail
    rw [hdata]
    rfl
  have hread : pg.read 2 = .error .pastEof := by
    rw [read_firstMap rfl rfl (by decide)]
    apply page_past
    show file.bytes.length ≤ _
    rw [h.length]
    decide
  have hwrite : pg.write 2 = .error .pastEof := by
    show (pg.read 2 >>= _) = _
    rw [hread]
    rfl
  unfold delPage Btree.pushTail
  rw [htail]
  show ((pg.write 2 >>= _) >>= _) = _
  rw [hwrite]
  rfl

theorem set_single (h : OneLeaf file key val) (fuel : Nat) (w : World) (mode : SyncMode)
    (key' val' : Bytes) :
    (single file mode).set fuel w key' val' = .error .pastEof := by
  obtain ⟨leaf, hread, -⟩ := h.read_root
  have hinsert : Btree.insert treeOps fuel (single file mode).tree key' val'
      = .error .pastEof := by
    rw [Btree.insert, if_neg (root_single file mode)]
    show ((singlePg file).read 1 >>= _) = _
    rw [hread, ok_bind]
    show (delPage ⟨.zero, singlePg file⟩ 1 >>= _) = _
    rw [delPage_single h]
    rfl
  rw [KV.set, hinsert]
  rfl

/-- `treeDelete` on the root leaf. -/
theorem treeDelete_single {leaf : Bytes}
    (henc : Btree.Encodes leaf Btree.bnodeLeaf (Btree.entries 0 [(key, val)]))
    (hlen : leaf.length = pageSize) (hfuel : 0 < fuel) (s : Pager) (k : Bytes) :
    ∃ found, Btree.treeDelete treeOps fuel s leaf k = .ok (found, s)
      ∧ (found = none ↔ k ≠ key) := by
  obtain ⟨fuel, rfl⟩ := exists_fuel hfuel
  -- no page is live, and a leaf needs none
  let live : Pager → Ptr → Option Btree.BNode := fun _ _ => none
  have hfit := henc.nodeSize_le
  rw [hlen] at hfit
  have hsub : Btree.Subtree (live s) (live s) Btree.RowPage 0 [(key, val)] :=
    ⟨Heap.owned_nil _, trivial, trivial, sorted_single _⟩
  obtain ⟨found, hdel, hres⟩ := Btree.treeDelete_leaf treeOps fuel s k henc
    ⟨List.cons_ne_nil _ _, hfit⟩ hsub
  refine ⟨found, hdel, ?_⟩
  have hflat : Btree.flat 0 [(key, val)] = [(key, val)] := rfl
  cases found with
  | none =>
      refine iff_of_true rfl fun hk => ?_
      have hlook := hres.2
      rw [hflat, hk, List.lookup_cons_self] at hlook
      cases hlook
  | some new =>
      refine iff_of_false (Option.some_ne_none _) fun hk => ?_
      have hlook := hres.1
      rw [hflat, List.lookup_cons, beq_eq_false_iff_ne.mpr hk] at hlook
      exact hlook rfl

/-- The deletion of a key that is not there changes nothing: there is
nothing to commit and nothing to revert. -/
theorem del_absent {db : KV} {m : Ptr → Option Btree.BNode} {h : Nat}
    {kvs : List (Bytes × Bytes)} (hread : ∀ p n, m p = some n → db.pg.read p = .ok n)
    (ht : Btree.SearchTreeAt m db.tree.root h kvs) (hfuel : h < fuel) (w : World)
    {other : Bytes} (hk : kvs.lookup other = none) :
    db.del fuel w other = .ok (false, none, db) := by
  obtain ⟨habsent, -⟩ := Btree.SearchTreeAt.delete treeOps db.tree hread ht other hfuel
  rw [KV.del, habsent hk]
  rfl

theorem del_single_other (h : OneLeaf file key val) (hfuel : 0 < fuel) (w : World)
    (mode : SyncMode) {other : Bytes} (hne : other ≠ key) :
    (single file mode).del fuel w other = .ok (false, none, single file mode) := by
  obtain ⟨leaf, hread, henc, -⟩ := h.read_root
  have hpage : ∀ p n, Function.update (fun _ => none) 1 (some leaf) p = some n →
      (single file mode).pg.read p = .ok n := by
    intro p n hn
    by_cases hp : p = 1
    · rw [hp, Function.update_self] at hn
      cases hn
      rw [hp]
      exact hread
    · rw [Function.update_of_ne hp] at hn
      cases hn
  refine del_absent (h := 0) hpage (.tree (root_single file mode) leaf ?_
    (.of_leaf henc (List.cons_ne_nil _ _)) (sorted_single _)) hfuel w ?_
  · exact Function.update_self ..
  · rw [List.lookup_cons, beq_eq_false_iff_ne.mpr hne]
    rfl

/-- The deletion of the key that is there faults. -/
theorem del_single_self (h : OneLeaf file key val) (hfuel : 0 < fuel) (w : World)
    (mode : SyncMode) : (single file mode).del fuel w key = .error .pastEof := by
  obtain ⟨leaf, hread, henc, hlen⟩ := h.read_root
  obtain ⟨found, htree, hnone⟩ := treeDelete_single henc hlen hfuel
    (single file mode).tree.pages key
  obtain ⟨new, rfl⟩ := Option.ne_none_iff_exists'.mp (mt hnone.mp (not_not.mpr rfl))
  have hdelete : Btree.delete treeOps fuel (single file mode).tree key = .error .pastEof := by
    rw [Btree.delete, if_neg (root_single file mode)]
    show ((singlePg file).read 1 >>= _) = _
    rw [hread, ok_bind, htree, ok_bind]
    show (delPage ⟨.zero, singlePg file⟩ 1 >>= _) = _
    rw [delPage_single h]
    rfl
  rw [KV.del, hdelete]
  rfl

-- ================================================== opening a file

theorem open_empty (hw : w.Quiet) (mode : SyncMode) :
    KV.open w ⟨[], []⟩ mode = .ok (.ok (fresh mode)) := by
  rw [KV.open, hw, hw]
  rfl

/-- What `Open` makes of the meta page. -/
def opened (file : File) (mode : SyncMode) : Option Meta → Except String KV
  | none => .error "not a valid SvacaraDB file (checksum failed)"
  | some d => .ok (.ofPages d.root ⟨d.headPage, d.headSeq, d.tailPage, d.tailSeq, 0⟩
      { singlePg file with flushed := d.flushed } mode)

/-- Opening a file that is not empty is a matter of its first page. -/
theorem open_page {page rest : Bytes} (hw : w.Quiet) (mode : SyncMode)
    (hbytes : file.bytes = page ++ rest) (hpage : page.length = pageSize)
    (hsize : file.bytes.length ≤ firstMap) {found : Option Meta}
    (hmeta : readMetaSafe page = .ok found) :
    KV.open w file mode = .ok (opened file mode found) := by
  have hpos : 0 < file.bytes.length := by
    rw [hbytes, List.length_append, hpage]
    exact Nat.add_pos_left (by decide) _
  have hread : (mapFirst (newPageMgr file)).read 0 = .ok page := by
    rw [read_firstMap rfl rfl (by decide)]
    exact page_mid (a := []) hbytes rfl hpage
  rw [KV.open, hw, hw]
  dsimp only
  rw [if_neg (Nat.ne_of_gt hpos), KV.openFile, extendMMap_first hw rfl rfl hpos hsize, ok_bind]
  show ((mapFirst (newPageMgr file)).read 0 >>= _) = _
  rw [hread, ok_bind, hmeta, ok_bind]
  cases found <;> rfl

theorem open_single (h : OneLeaf file key val) (hw : w.Quiet) (mode : SyncMode) :
    KV.open w file mode = .ok (.ok (single file mode)) := by
  have hlen := h.length
  obtain ⟨page, leaf, hbytes, hpage, -, hmeta, -⟩ := h
  rw [open_page hw mode hbytes hpage (by rw [hlen]; decide) hmeta]
  rfl

-- =================================================== the first Set

theorem overwrite_empty {src : Bytes} (off : Nat) :
    overwrite [] off src = make off ++ src := by
  have hlen : (make off).length = off := length_make off
  have hblank : make (off + src.length) = make off ++ make src.length :=
    List.replicate_add ..
  rw [overwrite, List.nil_append, List.length_nil, Nat.sub_zero, splice, hblank,
    List.take_left' hlen, List.append_assoc, ← List.append_assoc,
    List.drop_eq_nil_of_le (by simp), List.append_nil]

theorem overwrite_front {a b src : Bytes} (h : src.length = a.length) :
    overwrite (a ++ b) 0 src = src ++ b := by
  have hnone : 0 + src.length - (a ++ b).length = 0 := by
    rw [List.length_append]
    omega
  rw [overwrite, hnone, splice, List.take_zero, List.nil_append, Nat.zero_add, h]
  show src ++ ((a ++ b) ++ []).drop a.length = _
  rw [List.append_nil, List.drop_left]

/-- The page manager on an empty file, with one pending page. -/
def pendingPg (leaf : Bytes) : PageMgr :=
  { (newPageMgr ⟨[], []⟩).resetTo 1 with temp := [leaf] }

/-- The pending page goes behind the place of the meta page. -/
theorem flushPages_pending (hw : w.Quiet) (leaf : Bytes) :
    (pendingPg leaf).flushPages w
      = .ok (1, none, singlePg ⟨make pageSize ++ leaf, [(pageSize, leaf)]⟩) := by
  have hmap : (pendingPg leaf).extendMMap w (2 * pageSize)
      = .ok (none, mapFirst (pendingPg leaf)) :=
    extendMMap_first hw rfl rfl (by decide) (by decide)
  have hnone : w.visit.order [] = [] := List.perm_nil.mp (w.visit.perm [])
  have htemp : PageMgr.flushTemp w (mapFirst (pendingPg leaf)) 0
      = (1, none, singlePg ⟨make pageSize ++ leaf, [(pageSize, leaf)]⟩) := by
    have hpending : 0 < (mapFirst (pendingPg leaf)).temp.length := Nat.one_pos
    have hoff : (mapFirst (pendingPg leaf)).flushed.toNat * pageSize = pageSize :=
      Nat.one_mul pageSize
    have hbuf : (mapFirst (pendingPg leaf)).temp.flatten = leaf := List.flatten_singleton
    rw [PageMgr.flushTemp, if_pos hpending, hw, hoff, hbuf, File.writeAt]
    show (1, none, singlePg ⟨overwrite [] pageSize leaf, [(pageSize, leaf)]⟩) = _
    rw [overwrite_empty]
  rw [PageMgr.flushPages, if_neg (fun h => absurd h.1 Nat.one_ne_zero)]
  show ((pendingPg leaf).extendMMap w (2 * pageSize) >>= _) = _
  have hupdates : PageMgr.flushUpdates w
      (w.visit.order (mapFirst (pendingPg leaf)).updates.entries) 0
      (mapFirst (pendingPg leaf)).file = (0, none, ⟨[], []⟩) := by
    show PageMgr.flushUpdates w (w.visit.order []) 0 ⟨[], []⟩ = _
    rw [hnone]
    rfl
  rw [hmap, ok_bind]
  dsimp only
  rw [hupdates]
  show Except.ok (PageMgr.flushTemp w (mapFirst (pendingPg leaf)) 0) = _
  rw [htemp]

/-- The commit, when nothing fails, is a write of the meta page. -/
theorem commitMeta_quiet (hw : w.Quiet) (db : KV) (oldRoot : Ptr) (oldFlushed : UInt64)
    {page : Bytes} (hpage : (db.setPg db.pg.clearUpdates).saveMeta = .ok page) :
    db.commitMeta w oldRoot oldFlushed = .ok (none,
      db.setPg { db.pg.clearUpdates with file := db.file.writeAt page 0 }) := by
  rw [KV.commitMeta]
  dsimp only
  rw [hpage, ok_bind, hw, hw]
  dsimp only
  split
  · rfl
  · split <;> rfl

/-- `updateOrRevert`, when nothing fails or has failed, is a flush and a
commit. -/
theorem updateOrRevert_quiet (hw : w.Quiet) (db : KV) (hfailed : db.failed = false)
    (oldRoot : Ptr) (oldFlushed : UInt64) {n : Nat} {pg : PageMgr}
    (hflush : db.pg.flushPages w = .ok (n, none, pg)) :
    db.updateOrRevert w oldRoot oldFlushed
      = (db.setPg pg).commitMeta w oldRoot oldFlushed := by
  have hrecover : db.recoverMeta w oldRoot oldFlushed = .ok (none, db) := by
    rw [KV.recoverMeta, hfailed]
    rfl
  rw [KV.updateOrRevert, hrecover, ok_bind]
  dsimp only
  rw [KV.flushAndCommit, hflush, ok_bind]
  dsimp only
  rw [hw]
  dsimp only
  rw [ite_self]

/-- The first `Set` writes a leaf to page 1 and then the meta page. -/
theorem set_fresh (hw : w.Quiet) (hk : key.length = 13) (hv : val.length ≤ 1000)
    (fuel : Nat) (mode : SyncMode) :
    ∃ page leaf, page.length = pageSize ∧ leaf.length = pageSize
      ∧ OneLeaf ⟨page ++ leaf, [(pageSize, leaf), (0, page)]⟩ key val
      ∧ (fresh mode).set fuel w key val
        = .ok (none, single ⟨page ++ leaf, [(pageSize, leaf), (0, page)]⟩ mode) := by
  obtain ⟨b₀, leaf, hb₀, hleaf, henc, hlen⟩ := Btree.firstLeaf_fits key val
    (Btree.pairSize_row hk hv)
  obtain ⟨page, hmeta, hpage, hread⟩ := writeMetaFull_spec singleMeta
  refine ⟨page, leaf, hpage, hlen, ⟨page, leaf, rfl, hpage, hlen, hread, henc⟩, ?_⟩
  have hinsert : Btree.insert treeOps fuel (fresh mode).tree key val
      = .ok ⟨1, ⟨.zero, pendingPg leaf⟩⟩ := by
    have hroot : (fresh mode).tree.root = 0 := rfl
    rw [Btree.insert, if_pos hroot, hb₀, ok_bind, hleaf, ok_bind]
    rfl
  let db : KV := .ofPages 1 .zero (singlePg ⟨make pageSize ++ leaf, [(pageSize, leaf)]⟩) mode
  have hcommit : db.commitMeta w 0 1
      = .ok (none, single ⟨page ++ leaf, [(pageSize, leaf), (0, page)]⟩ mode) := by
    rw [commitMeta_quiet hw db 0 1 hmeta]
    show Except.ok (none, single ⟨overwrite (make pageSize ++ leaf) 0 page,
      [(pageSize, leaf), (0, page)]⟩ mode) = _
    rw [overwrite_front (by rw [hpage, length_make])]
  let pending : KV := .ofPages 1 .zero (pendingPg leaf) mode
  have hset : (fresh mode).set fuel w key val = pending.updateOrRevert w 0 1 := by
    rw [KV.set, hinsert, ok_bind]
    rfl
  rw [hset, updateOrRevert_quiet hw pending rfl 0 1 (flushPages_pending hw leaf)]
  exact hcommit

theorem shows_fresh (fuel : Nat) (mode : SyncMode) : Shows fuel (fresh mode) fun _ => none :=
  fun _ => rfl

end Svacara.Kvstore
