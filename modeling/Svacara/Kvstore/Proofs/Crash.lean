/-
What a crash during a commit leaves.

A commit itself does not fault (`updateOrRevert_returns`), so a call
that faults has not written anything. Only the first `Set` on an empty
file writes at all, the leaf first and then the meta page. A crash
between the two leaves a file with a blank first page, which `Open`
refuses (`open_blank`). After that no call gets as far as its first
write, and the committed file stays.
-/
import Svacara.Kvstore.Proofs.Persist
import Svacara.Storage.Proofs.Flush

namespace Svacara.Kvstore

open Svacara.Storage Buf Outcome

variable {file : File} {key val : Bytes} {fuel : Nat} {mode : SyncMode} {ops : List Op}

-- ======================================= the commit does not fault

theorem buildMeta_returns (db : KV) (root : Ptr) (flushed : UInt64) :
    ∃ page, db.buildMeta root flushed = .ok page := by
  obtain ⟨page, hpage, -⟩ := writeMetaFull_spec ⟨root, flushed,
    db.tree.pages.free.headPage, db.tree.pages.free.headSeq,
    db.tree.pages.free.tailPage, db.tree.pages.free.tailSeq⟩
  exact ⟨page, hpage⟩

theorem commitMeta_returns (w : World) (db : KV) (oldRoot : Ptr) (oldFlushed : UInt64) :
    ∃ r, db.commitMeta w oldRoot oldFlushed = .ok r := by
  obtain ⟨page, hpage⟩ := buildMeta_returns (db.setPg db.pg.clearUpdates)
    (db.setPg db.pg.clearUpdates).tree.root (db.setPg db.pg.clearUpdates).pg.flushed
  rw [KV.commitMeta]
  dsimp only
  rw [KV.saveMeta, hpage, ok_bind]
  cases w.error .writeMeta with
  | some e => exact ⟨_, rfl⟩
  | none =>
      dsimp only
      repeat' split
      all_goals exact ⟨_, rfl⟩

/-- What a recovery leaves pending is what was. -/
theorem recoverMeta_returns (w : World) (db : KV) (oldRoot : Ptr) (oldFlushed : UInt64) :
    ∃ err db', db.recoverMeta w oldRoot oldFlushed = .ok (err, db')
      ∧ db'.pg.flushed = db.pg.flushed ∧ db'.pg.temp = db.pg.temp := by
  obtain ⟨page, hpage⟩ := buildMeta_returns db oldRoot oldFlushed
  rw [KV.recoverMeta]
  split
  · exact ⟨_, _, rfl, rfl, rfl⟩
  · rw [hpage, ok_bind]
    cases w.error .recoverMeta with
    | some e => exact ⟨_, _, rfl, rfl, rfl⟩
    | none =>
        cases w.error .recoverFsync with
        | some e => exact ⟨_, _, rfl, rfl, rfl⟩
        | none => exact ⟨_, _, rfl, rfl, rfl⟩

theorem flushAndCommit_returns (w : World) (db : KV) (oldRoot : Ptr) (oldFlushed : UInt64)
    (hsize : (db.pg.flushed.toNat + db.pg.temp.length) * pageSize < 2 ^ 62) :
    ∃ r, db.flushAndCommit w oldRoot oldFlushed = .ok r := by
  obtain ⟨n, err, pg, hflush⟩ := flushPages_returns w db.pg hsize
  rw [KV.flushAndCommit, hflush, ok_bind]
  cases err with
  | some e => exact ⟨_, rfl⟩
  | none =>
      dsimp only
      split
      · split
        · exact ⟨_, rfl⟩
        · exact commitMeta_returns ..
      · exact commitMeta_returns ..

/-- Whatever fails, a commit returns, unless the file has become too
large to map. -/
theorem updateOrRevert_returns (w : World) (db : KV) (oldRoot : Ptr) (oldFlushed : UInt64)
    (hsize : (db.pg.flushed.toNat + db.pg.temp.length) * pageSize < 2 ^ 62) :
    ∃ r, db.updateOrRevert w oldRoot oldFlushed = .ok r := by
  obtain ⟨err, db', hrecover, hflushed, htemp⟩ := recoverMeta_returns w db oldRoot oldFlushed
  rw [KV.updateOrRevert, hrecover, ok_bind]
  cases err with
  | some e => exact ⟨_, rfl⟩
  | none =>
      apply flushAndCommit_returns
      rwa [hflushed, htemp]

-- ===================================================== page writes

theorem pageWrites_page {src : Bytes} (off : Nat) (h : src.length = pageSize) :
    pageWrites (off, src) = [(off, src)] := by
  have hone : (pageSize + (pageSize - 1)) / pageSize = 1 := by decide
  unfold pageWrites
  dsimp only
  rw [h, hone]
  show [(off + 0, slice src 0 pageSize)] = _
  rw [slice_zero, ← h, List.take_length]
  rfl

/-- A call that has written nothing. -/
theorem crashed_self (file : File) (n : Nat) : crashed file file n = ⟨file.bytes, []⟩ := by
  have hnone : issued file file = [] := by
    unfold issued
    rw [List.drop_length]
    rfl
  rw [crashed, hnone, List.take_nil]
  rfl

theorem OneLeaf.forget (h : OneLeaf file key val) : OneLeaf ⟨file.bytes, []⟩ key val := h

-- ==================================================== a blank page

/-- A file whose first page is blank is refused. -/
theorem open_blank {w : World} (hw : w.Quiet) {leaf : Bytes}
    (hleaf : leaf.length = pageSize) (mode : SyncMode) :
    KV.open w ⟨make pageSize ++ leaf, []⟩ mode
      = .ok (.error "not a valid SvacaraDB file (checksum failed)") := by
  have hlen : (make pageSize).length = pageSize := length_make _
  have hblank : readMetaSafe (make pageSize) = .ok none :=
    readMetaSafe_unsigned hlen (by decide +kernel)
  have hsize : (make pageSize ++ leaf).length ≤ firstMap := by
    rw [List.length_append, hlen, hleaf]
    decide
  exact open_page hw mode rfl hlen hsize hblank

theorem not_reopens_blank {leaf : Bytes} (hleaf : leaf.length = pageSize)
    (m : Bytes → Option Bytes) : ¬ Reopens fuel ⟨make pageSize ++ leaf, []⟩ m := by
  intro h
  have hw : World.calm.Quiet := fun _ => rfl
  obtain ⟨db, hopen, -⟩ := h .calm syncOff hw
  rw [open_blank hw hleaf] at hopen
  cases hopen

/-- The two writes of the first `Set`, the leaf before the meta page. -/
theorem issued_first {page leaf : Bytes} (hpage : page.length = pageSize)
    (hleaf : leaf.length = pageSize) :
    issued ⟨[], []⟩ ⟨page ++ leaf, [(pageSize, leaf), (0, page)]⟩
      = [(pageSize, leaf), (0, page)] := by
  show pageWrites (pageSize, leaf) ++ (pageWrites (0, page) ++ []) = _
  rw [pageWrites_page _ hleaf, pageWrites_page _ hpage]
  rfl

/-- The file after the first of the two writes of the first `Set`. -/
theorem crashed_first {page leaf : Bytes} (hpage : page.length = pageSize)
    (hleaf : leaf.length = pageSize) :
    crashed ⟨[], []⟩ ⟨page ++ leaf, [(pageSize, leaf), (0, page)]⟩ 1
      = ⟨make pageSize ++ leaf, []⟩ := by
  rw [crashed, issued_first hpage hleaf]
  show (⟨overwrite [] pageSize leaf, []⟩ : File) = _
  rw [overwrite_empty]

/-- A crash in the first `Set`, between its two writes. -/
theorem crashFile_first {w : World} (hw : w.Quiet) (hk : key.length = 13)
    (hv : val.length ≤ 1000) (fuel : Nat) (mode : SyncMode) :
    ∃ leaf, leaf.length = pageSize
      ∧ CrashFile fuel (fresh mode) (.set w key val) ⟨make pageSize ++ leaf, []⟩ := by
  obtain ⟨page, leaf, hpage, hleaf, -, hstep⟩ := set_fresh hw hk hv fuel mode
  refine ⟨leaf, hleaf, ?_⟩
  have hfile : crashed (fresh mode).file (single ⟨page ++ leaf,
      [(pageSize, leaf), (0, page)]⟩ mode).file 1 = ⟨make pageSize ++ leaf, []⟩ :=
    crashed_first hpage hleaf
  rw [← hfile]
  exact .during none _ 1 hstep

theorem not_crashAtomic_fresh {w : World} (hw : w.Quiet) (hk : key.length = 13)
    (hv : val.length ≤ 1000) (fuel : Nat) (mode : SyncMode) (ops : List Op) :
    ¬ CrashAtomic fuel ops (fresh mode) (.set w key val) := by
  intro hatomic
  obtain ⟨leaf, hleaf, hcrash⟩ := crashFile_first hw hk hv fuel mode
  rcases hatomic _ hcrash with h | h
  · exact not_reopens_blank hleaf _ h
  · exact not_reopens_blank hleaf _ h

-- ================================================= crash atomicity

/-- From a state that the calls have reached, a call survives every crash
if and only if it is a `Del` or there has been a `Set` before it. -/
theorem crashAtomic_iff (fuel : Nat) (hfuel : 0 < fuel) (mode : SyncMode) (ops : List Op)
    (hrows : ∀ op ∈ ops, op.IsRow) (db : KV) (hreach : Reaches fuel mode ops db)
    (op : Op) (hop : op.IsRow) :
    CrashAtomic fuel ops db op ↔ op.isSet = false ∨ ops.any Op.isSet = true := by
  cases (hreach.state hfuel hrows).1 with
  | fresh hset hmap =>
      rw [hset]
      cases op with
      | set w k v =>
          obtain ⟨hw, hk, hv⟩ := hop
          have hnot := not_crashAtomic_fresh hw hk hv fuel mode ops
          exact iff_of_false hnot (by simp [Op.isSet])
      | del w k =>
          refine iff_of_true (fun file hcrash => Or.inl ?_) (Or.inl rfl)
          rw [hmap]
          cases hcrash with
          | before => exact reopens_empty fuel
          | during err db' n hstep =>
              cases hstep
              rw [crashed_self]
              exact reopens_empty fuel
  | single file key val hfile hset hmap =>
      refine iff_of_true (fun file' hcrash => Or.inl ?_) (Or.inr hset)
      rw [hmap]
      cases hcrash with
      | before => exact reopens_single hfile.forget hfuel
      | during err db' n hstep =>
          rw [step_single hfile hfuel] at hstep
          split at hstep
          · cases hstep
            rw [crashed_self]
            exact reopens_single hfile.forget hfuel
          · cases hstep

/-- A `Set` on a store that has one key already: it faults before its
first write, and the file opens as it was. -/
theorem crashAtomic_iff_second_set :
    ∃ db, Reaches 1 syncFull [.set .calm (make 13) [1]] db
      ∧ (CrashAtomic 1 [.set .calm (make 13) [1]] db (.set .calm (1 :: make 12) [2])
        ↔ (Op.set .calm (1 :: make 12) [2]).isSet = false
          ∨ [Op.set .calm (make 13) [1]].any Op.isSet = true)
      ∧ [Op.set .calm (make 13) [1]].any Op.isSet = true := by
  have hw : World.calm.Quiet := fun _ => rfl
  have hrows : ∀ op ∈ [Op.set .calm (make 13) [1]], op.IsRow := by
    intro op hop
    rw [List.mem_singleton.mp hop]
    exact ⟨hw, rfl, by decide⟩
  have hrun := run_fresh Nat.one_pos syncFull [.set .calm (make 13) [1]] hrows
  rcases hrun with ⟨-, db, hrun, -⟩ | ⟨hnot, -⟩
  · have hreach : Reaches 1 syncFull [.set .calm (make 13) [1]] db :=
      ⟨fresh syncFull, _, open_empty hw syncFull, hrun, by decide⟩
    exact ⟨db, hreach, crashAtomic_iff 1 Nat.one_pos syncFull _ hrows db hreach _
      ⟨hw, rfl, by decide⟩, rfl⟩
  · cases hnot

/-- The first `Set` on an empty file, cut off before the meta page: the
file does not open any more. -/
theorem first_set_not_crashAtomic :
    Reaches 1 syncFull [] (fresh syncFull)
      ∧ (∃ file, CrashFile 1 (fresh syncFull) (.set .calm (make 13) [1]) file
        ∧ ∀ mode, KV.open .calm file mode
          = .ok (.error "not a valid SvacaraDB file (checksum failed)"))
      ∧ ¬ CrashAtomic 1 [] (fresh syncFull) (.set .calm (make 13) [1]) := by
  have hw : World.calm.Quiet := fun _ => rfl
  have hv : [(1 : UInt8)].length ≤ 1000 := by decide
  obtain ⟨leaf, hleaf, hcrash⟩ := crashFile_first hw (length_make 13) hv 1 syncFull
  refine ⟨⟨fresh syncFull, [], open_empty hw syncFull, rfl, ?_⟩,
    ⟨_, hcrash, open_blank hw hleaf⟩,
    not_crashAtomic_fresh hw (length_make 13) hv 1 syncFull []⟩
  exact fun e he => absurd he List.not_mem_nil

end Svacara.Kvstore
