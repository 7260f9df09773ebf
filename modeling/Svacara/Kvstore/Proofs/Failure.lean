/-
What is left of a store after a write that failed.

`updateOrRevert` puts back the root and the page manager, unless it is
the last `fsync` that fails, and it never puts back the free list. Every
operation on a tree that is not empty frees the root, so it moves the
tail of the free list (`Traffic.tailSeq`), and a `Set` on an empty tree
moves its head if there is one (`popHead_headSeq`). What is left is the
`Set` on an empty tree with an empty free list: `restored_iff`. That an
error is returned at all, whenever a call of the commit fails, is the
converse of `updateOrRevert_calls`.
-/
import Svacara.Btree.Proofs.Traffic
import Svacara.Kvstore.Proofs.Crash

namespace Svacara.Kvstore

open Svacara.Storage Outcome

variable {w : World} {db db' : KV} {s s' : Pager} {fl fl' : Btree.FreeList}
  {pg pg' : PageMgr} {ptr oldRoot : Ptr} {oldFlushed : UInt64} {n fuel : Nat} {e : String}
  {st : Stage}

-- =================================================== the free list

theorem add_ofNat_ne (a : UInt64) (hpos : 0 < n) (hn : n < 2 ^ 64) :
    a + UInt64.ofNat n ≠ a := by
  intro heq
  have hnat := congrArg UInt64.toNat heq
  rw [UInt64.toNat_add, UInt64.toNat_ofNat_of_lt' hn] at hnat
  have hlt := a.toNat_lt
  omega

/-- `PopHead` leaves the tail alone and moves the head, if there is one. -/
theorem popHead_headSeq {σ : Type} {ops : Btree.FreeOps σ} {s s' : σ}
    (h : Btree.popHead ops s fl = .ok (ptr, fl', s')) :
    fl'.tailSeq = fl.tailSeq
      ∧ (fl.headPage = 0 → fl' = fl ∧ s' = s ∧ ptr = 0)
      ∧ (fl.headPage ≠ 0 → fl'.headSeq ≠ fl.headSeq) := by
  rw [Btree.popHead] at h
  by_cases hhead : fl.headPage = 0
  · rw [if_pos hhead] at h
    cases h
    exact ⟨rfl, fun _ => ⟨rfl, rfl, rfl⟩, fun hne => absurd hhead hne⟩
  rw [if_neg hhead] at h
  obtain ⟨node, -, h⟩ := bind_eq_ok.mp h
  obtain ⟨p, -, h⟩ := bind_eq_ok.mp h
  obtain ⟨next, hnext, h⟩ := bind_eq_ok.mp h
  have hsucc : fl.headSeq + 1 ≠ fl.headSeq := by
    simp
  suffices hend : fl'.tailSeq = fl.tailSeq ∧ fl'.headSeq ≠ fl.headSeq from
    ⟨hend.1, fun h0 => absurd h0 hhead, fun _ => hend.2⟩
  dsimp only at h
  split at h
  · next hcap =>
      -- the head goes to slot 0 of the next page, and was not at slot 0
      have hzero : (0 : UInt64) ≠ fl.headSeq := by
        intro h0
        rw [← h0] at hcap
        exact absurd hcap (by decide)
      rw [hnext, ok_bind] at h
      by_cases hn : next = 0
      · rw [if_neg (not_not.mpr hn)] at h
        split at h
        · obtain ⟨⟨old, s₁⟩, -, h⟩ := bind_eq_ok.mp h
          cases h
          exact ⟨rfl, hsucc⟩
        · cases h
          exact ⟨rfl, hsucc⟩
      · rw [if_pos hn] at h
        split at h
        · obtain ⟨⟨old, s₁⟩, -, h⟩ := bind_eq_ok.mp h
          cases h
          exact ⟨rfl, hzero⟩
        · cases h
          exact ⟨rfl, hzero⟩
  · cases h
    exact ⟨rfl, hsucc⟩

theorem pushTail_tailSeq {σ : Type} {ops : Btree.FreeOps σ} {s s' : σ}
    (h : Btree.pushTail ops s fl ptr = .ok (fl', s')) : fl'.tailSeq = fl.tailSeq + 1 := by
  rw [Btree.pushTail] at h
  obtain ⟨⟨fl₁, s₁⟩, htail, h⟩ := bind_eq_ok.mp h
  have hseq : fl₁.tailSeq = fl.tailSeq := by
    rw [Btree.ensureTail] at htail
    split at htail
    · obtain ⟨⟨p, s₂⟩, -, htail⟩ := bind_eq_ok.mp htail
      cases htail
      rfl
    · cases htail
      rfl
  obtain ⟨⟨node, s₂⟩, -, h⟩ := bind_eq_ok.mp h
  obtain ⟨node₁, -, h⟩ := bind_eq_ok.mp h
  dsimp only at h
  split at h
  · obtain ⟨⟨next, s₃⟩, -, h⟩ := bind_eq_ok.mp h
    obtain ⟨node₂, -, h⟩ := bind_eq_ok.mp h
    cases h
    exact congrArg (· + 1) hseq
  · cases h
    exact congrArg (· + 1) hseq

/-- The list that `NewPage` leaves is the one that `PopHead` left. -/
theorem newPage_popHead {node : Btree.BNode} (h : newPage s node = .ok (ptr, s')) :
    ∃ p pg, Btree.popHead freeOps s.pg s.free = .ok (p, s'.free, pg)
      ∧ (p = 0 → (ptr, s'.pg) = pg.alloc node) := by
  rw [newPage] at h
  obtain ⟨⟨p, fl, pg⟩, hpop, h⟩ := bind_eq_ok.mp h
  dsimp only at h
  by_cases hp : p = 0
  · rw [if_neg (not_not.mpr hp)] at h
    cases h
    exact ⟨_, pg, hpop, fun _ => rfl⟩
  · rw [if_pos hp] at h
    obtain ⟨⟨page, pg₁⟩, -, h⟩ := bind_eq_ok.mp h
    obtain ⟨page₁, -, h⟩ := bind_eq_ok.mp h
    cases h
    exact ⟨_, pg, hpop, fun h0 => absurd h0 hp⟩

/-- Every page freed moves the tail by one. -/
theorem Traffic.tailSeq {a : Nat} (h : Btree.Traffic treeOps a n s s') :
    s'.free.tailSeq = s.free.tailSeq + UInt64.ofNat n := by
  induction h with
  | none s => simp
  | new _ _ hnew ih =>
      obtain ⟨p, pg, hpop, -⟩ := newPage_popHead hnew
      rw [(popHead_headSeq hpop).1, ih]
  | del _ hdel ih =>
      obtain ⟨⟨fl, pg⟩, hpush, hret⟩ := bind_eq_ok.mp hdel
      cases hret
      show fl.tailSeq = _
      rw [pushTail_tailSeq hpush, ih, UInt64.add_assoc]
      simp

/-- An operation that frees a page does not leave the list as it was. -/
theorem Traffic.tailSeq_ne {a : Nat} (h : Btree.Traffic treeOps a n s s') (hpos : 0 < n)
    (hn : n < 2 ^ 64) : s'.free.tailSeq ≠ s.free.tailSeq := by
  rw [Traffic.tailSeq h]
  exact add_ofNat_ne _ hpos hn

-- ====================================================== the commit

/-- A recovery that works leaves all of the state in memory. -/
theorem recoverMeta_quiet (hw : FailsOnly w st) {err : Option String}
    (h : db.recoverMeta w oldRoot oldFlushed = .ok (err, db')) :
    err = none ∧ db'.tree.pages.free = db.tree.pages.free
      ∧ db'.pg.flushed = db.pg.flushed ∧ db'.pg.temp = db.pg.temp
      ∧ db'.pg.updates = db.pg.updates := by
  have hmeta : w.error .recoverMeta = none := by
    by_contra herr
    cases hw _ herr
  have hsync : w.error .recoverFsync = none := by
    by_contra herr
    cases hw _ herr
  rw [KV.recoverMeta, hmeta, hsync] at h
  split at h
  · cases h
    exact ⟨rfl, rfl, rfl, rfl, rfl⟩
  · obtain ⟨page, -, h⟩ := bind_eq_ok.mp h
    cases h
    exact ⟨rfl, rfl, rfl, rfl, rfl⟩

/-- The state that a rollback leaves. -/
structure RolledBack (db : KV) (oldRoot : Ptr) (oldFlushed : UInt64) : Prop where
  root : db.tree.root = oldRoot
  flushed : db.pg.flushed = oldFlushed
  temp : db.pg.temp = []
  updates : db.pg.updates = ∅

theorem rolledBack_rollback (db : KV) (oldRoot : Ptr) (oldFlushed : UInt64) :
    RolledBack { db.rollback oldRoot oldFlushed with failed := true } oldRoot oldFlushed :=
  ⟨rfl, rfl, rfl, rfl⟩

/-- An error of the last part: either the meta page was not written, and
the state is rolled back, or it was, and nothing is. -/
theorem commitMeta_error (h : db.commitMeta w oldRoot oldFlushed = .ok (some e, db')) :
    db'.tree.pages.free = db.tree.pages.free
      ∧ (w.error .writeMeta ≠ none ∧ RolledBack db' oldRoot oldFlushed
        ∨ w.error .fsyncMeta ≠ none ∧ db'.pg.flushed = db.pg.flushed) := by
  rw [KV.commitMeta] at h
  dsimp only at h
  obtain ⟨page, -, h⟩ := bind_eq_ok.mp h
  cases hmeta : w.error .writeMeta with
  | some e' =>
      rw [hmeta] at h
      cases h
      exact ⟨rfl, Or.inl ⟨Option.some_ne_none _, rolledBack_rollback _ _ _⟩⟩
  | none =>
      rw [hmeta] at h
      dsimp only at h
      cases hsync : w.error .fsyncMeta with
      | some e' =>
          rw [hsync] at h
          dsimp only at h
          split at h
          · cases h
            exact ⟨rfl, Or.inr ⟨Option.some_ne_none _, rfl⟩⟩
          · split at h
            · cases h
              exact ⟨rfl, Or.inr ⟨Option.some_ne_none _, rfl⟩⟩
            · cases h
      | none =>
          rw [hsync] at h
          dsimp only at h
          split at h
          · cases h
          · split at h
            · cases h
            · cases h

/-- An error of `updateOrRevert` in a world whose recovery works. -/
theorem updateOrRevert_error (hw : FailsOnly w st)
    (h : db.updateOrRevert w oldRoot oldFlushed = .ok (some e, db')) :
    db'.tree.pages.free = db.tree.pages.free
      ∧ (RolledBack db' oldRoot oldFlushed ∧ (db.pg.updates = ∅ → st ≠ .fsyncMeta)
        ∨ st = .fsyncMeta
          ∧ db'.pg.flushed = db.pg.flushed + UInt64.ofNat db.pg.temp.length) := by
  rw [KV.updateOrRevert] at h
  obtain ⟨⟨err, db₁⟩, hrecover, h⟩ := bind_eq_ok.mp h
  obtain ⟨rfl, hfree, hflushed, htemp, hupdates⟩ := recoverMeta_quiet hw hrecover
  rw [← hfree, ← hflushed, ← htemp, ← hupdates]
  dsimp only at h
  rw [KV.flushAndCommit] at h
  obtain ⟨⟨n, err, pg⟩, hflush, h⟩ := bind_eq_ok.mp h
  cases err with
  | some e' =>
      cases h
      refine ⟨rfl, Or.inl ⟨rolledBack_rollback _ _ _, fun hnone => ?_⟩⟩
      rcases flushPages_error hflush hnone with hmap | htmp
      · cases hw _ hmap
        decide
      · cases hw _ htmp
        decide
  | none =>
      dsimp only at h
      have hcommit : ∀ {r}, (db₁.setPg pg).commitMeta w oldRoot oldFlushed = .ok r →
          r = (some e, db') → db'.tree.pages.free = db₁.tree.pages.free
            ∧ (RolledBack db' oldRoot oldFlushed ∧ (db₁.pg.updates = ∅ → st ≠ .fsyncMeta)
              ∨ st = .fsyncMeta
                ∧ db'.pg.flushed = db₁.pg.flushed + UInt64.ofNat db₁.pg.temp.length) := by
        rintro _ hc rfl
        obtain ⟨hfree, ⟨herr, hback⟩ | ⟨herr, hfl⟩⟩ := commitMeta_error hc
        · refine ⟨hfree, Or.inl ⟨hback, fun _ => ?_⟩⟩
          cases hw _ herr
          decide
        · cases hw _ herr
          obtain ⟨-, -, -, hflushed, -⟩ := flushPages_ok hflush
          exact ⟨hfree, Or.inr ⟨rfl, hfl.trans hflushed⟩⟩
      split at h
      · cases hsync : w.error .fsync with
        | some e' =>
            rw [hsync] at h
            cases h
            refine ⟨rfl, Or.inl ⟨rolledBack_rollback _ _ _, fun _ => ?_⟩⟩
            have hst := hw .fsync (by rw [hsync]; exact Option.some_ne_none _)
            cases hst
            decide
        | none =>
            rw [hsync] at h
            exact hcommit h rfl
      · exact hcommit h rfl

-- ------------------------------------------ a commit without error

theorem commitMeta_calls (h : db.commitMeta w oldRoot oldFlushed = .ok (none, db')) :
    w.error .writeMeta = none
      ∧ (db.syncMode = syncNormal ∨ db.syncMode = syncFull → w.error .fsyncMeta = none) := by
  rw [KV.commitMeta] at h
  dsimp only at h
  obtain ⟨page, -, h⟩ := bind_eq_ok.mp h
  cases hmeta : w.error .writeMeta with
  | some e =>
      rw [hmeta] at h
      cases h
  | none =>
      rw [hmeta] at h
      refine ⟨rfl, fun hmode => ?_⟩
      dsimp only at h
      cases hsync : w.error .fsyncMeta with
      | none => rfl
      | some e =>
          rw [hsync] at h
          dsimp only at h
          split at h
          · cases h
          · next hfull =>
              split at h
              · cases h
              · next hnormal => exact (hmode.elim hnormal hfull).elim

/-- A recovery changes nothing but the file. -/
theorem recoverMeta_pending {err : Option String}
    (h : db.recoverMeta w oldRoot oldFlushed = .ok (err, db')) :
    db'.syncMode = db.syncMode ∧ ∃ file, db'.pg = { db.pg with file := file } := by
  rw [KV.recoverMeta] at h
  split at h
  · cases h
    exact ⟨rfl, _, rfl⟩
  · obtain ⟨page, -, h⟩ := bind_eq_ok.mp h
    split at h
    · cases h
      exact ⟨rfl, _, rfl⟩
    · dsimp only at h
      split at h
      · cases h
        exact ⟨rfl, _, rfl⟩
      · cases h
        exact ⟨rfl, _, rfl⟩

/-- A commit that returns no error: none of the calls it had to make
failed. -/
theorem updateOrRevert_calls (h : db.updateOrRevert w oldRoot oldFlushed = .ok (none, db')) :
    ∀ c, db.Makes c → w.error c = none := by
  rw [KV.updateOrRevert] at h
  obtain ⟨⟨err, db₁⟩, hrecover, h⟩ := bind_eq_ok.mp h
  obtain ⟨hmode, file, hpg⟩ := recoverMeta_pending hrecover
  cases err with
  | some e => cases h
  | none =>
  dsimp only at h
  rw [KV.flushAndCommit] at h
  obtain ⟨⟨n, err, pg⟩, hflush, h⟩ := bind_eq_ok.mp h
  cases err with
  | some e => cases h
  | none =>
  have hpages := flushPages_calls hflush
  rw [hpg] at hpages
  dsimp only at h
  have hmeta : (syncNormal ≤ db.syncMode → w.error .fsync = none)
      ∧ (db₁.setPg pg).commitMeta w oldRoot oldFlushed = .ok (none, db') := by
    rw [← hmode]
    split at h
    · cases hsync : w.error .fsync with
      | none =>
          rw [hsync] at h
          exact ⟨fun _ => rfl, h⟩
      | some e =>
          rw [hsync] at h
          cases h
    · next hoff => exact ⟨fun hon => absurd hon hoff, h⟩
  obtain ⟨hsync, hcommit⟩ := hmeta
  obtain ⟨hwrite, hsync₂⟩ := commitMeta_calls hcommit
  have hmode' : (db₁.setPg pg).syncMode = db.syncMode := hmode
  rw [hmode'] at hsync₂
  intro c hc
  cases c with
  | mmap => exact (hpages hc.1).1 hc.2
  | writePage ptr =>
      have hmem : ptr ∈ db.pg.updates := hc
      refine (hpages (Or.inr fun hnone => ?_)).2.1 ptr hmem
      rw [show db.pg.updates = ∅ from hnone] at hmem
      exact AList.notMem_empty ptr hmem
  | writeTemp => exact (hpages (Or.inl hc)).2.2 hc
  | fsync => exact hsync hc
  | writeMeta => exact hwrite
  | fsyncMeta => exact hsync₂ hc
  | openFile => exact hc.elim
  | stat => exact hc.elim
  | recoverMeta => exact hc.elim
  | recoverFsync => exact hc.elim

/-- If a call fails that the commit has to make, the commit returns an
error. -/
theorem updateOrRevert_fails {c : SysCall} (hc : db.Makes c) (herr : w.error c ≠ none)
    (hsize : (db.pg.flushed.toNat + db.pg.temp.length) * pageSize < 2 ^ 62) :
    ∃ e db', db.updateOrRevert w oldRoot oldFlushed = .ok (some e, db') := by
  obtain ⟨⟨err, db'⟩, hrun⟩ := updateOrRevert_returns w db oldRoot oldFlushed hsize
  cases err with
  | none => exact absurd (updateOrRevert_calls hrun c hc) herr
  | some e => exact ⟨e, db', hrun⟩

-- ========================================================== writes

/-- A failed write whose operation has moved the free list. -/
theorem not_restored_of_free {free : Btree.FreeList}
    (hfree : db'.tree.pages.free = free)
    (hmoved : free.headSeq ≠ db.tree.pages.free.headSeq
      ∨ free.tailSeq ≠ db.tree.pages.free.tailSeq) : ¬ Restored db db' := by
  intro h
  rcases hmoved with hhead | htail
  · exact hhead (hfree ▸ h.headSeq)
  · exact htail (hfree ▸ h.tailSeq)

/-- A failed `Set` on an empty tree without a free list is undone, unless
it was the last step that failed. -/
theorem restored_of_empty (hidle : Idle db)
    (hhead : db.tree.pages.free.headPage = 0) {node : Btree.BNode} {tree : Btree.BTree Pager}
    (hnew : newPage db.tree.pages node = .ok (tree.root, tree.pages)) (hw : FailsOnly w st)
    (h : KV.updateOrRevert w { db with tree := tree } db.tree.root db.pg.flushed
      = .ok (some e, db')) :
    Restored db db' ↔ st ≠ .fsyncMeta := by
  obtain ⟨p, pg, hpop, halloc⟩ := newPage_popHead hnew
  obtain ⟨hlist, rfl, rfl⟩ := (popHead_headSeq hpop).2.1 hhead
  have hpg : tree.pages.pg = (db.tree.pages.pg.alloc node).2 := congrArg Prod.snd (halloc rfl)
  have hupd : tree.pages.pg.updates = ∅ := by
    rw [hpg]
    exact hidle.2
  have htemp : tree.pages.pg.temp = [node] := by
    rw [hpg]
    show db.pg.temp ++ [node] = _
    rw [hidle.1]
    rfl
  have hflushed : tree.pages.pg.flushed = db.pg.flushed := by
    rw [hpg]
    rfl
  obtain ⟨hfree, ⟨hback, hst⟩ | ⟨rfl, hfl⟩⟩ := updateOrRevert_error hw h
  · refine iff_of_true ?_ (hst hupd)
    have hfree' : db'.tree.pages.free = db.tree.pages.free := hfree.trans hlist
    exact ⟨hback.root, hback.flushed, by rw [hfree'], by rw [hfree'], by rw [hfree'],
      by rw [hfree'], hback.temp.trans hidle.1.symm, hback.updates.trans hidle.2.symm⟩
  · -- the new page stays counted
    refine iff_of_false (fun hres => ?_) (not_not.mpr rfl)
    have hmore : db'.pg.flushed = db.pg.flushed + UInt64.ofNat 1 := by
      rw [hfl]
      show tree.pages.pg.flushed + UInt64.ofNat tree.pages.pg.temp.length = _
      rw [htemp, hflushed]
      rfl
    rw [hres.flushed] at hmore
    exact add_ofNat_ne db.pg.flushed Nat.one_pos (by decide) hmore.symm

/-- A write that returns an error leaves the state in memory as it was if
and only if it is a `Set` on an empty tree with an empty free list and the
step that failed is not the last one. -/
theorem restored_of_error {op : Op} (hfuel : fuel < 2 ^ 62) (hidle : Idle db)
    (hw : FailsOnly op.world st) (hstep : step fuel db op = .ok (some e, db')) :
    Restored db db' ↔ op.isSet = true ∧ db.tree.root = 0
      ∧ db.tree.pages.free.headPage = 0 ∧ st ≠ .fsyncMeta := by
  cases op with
  | set w key val =>
      obtain ⟨tree, hinsert, hcommit⟩ := bind_eq_ok.mp hstep
      by_cases hroot : db.tree.root = 0
      · obtain ⟨node, hnew⟩ := Btree.insert_empty hroot hinsert
        by_cases hhead : db.tree.pages.free.headPage = 0
        · rw [restored_of_empty hidle hhead hnew hw hcommit]
          simp [Op.isSet, hroot, hhead]
        · obtain ⟨p, pg, hpop, -⟩ := newPage_popHead hnew
          have hmoved := (popHead_headSeq hpop).2.2 hhead
          have hfree := (updateOrRevert_error hw hcommit).1
          refine iff_of_false (not_restored_of_free hfree (Or.inl hmoved)) ?_
          exact fun hall => hhead hall.2.2.1
      · obtain ⟨a, n, -, htraffic, hpos, hle⟩ := (Btree.insert_calls fuel _ key val).get hinsert
        have hmoved := Traffic.tailSeq_ne htraffic (hpos hroot) (by omega)
        have hfree := (updateOrRevert_error hw hcommit).1
        refine iff_of_false (not_restored_of_free hfree (Or.inr hmoved)) ?_
        exact fun hall => hroot hall.2.1
  | del w key =>
      obtain ⟨⟨found, err, db₁⟩, hdel, hret⟩ := bind_eq_ok.mp hstep
      cases hret
      obtain ⟨⟨deleted, tree⟩, hdelete, hdel⟩ := bind_eq_ok.mp hdel
      cases deleted with
      | false => cases hdel
      | true =>
          obtain ⟨⟨err, db₂⟩, hcommit, hret⟩ := bind_eq_ok.mp hdel
          cases hret
          obtain ⟨a, n, -, htraffic, hpos, hle⟩ := (Btree.delete_calls fuel _ key).get hdelete
          have hmoved := Traffic.tailSeq_ne htraffic (hpos rfl) (by omega)
          have hfree := (updateOrRevert_error hw hcommit).1
          refine iff_of_false (not_restored_of_free hfree (Or.inr hmoved)) ?_
          exact fun hall => Bool.false_ne_true hall.1

/-- A call that comes to its commit is the commit. -/
theorem step_commits {op : Op} {db₁ : KV} (h : Commits fuel db op db₁)
    (hcommit : db₁.updateOrRevert op.world db.tree.root db.pg.flushed = .ok (some e, db')) :
    step fuel db op = .ok (some e, db') := by
  cases h with
  | set htree => exact bind_eq_ok.mpr ⟨_, htree, hcommit⟩
  | del htree =>
      refine bind_eq_ok.mpr ⟨(true, some e, db'), bind_eq_ok.mpr ⟨_, htree, ?_⟩, rfl⟩
      exact bind_eq_ok.mpr ⟨_, hcommit, rfl⟩

/-- A write that comes to its commit, where one of the steps reports an
error: the write returns an error, and it leaves the state in memory as it
was if and only if it is a `Set` on an empty tree with an empty free list
and the step is not the last one. -/
theorem restored_iff (fuel : Nat) (hfuel : fuel < 2 ^ 62) (db : KV) (hidle : Idle db)
    (op : Op) (st : Stage) (hw : FailsOnly op.world st) (db₁ : KV)
    (hcommits : Commits fuel db op db₁) (c : SysCall) (hc : db₁.Makes c)
    (herr : op.world.error c ≠ none)
    (hsize : (db₁.pg.flushed.toNat + db₁.pg.temp.length) * pageSize < 2 ^ 62) :
    ∃ e db', step fuel db op = .ok (some e, db')
      ∧ (Restored db db' ↔ op.isSet = true ∧ db.tree.root = 0
        ∧ db.tree.pages.free.headPage = 0 ∧ st ≠ .fsyncMeta) := by
  obtain ⟨e, db', hcommit⟩ := updateOrRevert_fails hc herr hsize
  have hstep := step_commits hcommits hcommit
  exact ⟨e, db', hstep, restored_of_error hfuel hidle hw hstep⟩

/-- A disk without room for new pages. -/
def fullDisk : World where
  error
    | .writeTemp => some "no space"
    | _ => none
  visit := .inOrder

/-- A disk on which the last `fsync` of a write fails. -/
def lastSyncFails : World where
  error
    | .fsyncMeta => some "io error"
    | _ => none
  visit := .inOrder

theorem failsOnly_fullDisk : FailsOnly fullDisk .flush := by
  intro c hc
  cases c with
  | writeTemp => rfl
  | _ => exact absurd rfl hc

/-- A call that is known to return. -/
theorem exists_of_map {α β : Type} {x : Except Fault α} {f : α → β} {b : β}
    (h : x.toOption.map f = some b) : ∃ a, x = .ok a ∧ f a = b := by
  cases x with
  | error e => cases h
  | ok a => exact ⟨a, rfl, Option.some.inj h⟩

/-- The first `Set` on a full disk returns an error and is undone. -/
theorem restored_iff_full_disk :
    ∃ e db', step 1 (fresh syncFull) (.set fullDisk (make 13) [1]) = .ok (some e, db')
      ∧ Restored (fresh syncFull) db' := by
  have hrun : (Btree.insert treeOps 1 (fresh syncFull).tree (make 13) [1]).toOption.map
      (fun tree => (tree.pages.pg.temp.length, tree.pages.pg.flushed)) = some (1, 1) := by
    decide +kernel
  obtain ⟨tree, htree, hval⟩ := exists_of_map hrun
  obtain ⟨htemp, hflushed⟩ := Prod.mk.inj hval
  obtain ⟨e, db', hstep, hiff⟩ := restored_iff 1 (by decide) (fresh syncFull) ⟨rfl, rfl⟩
    (.set fullDisk (make 13) [1]) .flush failsOnly_fullDisk _ (.set htree) .writeTemp
    (List.length_pos_iff.mp (htemp ▸ Nat.one_pos)) (by decide) (by
      show (tree.pages.pg.flushed.toNat + tree.pages.pg.temp.length) * pageSize < _
      rw [htemp, hflushed]
      decide)
  exact ⟨e, db', hstep, hiff.mpr ⟨rfl, rfl, rfl, by decide⟩⟩

/-- The first `Set` when its last `fsync` fails: the error is returned,
and the new root and page stay. -/
theorem last_sync_not_undone :
    ∃ e db', step 1 (fresh syncFull) (.set lastSyncFails (make 13) [1]) = .ok (some e, db')
      ∧ (fresh syncFull).tree.root = 0 ∧ db'.tree.root = 1
      ∧ ¬ Restored (fresh syncFull) db' := by
  have hrun : (step 1 (fresh syncFull) (.set lastSyncFails (make 13) [1])).toOption.map
      (fun r => (r.1, r.2.tree.root)) = some (some "fsync2: io error", 1) := by decide +kernel
  obtain ⟨⟨err, db'⟩, hstep, hval⟩ := exists_of_map hrun
  obtain ⟨rfl, hroot⟩ := Prod.mk.inj hval
  refine ⟨_, db', hstep, rfl, hroot, fun h => ?_⟩
  have hsame : db'.tree.root = 0 := h.root
  rw [show db'.tree.root = 1 from hroot] at hsame
  exact absurd hsame (by decide)

end Svacara.Kvstore
