/-
The file over many sessions.

From an empty file there are two ways out, both in the first `Set`: the
commit goes through, or the process dies between its two writes. Either
way no later session changes a byte. In the first case the file holds
the one pair for good; in the second `Open` refuses it for good.
-/
import Svacara.Kvstore.Proofs.Crash

namespace Svacara.Kvstore

open Svacara.Storage Buf Outcome

variable {file file' : File} {key val : Bytes} {fuel : Nat} {mode : SyncMode} {ops : List Op}

/-- A file that is only good to be refused. -/
def Dead (file : File) : Prop :=
  ∀ (w : World) (mode : SyncMode), w.Quiet → ∃ e, KV.open w file mode = .ok (.error e)

-- ===================================================== one session

/-- The crashes of the first `Set`: nothing, the leaf alone, or both
pages. -/
theorem crashed_fresh {page leaf : Bytes} (hpage : page.length = pageSize)
    (hleaf : leaf.length = pageSize) (n : Nat) :
    let file := crashed ⟨[], []⟩ ⟨page ++ leaf, [(pageSize, leaf), (0, page)]⟩ n
    file = ⟨[], []⟩ ∨ file = ⟨make pageSize ++ leaf, []⟩ ∨ file = ⟨page ++ leaf, []⟩ := by
  intro file
  rcases n with - | - | n
  · exact Or.inl rfl
  · exact Or.inr (Or.inl (crashed_first hpage hleaf))
  · refine Or.inr (Or.inr ?_)
    show (crashed _ _ _ : File) = _
    rw [crashed, issued_first hpage hleaf, List.take_of_length_le (Nat.le_add_left 2 n)]
    show (⟨overwrite (overwrite [] pageSize leaf) 0 page, []⟩ : File) = _
    rw [overwrite_empty, overwrite_front (by rw [hpage, length_make])]

/-- What a file can be. -/
inductive Kept : File → Prop where
  | empty : Kept ⟨[], []⟩
  | dead (file : File) (h : Dead file) : Kept file
  | row (file : File) (key val : Bytes) (h : OneLeaf file key val) : Kept file

/-- `OneLeaf` is a matter of the bytes. -/
theorem OneLeaf.of_bytes (h : OneLeaf file key val) (hbytes : file'.bytes = file.bytes) :
    OneLeaf file' key val := by
  obtain ⟨page, leaf, hsplit, hrest⟩ := h
  exact ⟨page, leaf, hbytes.trans hsplit, hrest⟩

/-- What is left of an empty file. -/
theorem LeftFile.of_fresh (h : LeftFile fuel (fresh mode) file) : Kept file := by
  cases h with
  | closed => exact .empty
  | died op hop _ hcrash =>
      cases hcrash with
      | before => exact .empty
      | during err db' n hstep =>
          cases op with
          | del w k =>
              cases hstep
              rw [crashed_self]
              exact .empty
          | set w k v =>
              obtain ⟨hw, hk, hv⟩ := hop
              obtain ⟨page, leaf, hpage, hleaf, hone, hset⟩ := set_fresh hw hk hv fuel mode
              cases hset.symm.trans hstep
              rcases crashed_fresh hpage hleaf n with hfile | hfile | hfile
              · exact hfile ▸ .empty
              · exact hfile ▸ .dead _ fun _ mode hw => ⟨_, open_blank hw hleaf mode⟩
              · exact hfile ▸ .row _ k v hone

/-- What is left of a file with one leaf. -/
theorem LeftFile.of_single (hleaf : OneLeaf file key val) (hfuel : 0 < fuel)
    (h : LeftFile fuel (single file mode) file') : file'.bytes = file.bytes := by
  cases h with
  | closed => rfl
  | died op hop _ hcrash =>
      cases hcrash with
      | before => rfl
      | during err db' n hstep =>
          rw [step_single hleaf hfuel] at hstep
          split at hstep
          · cases hstep
            rw [crashed_self]
            rfl
          · cases hstep

theorem run_fresh_ok (hfuel : 0 < fuel) (hrows : ∀ op ∈ ops, op.IsRow)
    {errs : List (Option String)} {db : KV}
    (h : run fuel (fresh mode) ops = .ok (errs, db)) : State mode ops db ∧ oneSet ops = true := by
  rcases run_fresh hfuel mode ops hrows with ⟨hone, db', hrun, hstate⟩ | ⟨-, hfault⟩
  · rw [hrun] at h
    cases h
    exact ⟨hstate, hone⟩
  · rw [hfault] at h
    cases h

theorem Session.of_dead (hdead : Dead file) (h : Session fuel file file') : file' = file := by
  cases h with
  | refused => rfl
  | ended w hw mode ops db₀ db errs hrows hopen =>
      obtain ⟨e, he⟩ := hdead w mode hw
      rw [he] at hopen
      cases hopen

theorem Session.of_row (hleaf : OneLeaf file key val) (hfuel : 0 < fuel)
    (h : Session fuel file file') : file'.bytes = file.bytes := by
  cases h with
  | refused => rfl
  | ended w hw mode ops db₀ db errs hrows hopen hrun _ hleft =>
      rw [open_single hleaf hw] at hopen
      cases hopen
      rw [run_single hleaf hfuel] at hrun
      split at hrun
      · cases hrun
        exact hleft.of_single hleaf hfuel
      · cases hrun

theorem Session.of_empty (hfuel : 0 < fuel) (h : Session fuel ⟨[], []⟩ file') : Kept file' := by
  cases h with
  | refused => exact .empty
  | ended w hw mode ops db₀ db errs hrows hopen hrun _ hleft =>
      rw [open_empty hw] at hopen
      cases hopen
      cases (run_fresh_ok hfuel hrows hrun).1 with
      | fresh => exact hleft.of_fresh
      | single file key val hleaf =>
          exact .row _ key val (hleaf.of_bytes (hleft.of_single hleaf hfuel))

-- =================================================== many sessions

theorem Sessions.of_dead (hdead : Dead file) (h : Sessions fuel file file') : file' = file := by
  induction h with
  | refl => rfl
  | tail _ hstep ih => exact (Session.of_dead (ih ▸ hdead) hstep).trans ih

theorem Sessions.of_row (hleaf : OneLeaf file key val) (hfuel : 0 < fuel)
    (h : Sessions fuel file file') : file'.bytes = file.bytes := by
  induction h with
  | refl => rfl
  | tail _ hstep ih => exact (Session.of_row (hleaf.of_bytes ih) hfuel hstep).trans ih

theorem Sessions.kept (hfuel : 0 < fuel) (h : Sessions fuel ⟨[], []⟩ file) : Kept file := by
  induction h with
  | refl => exact .empty
  | tail _ hstep ih =>
      cases ih with
      | empty => exact Session.of_empty hfuel hstep
      | dead _ hdead => exact Session.of_dead hdead hstep ▸ .dead _ hdead
      | row _ key val hleaf =>
          exact .row _ key val (hleaf.of_bytes (Session.of_row hleaf hfuel hstep))

/-- Once there is something in the file, no session changes it any more,
and it is either refused for good or holds one pair for good. -/
theorem file_written_once (fuel : Nat) (hfuel : 0 < fuel) (file : File)
    (hlife : Sessions fuel ⟨[], []⟩ file) :
    file.bytes = []
      ∨ (∀ file', Sessions fuel file file' → file'.bytes = file.bytes)
        ∧ (Dead file ∨ ∃ key val, Reopens fuel file (pair key val)) := by
  cases Sessions.kept hfuel hlife with
  | empty => exact Or.inl rfl
  | dead _ hdead =>
      exact Or.inr ⟨fun _ h => congrArg File.bytes (Sessions.of_dead hdead h), Or.inl hdead⟩
  | row _ key val hleaf =>
      exact Or.inr ⟨fun _ h => Sessions.of_row hleaf hfuel h,
        Or.inr ⟨key, val, reopens_single hleaf hfuel⟩⟩

/-- The process that makes the first `Set` dies between its two writes. -/
theorem file_written_once_blank : ∃ file, Sessions 1 ⟨[], []⟩ file ∧ file.bytes ≠ []
    ∧ ∀ file', Sessions 1 file file' → file'.bytes = file.bytes := by
  have hw : World.calm.Quiet := fun _ => rfl
  have hv : [(1 : UInt8)].length ≤ 1000 := by decide
  obtain ⟨leaf, hleaf, hcrash⟩ := crashFile_first hw (length_make 13) hv 1 syncFull
  have hlife : Sessions 1 ⟨[], []⟩ ⟨make pageSize ++ leaf, []⟩ := by
    refine .single (.ended .calm hw syncFull [] (fresh syncFull) (fresh syncFull) [] ?_
      (open_empty hw syncFull) rfl _ (.died _ ?_ _ hcrash))
    · exact fun op hop => absurd hop List.not_mem_nil
    · exact ⟨hw, length_make 13, hv⟩
  have hne := List.append_ne_nil_of_left_ne_nil (by decide : make pageSize ≠ []) leaf
  exact ⟨_, hlife, hne, ((file_written_once 1 Nat.one_pos _ hlife).resolve_left hne).1⟩

/-- The only `Set` says what the map is. -/
theorem contents_oneSet {w : World} (hone : oneSet ops = true)
    (hset : Op.set w key val ∈ ops) : contents ops = pair key val := by
  induction ops with
  | nil => cases hset
  | cons op ops ih =>
      cases op with
      | del w' k =>
          rw [List.mem_cons, or_iff_right (by exact Op.noConfusion)] at hset
          have hcons : contents (.del w' k :: ops) = contents ops := by
            unfold contents
            rw [List.foldl_cons, apply_del_empty]
          exact hcons.trans (ih hone hset)
      | set w' k v =>
          rcases List.mem_cons.mp hset with hhead | htail
          · cases hhead
            exact foldl_spares hone
          · cases List.all_eq_true.mp hone _ htail

/-- Once a `Set` has returned, its pair is all that any later session
finds, however this one and the later ones end. -/
theorem set_survives (fuel : Nat) (hfuel : 0 < fuel) (file : File)
    (hlife : Sessions fuel ⟨[], []⟩ file) (w : World) (hw : w.Quiet) (mode : SyncMode)
    (ops : List Op) (db₀ db : KV) (errs : List (Option String)) (hrows : ∀ op ∈ ops, op.IsRow)
    (hopen : KV.open w file mode = .ok (.ok db₀)) (hrun : run fuel db₀ ops = .ok (errs, db))
    (w' : World) (key val : Bytes) (hset : Op.set w' key val ∈ ops) (left later : File)
    (hleft : LeftFile fuel db left) (hlater : Sessions fuel left later) :
    Reopens fuel later (pair key val) := by
  cases Sessions.kept hfuel hlife with
  | dead _ hdead =>
      obtain ⟨e, he⟩ := hdead w mode hw
      rw [he] at hopen
      cases hopen
  | row _ k v hleaf =>
      -- no run on such a file has a `Set`
      rw [open_single hleaf hw] at hopen
      cases hopen
      rw [run_single hleaf hfuel] at hrun
      split at hrun
      · next hspares => cases List.all_eq_true.mp hspares _ hset
      · cases hrun
  | empty =>
      rw [open_empty hw] at hopen
      cases hopen
      obtain ⟨hstate, hone⟩ := run_fresh_ok hfuel hrows hrun
      have hmap := contents_oneSet hone hset
      cases hstate with
      | fresh hnone =>
          rw [List.any_eq_false] at hnone
          exact absurd rfl (hnone _ hset)
      | single file k v hleaf _ hpair =>
          have hbytes := hleft.of_single hleaf hfuel
          have hlast := Sessions.of_row (hleaf.of_bytes hbytes) hfuel hlater
          rw [← hmap, hpair]
          exact reopens_single (hleaf.of_bytes (hlast.trans hbytes)) hfuel

/-- The first session makes a `Set` and closes the store. -/
theorem set_survives_close :
    ∃ db, run 1 (fresh syncFull) [.set .calm (make 13) [1]] = .ok ([none], db)
      ∧ Reopens 1 db.close (pair (make 13) [1]) := by
  have hw : World.calm.Quiet := fun _ => rfl
  have hrows : ∀ op ∈ [Op.set .calm (make 13) [1]], op.IsRow := by
    intro op hop
    rw [List.mem_singleton.mp hop]
    exact ⟨hw, rfl, by decide⟩
  rcases run_fresh Nat.one_pos syncFull [.set .calm (make 13) [1]] hrows with
    ⟨-, db, hrun, -⟩ | ⟨hnot, -⟩
  · refine ⟨db, hrun, set_survives 1 Nat.one_pos ⟨[], []⟩ .refl .calm hw syncFull _ _ db _ hrows
      (open_empty hw syncFull) hrun .calm _ _ (List.mem_singleton.mpr rfl) db.close db.close
      .closed .refl⟩
  · cases hnot

end Svacara.Kvstore
