/-
Where `FlushPages` puts the pending pages.

The bytes of the file after a flush are known one by one: those of the
new pages' buffers from the first new page on, and of the updates
elsewhere (`flushPages_bytes`). A page is where it should be exactly if
the buffers, end to end, have it there (`flushPages_placed_iff`): a buffer
of two pages moves all that come after it, and a new page that is written
to has its old content put over the change.
-/
import Svacara.Storage.PageLog
import Svacara.Storage.Proofs.Mapping

namespace Svacara.Storage

open Buf Outcome

variable {w : World} {pm pm' : PageMgr} {x y : PageLog} {n k : Nat}

-- ======================================================= the file

theorem length_overwrite (f src : Bytes) (off : Nat) :
    (overwrite f off src).length = max f.length (off + src.length) := by
  rw [overwrite, length_splice _ _ (by rw [List.length_append, length_make]; omega),
    List.length_append, length_make]
  omega

/-- What was written is in the file. -/
theorem overwrite_inside (f src : Bytes) {off i : Nat} (hi : i < src.length) :
    (overwrite f off src)[off + i]? = src[i]? := by
  rw [overwrite, getElem?_splice _ _ (by rw [List.length_append, length_make]; omega),
    if_pos (by omega), Nat.add_sub_cancel_left]

/-- The rest of the file is as it was. -/
theorem overwrite_outside (f src : Bytes) {off i : Nat} (hi : i < f.length)
    (hout : i < off ∨ off + src.length ≤ i) : (overwrite f off src)[i]? = f[i]? := by
  rw [overwrite, getElem?_splice _ _ (by rw [List.length_append, length_make]; omega),
    if_neg (by omega), List.getElem?_append_left hi]

/-- Two pages do not meet. -/
theorem page_disjoint {p q i : Nat} (hne : p ≠ q) (hi : i < pageSize) :
    p * pageSize + i < q * pageSize ∨ q * pageSize + pageSize ≤ p * pageSize + i := by
  simp only [pageSize] at *
  omega

/-- The file after the updates, page by page. -/
theorem flushUpdates_bytes {ups : List Update} {f f' : File}
    (hnodup : (ups.map Sigma.fst).Nodup)
    (h : PageMgr.flushUpdates w ups n f = (k, none, f')) :
    f.bytes.length ≤ f'.bytes.length
      ∧ (∀ up ∈ ups, ∀ i, i < pageSize →
          up.1.toNat * pageSize + i < f'.bytes.length
            ∧ f'.bytes[up.1.toNat * pageSize + i]? = up.2[i]?)
      ∧ ∀ ptr : Ptr, ptr ∉ ups.map Sigma.fst → ∀ i, i < pageSize →
          ptr.toNat * pageSize + i < f.bytes.length →
          f'.bytes[ptr.toNat * pageSize + i]? = f.bytes[ptr.toNat * pageSize + i]? := by
  induction ups generalizing n f with
  | nil =>
      cases h
      exact ⟨Nat.le_refl _, fun _ hup => absurd hup List.not_mem_nil, fun _ _ _ _ _ => rfl⟩
  | cons up ups ih =>
      obtain ⟨ptr, page⟩ := up
      rw [PageMgr.flushUpdates] at h
      split at h
      · cases h
      dsimp only at h
      split at h
      · cases h
      · next hlen =>
          rw [List.map_cons, List.nodup_cons] at hnodup
          have hpage : page.length = pageSize := not_not.mp hlen
          obtain ⟨hgrow, hups, hrest⟩ := ih hnodup.2 h
          have hlen₁ : (f.writeAt page (ptr.toNat * pageSize)).bytes.length
              = max f.bytes.length (ptr.toNat * pageSize + pageSize) := by
            rw [← hpage]
            exact length_overwrite _ _ _
          refine ⟨by omega, ?_, ?_⟩
          · intro up hup i hi
            rcases List.mem_cons.mp hup with rfl | hup
            · show ptr.toNat * pageSize + i < f'.bytes.length
                ∧ f'.bytes[ptr.toNat * pageSize + i]? = page[i]?
              refine ⟨by omega, ?_⟩
              rw [hrest ptr hnodup.1 i hi (by omega)]
              exact overwrite_inside _ _ (by omega)
            · exact hups up hup i hi
          · intro q hq i hi hbelow
            rw [List.map_cons, List.mem_cons, not_or] at hq
            rw [hrest q hq.2 i hi (by omega)]
            refine overwrite_outside _ _ hbelow ?_
            rw [hpage]
            exact page_disjoint (fun heq => hq.1 (UInt64.toNat_inj.mp heq)) hi

-- ================================================== the two phases

theorem extendMMap_same {size : Nat} {err : Option String}
    (h : pm.extendMMap w size = .ok (err, pm')) :
    pm'.file = pm.file ∧ pm'.flushed = pm.flushed ∧ pm'.temp = pm.temp
      ∧ pm'.updates = pm.updates := by
  obtain ⟨-, -, rfl⟩ | ⟨e, -, -, -, rfl⟩ | ⟨alloc, -, -, -, rfl⟩ := PageMgr.extendMMap_cases h
  · exact ⟨rfl, rfl, rfl, rfl⟩
  · exact ⟨rfl, rfl, rfl, rfl⟩
  · exact ⟨rfl, rfl, rfl, rfl⟩

/-- A flush that reports no error wrote the updates and then the new
pages. -/
theorem flushPages_ok (h : pm.flushPages w = .ok (n, none, pm')) :
    ∃ k f, PageMgr.flushUpdates w (w.visit.order pm.updates.entries) 0 pm.file
        = (k, none, f)
      ∧ pm'.flushed = pm.flushed + UInt64.ofNat pm.temp.length
      ∧ pm'.file = if pm.temp = [] then f
        else f.writeAt pm.temp.flatten (pm.flushed.toNat * pageSize) := by
  rw [PageMgr.flushPages] at h
  split at h
  · next hidle =>
      cases h
      have hups : w.visit.order pm.updates.entries = [] := by
        rw [List.length_eq_zero_iff.mp hidle.2]
        exact List.perm_nil.mp (w.visit.perm [])
      rw [hups, List.length_eq_zero_iff.mp hidle.1]
      exact ⟨0, pm.file, rfl, by simp, (if_pos rfl).symm⟩
  · obtain ⟨⟨err, pm₁⟩, hmap, h⟩ := bind_eq_ok.mp h
    obtain ⟨hfile, hflushed, htemp, hupdates⟩ := extendMMap_same hmap
    rw [← hfile, ← hflushed, ← htemp, ← hupdates]
    cases err with
    | some e => cases h
    | none =>
        dsimp only at h
        split at h
        · cases h
        · next k file hupd =>
            refine ⟨k, file, hupd, ?_⟩
            have hflush := Except.ok.inj h
            rw [PageMgr.flushTemp] at hflush
            split at hflush
            · next hpos =>
                split at hflush
                · cases hflush
                · cases hflush
                  exact ⟨rfl, (if_neg (List.length_pos_iff.mp hpos)).symm⟩
            · next hnone =>
                cases hflush
                have hnil : pm₁.temp = [] :=
                  List.length_eq_zero_iff.mp (Nat.eq_zero_of_not_pos hnone)
                rw [hnil]
                exact ⟨by simp, (if_pos rfl).symm⟩

theorem flushUpdates_calls {ups : List Update} {f f' : File}
    (h : PageMgr.flushUpdates w ups n f = (k, none, f')) :
    ∀ up ∈ ups, w.error (.writePage up.1) = none := by
  induction ups generalizing n f with
  | nil => exact fun _ hup => absurd hup List.not_mem_nil
  | cons up ups ih =>
      obtain ⟨ptr, page⟩ := up
      rw [PageMgr.flushUpdates] at h
      split at h
      · cases h
      · next hquiet =>
          dsimp only at h
          split at h
          · cases h
          · exact List.forall_mem_cons.mpr ⟨hquiet, ih h⟩

/-- A flush that reports no error: none of the calls it had to make
failed. -/
theorem flushPages_calls (h : pm.flushPages w = .ok (n, none, pm'))
    (hpending : pm.temp ≠ [] ∨ pm.updates ≠ ∅) :
    (pm.total < (pm.flushed.toNat + pm.temp.length) * pageSize → w.error .mmap = none)
      ∧ (∀ ptr ∈ pm.updates, w.error (.writePage ptr) = none)
      ∧ (pm.temp ≠ [] → w.error .writeTemp = none) := by
  rw [PageMgr.flushPages] at h
  split at h
  · next hidle =>
      have hnone : pm.updates = ∅ := AList.ext (List.length_eq_zero_iff.mp hidle.2)
      exact absurd (List.length_eq_zero_iff.mp hidle.1) (hpending.resolve_right (· hnone))
  obtain ⟨⟨err, pm₁⟩, hmap, h⟩ := bind_eq_ok.mp h
  obtain ⟨-, -, htemp, hupdates⟩ := extendMMap_same hmap
  rw [← htemp, ← hupdates]
  cases err with
  | some e => cases h
  | none =>
      dsimp only at h
      split at h
      · cases h
      next k file hupd =>
      refine ⟨fun hlt => ?_, fun ptr hptr => ?_, fun hne => ?_⟩
      · rw [PageMgr.extendMMap, if_neg (Nat.not_le.mpr (htemp ▸ hlt))] at hmap
        obtain ⟨alloc, -, hmap⟩ := bind_eq_ok.mp hmap
        cases hw : w.error .mmap with
        | none => rfl
        | some e =>
            rw [hw] at hmap
            cases hmap
      · obtain ⟨page, hpage⟩ := List.exists_of_mem_keys (AList.mem_keys.mp hptr)
        exact flushUpdates_calls hupd ⟨ptr, page⟩ ((w.visit.perm _).mem_iff.mpr hpage)
      · have hflush := Except.ok.inj h
        rw [PageMgr.flushTemp, if_pos (List.length_pos_iff.mpr hne)] at hflush
        cases hw : w.error .writeTemp with
        | none => rfl
        | some e =>
            rw [hw] at hflush
            cases hflush

theorem flushPages_returns (w : World) (pm : PageMgr)
    (h : (pm.flushed.toNat + pm.temp.length) * pageSize < 2 ^ 62) :
    ∃ n err pm', pm.flushPages w = .ok (n, err, pm') := by
  rw [PageMgr.flushPages]
  split
  · exact ⟨_, _, _, rfl⟩
  · obtain ⟨err, pm', hmap⟩ := PageMgr.extendMMap_returns w pm h
    dsimp only
    rw [hmap, ok_bind]
    cases err with
    | some e => exact ⟨_, _, _, rfl⟩
    | none =>
        dsimp only
        split <;> exact ⟨_, _, _, rfl⟩

/-- A flush of new pages alone fails only if a call of it does. -/
theorem flushPages_error {e : String} (h : pm.flushPages w = .ok (n, some e, pm'))
    (hnone : pm.updates = ∅) : w.error .mmap ≠ none ∨ w.error .writeTemp ≠ none := by
  by_contra hquiet
  obtain ⟨hmap, htemp⟩ := not_or.mp hquiet
  rw [not_not] at hmap htemp
  rw [PageMgr.flushPages] at h
  split at h
  · cases h
  · obtain ⟨⟨err, pm₁⟩, hext, h⟩ := bind_eq_ok.mp h
    obtain ⟨-, -, -, hupd⟩ := extendMMap_same hext
    obtain rfl : err = none := by
      obtain ⟨-, herr, -⟩ | ⟨e, -, he, -⟩ | ⟨alloc, -, herr, -⟩ := PageMgr.extendMMap_cases hext
      · exact herr
      · rw [hmap] at he
        cases he
      · exact herr
    have horder : w.visit.order pm₁.updates.entries = [] := by
      rw [hupd, hnone]
      exact List.perm_nil.mp (w.visit.perm [])
    dsimp only at h
    rw [horder] at h
    dsimp only [PageMgr.flushUpdates] at h
    rw [PageMgr.flushTemp, htemp] at h
    split at h <;> cases h

/-- A flush of new pages alone, when nothing fails. -/
theorem flushPages_new (pm : PageMgr) (hw : w.Quiet) (hnone : pm.updates = ∅)
    (hsize : (pm.flushed.toNat + pm.temp.length) * pageSize < 2 ^ 62) :
    ∃ n pm', pm.flushPages w = .ok (n, none, pm') := by
  obtain ⟨n, err, pm', h⟩ := flushPages_returns w pm hsize
  cases err with
  | none => exact ⟨n, pm', h⟩
  | some e =>
      rcases flushPages_error h hnone with hmap | htemp
      · exact absurd (hw _) hmap
      · exact absurd (hw _) htemp

/-- The buffers that the tree hands over are whole pages. -/
def Buffers (temp : List Bytes) : Prop :=
  ∀ b ∈ temp, b.length = pageSize ∨ b.length = 2 * pageSize

theorem Buffers.length {temp : List Bytes} (h : Buffers temp) :
    temp.length * pageSize ≤ temp.flatten.length ∧ temp.flatten.length % pageSize = 0 := by
  induction temp with
  | nil => exact ⟨Nat.le_refl _, rfl⟩
  | cons b temp ih =>
      obtain ⟨hle, hmod⟩ := ih fun c hc => h c (List.mem_cons_of_mem _ hc)
      have hb := h b (List.mem_cons_self ..)
      rw [List.flatten_cons, List.length_append, List.length_cons]
      simp only [pageSize] at *
      omega

/-- Pages of one size, end to end. -/
theorem flatten_page {temp : List Bytes} {i : Nat}
    (hlen : ∀ b ∈ temp, b.length = pageSize) (hi : i * pageSize < temp.flatten.length) :
    ∃ page, temp[i]? = some page ∧ slice temp.flatten (i * pageSize) pageSize = page := by
  induction temp generalizing i with
  | nil => exact absurd hi (Nat.not_lt_zero _)
  | cons b temp ih =>
      have hb := hlen b (List.mem_cons_self ..)
      cases i with
      | zero =>
          refine ⟨b, rfl, ?_⟩
          rw [Nat.zero_mul, slice_zero, List.flatten_cons, ← hb, List.take_left]
      | succ i =>
          rw [List.flatten_cons, List.length_append, hb, Nat.succ_mul] at hi
          obtain ⟨page, hpage, hslice⟩ :=
            ih (fun c hc => hlen c (List.mem_cons_of_mem _ hc)) (i := i) (by omega)
          refine ⟨page, hpage, ?_⟩
          rw [← hslice, List.flatten_cons, slice, slice, Nat.succ_mul, Nat.add_comm, ← hb,
            ← List.drop_drop, List.drop_left]

/-- The page lies in the run of the new pages. -/
def Covered (pm : PageMgr) (ptr : Ptr) : Prop :=
  ∃ i, i * pageSize < pm.temp.flatten.length ∧ ptr.toNat = pm.flushed.toNat + i

/-- The bytes of the file after a flush. -/
theorem flushPages_bytes (hbuf : Buffers pm.temp)
    (h : pm.flushPages w = .ok (n, none, pm')) (ptr : Ptr) {j : Nat} (hj : j < pageSize) :
    (∀ i, i * pageSize < pm.temp.flatten.length → ptr.toNat = pm.flushed.toNat + i →
        pm'.file.bytes[ptr.toNat * pageSize + j]? = pm.temp.flatten[i * pageSize + j]?)
      ∧ (¬ Covered pm ptr → ∀ page, pm.updates.lookup ptr = some page →
          pm'.file.bytes[ptr.toNat * pageSize + j]? = page[j]?)
      ∧ (¬ Covered pm ptr → pm.updates.lookup ptr = none →
          ptr.toNat * pageSize + j < pm.file.bytes.length →
          pm'.file.bytes[ptr.toNat * pageSize + j]?
            = pm.file.bytes[ptr.toNat * pageSize + j]?) := by
  obtain ⟨k, f, hupd, -, hfile⟩ := flushPages_ok h
  have hperm := w.visit.perm pm.updates.entries
  have hnodup : ((w.visit.order pm.updates.entries).map Sigma.fst).Nodup :=
    (hperm.map Sigma.fst).nodup_iff.mpr pm.updates.nodupKeys
  obtain ⟨hgrow, hups, hrest⟩ := flushUpdates_bytes hnodup hupd
  obtain ⟨-, hmod⟩ := hbuf.length
  -- outside the run of the new pages the second phase changes nothing
  have hkeep : ¬ Covered pm ptr → ptr.toNat * pageSize + j < f.bytes.length →
      pm'.file.bytes[ptr.toNat * pageSize + j]? = f.bytes[ptr.toNat * pageSize + j]? := by
    intro hout hlt
    rw [hfile]
    split
    · rfl
    · refine overwrite_outside _ _ hlt ?_
      by_contra hin
      refine hout ⟨ptr.toNat - pm.flushed.toNat, ?_⟩
      simp only [pageSize] at hin hj ⊢
      omega
  refine ⟨?_, ?_, ?_⟩
  · intro i hi hptr
    have hne : pm.temp ≠ [] := by
      rintro hnil
      rw [hnil] at hi
      exact Nat.not_lt_zero _ hi
    have hin : i * pageSize + j < pm.temp.flatten.length := by
      simp only [pageSize, Nat.mul_comm _ 4096] at hi hj hmod ⊢
      omega
    rw [hfile, if_neg hne, hptr, Nat.add_mul, Nat.add_assoc]
    exact overwrite_inside _ _ hin
  · intro hout page hpage
    obtain ⟨hlt, hbyte⟩ :=
      hups ⟨ptr, page⟩ (hperm.mem_iff.mpr (AList.mem_lookup_iff.mp hpage)) j hj
    rw [hkeep hout hlt]
    exact hbyte
  · intro hout hnone hlt
    have hnot : ptr ∉ (w.visit.order pm.updates.entries).map Sigma.fst := by
      rw [(hperm.map Sigma.fst).mem_iff]
      exact AList.lookup_eq_none.mp hnone
    rw [hkeep hout (by omega)]
    exact hrest ptr hnot j hj hlt

-- ========================================================= the log

/-- A page that is not a new one is pending exactly as an update, and the
new pages have the buffers of the tree. -/
structure PageLog.Kept (x : PageLog) (file : File) : Prop where
  latest : ∀ ptr, (∀ j, j < x.pm.temp.length → ptr ≠ x.pm.flushed + UInt64.ofNat j) →
    x.latest ptr = x.pm.updates.lookup ptr
  buffers : Buffers x.pm.temp
  file : x.pm.file = file

theorem PageLog.Kept.start (h : Buffers pm.temp) : (PageLog.start pm).Kept pm.file where
  latest ptr hptr := by
    show pm.pending ptr = pm.updates.lookup ptr
    rw [PageMgr.pending]
    cases pm.updates.lookup ptr with
    | some page => rfl
    | none =>
        refine List.getElem?_eq_none (Nat.not_lt.mp fun hlt => hptr _ hlt ?_)
        show ptr = pm.flushed + UInt64.ofNat (ptr - pm.flushed).toNat
        rw [UInt64.ofNat_toNat, UInt64.add_comm, UInt64.sub_add_cancel]
  buffers := h
  file := rfl

/-- `Write` reads and copies, and hands out the page as an update. -/
theorem write_ok {ptr : Ptr} {page : Bytes} (h : pm.write ptr = .ok (page, pm')) :
    pm' = pm ∨ pm' = pm.poke ptr page := by
  rw [PageMgr.write] at h
  split at h
  · cases h
    exact Or.inl rfl
  · obtain ⟨old, -, h⟩ := bind_eq_ok.mp h
    obtain ⟨existing, -, h⟩ := bind_eq_ok.mp h
    cases h
    exact Or.inr rfl

theorem poke_same {ptr : Ptr} {page page' : Bytes} (h : pm.write ptr = .ok (page, pm')) :
    (pm'.poke ptr page').temp = pm.temp ∧ (pm'.poke ptr page').flushed = pm.flushed
      ∧ (pm'.poke ptr page').file = pm.file
      ∧ ∀ q, (pm'.poke ptr page').updates.lookup q
          = if q = ptr then some page' else pm.updates.lookup q := by
  have hlookup : ∀ (u : AList fun _ : Ptr => Bytes) b q,
      (u.insert ptr b).lookup q = if q = ptr then some b else u.lookup q := by
    intro u b q
    by_cases hq : q = ptr
    · rw [hq, AList.lookup_insert, if_pos rfl]
    · rw [AList.lookup_insert_ne hq, if_neg hq]
  rcases write_ok h with rfl | rfl
  · exact ⟨rfl, rfl, rfl, hlookup _ _⟩
  · refine ⟨rfl, rfl, rfl, fun q => ?_⟩
    show AList.lookup q ((pm.updates.insert ptr page).insert ptr page') = _
    rw [hlookup, hlookup]
    split
    · rfl
    · rfl

theorem PageLog.Kept.step {file : File} (h : x.Kept file) {c : PageUse}
    (hbuf : ∀ b, c = .alloc b → b.length = pageSize ∨ b.length = 2 * pageSize)
    (hstep : x.step c = .ok y) : y.Kept file := by
  cases c with
  | alloc page =>
      cases hstep
      refine ⟨fun ptr hptr => ?_, ?_, h.file⟩
      · have hlen : (x.pm.temp ++ [page]).length = x.pm.temp.length + 1 :=
          List.length_append
        have hnew := hptr x.pm.temp.length (by rw [hlen]; exact Nat.lt_succ_self _)
        show Function.update x.latest _ _ ptr = _
        rw [Function.update_of_ne hnew]
        exact h.latest ptr fun j hj => hptr j (by rw [hlen]; exact Nat.lt_succ_of_lt hj)
      · intro b hb
        rcases List.mem_append.mp hb with hb | hb
        · exact h.buffers b hb
        · rw [List.mem_singleton.mp hb]
          exact hbuf page rfl
  | write ptr edit =>
      obtain ⟨⟨page, pm⟩, hwrite, hstep⟩ := bind_eq_ok.mp hstep
      cases hstep
      obtain ⟨htemp, hflushed, hfile, hupd⟩ := poke_same hwrite
      refine ⟨fun q hq => ?_, ?_, hfile.trans h.file⟩
      · dsimp only at hq ⊢
        rw [htemp, hflushed] at hq
        rw [hupd q]
        by_cases hptr : q = ptr
        · rw [hptr, Function.update_self, if_pos rfl]
        · rw [Function.update_of_ne hptr, if_neg hptr]
          exact h.latest q hq
      · show Buffers (pm.poke ptr (edit.apply page)).temp
        rw [htemp]
        exact h.buffers

theorem PageLog.Kept.run {file : File} {calls : List PageUse}
    (hbuf : ∀ b, .alloc b ∈ calls → b.length = pageSize ∨ b.length = 2 * pageSize)
    (h : x.Kept file) (hrun : x.run calls = .ok y) : y.Kept file := by
  induction calls generalizing x with
  | nil =>
      cases hrun
      exact h
  | cons c calls ih =>
      obtain ⟨z, hstep, hrun⟩ := bind_eq_ok.mp hrun
      refine ih (fun b hb => hbuf b (List.mem_cons_of_mem _ hb)) ?_ hrun
      exact h.step (fun b hb => hbuf b (hb ▸ List.mem_cons_self ..)) hstep

-- ================================================= where pages are

/-- New pages whose offsets fit into the file's 63 bits are all in the
run. -/
theorem covered_new (hbuf : Buffers pm.temp)
    (hrange : (pm.flushed.toNat + pm.temp.length) * pageSize < 2 ^ 63) {j : Nat}
    (hj : j < pm.temp.length) : Covered pm (pm.flushed + UInt64.ofNat j) := by
  have hle := hbuf.length.1
  simp only [pageSize, Nat.mul_comm _ 4096] at hrange hle
  refine ⟨j, ?_, ?_⟩
  · simp only [pageSize, Nat.mul_comm _ 4096]
    omega
  · have hsize : j < UInt64.size := by
      show j < 2 ^ 64
      omega
    rw [UInt64.toNat_add, UInt64.toNat_ofNat_of_lt' hsize]
    omega

theorem PageLog.Kept.placed_iff_laidOut {file : File} (h : x.Kept file)
    (hrange : (x.pm.flushed.toNat + x.pm.temp.length) * pageSize < 2 ^ 63)
    (hflush : x.pm.flushPages w = .ok (n, none, pm')) :
    Placed x.latest file.bytes pm'.file.bytes ↔ x.LaidOut := by
  rw [← h.file]
  have hbytes := fun ptr {j} (hj : j < pageSize) => flushPages_bytes h.buffers hflush ptr hj
  constructor
  · intro hplaced i ptr hi hptr
    have hp := hplaced ptr
    cases hlatest : x.latest ptr with
    | some page =>
        rw [hlatest] at hp
        refine slice_eq_take_iff.mpr fun j hj => ?_
        rw [← (hbytes ptr hj).1 i hi hptr]
        exact slice_eq_take_iff.mp hp j hj
    | none =>
        rw [hlatest] at hp
        intro j hj hbelow
        rw [← (hbytes ptr hj).1 i hi hptr]
        exact hp j hj hbelow
  · intro hlaid ptr
    by_cases hcov : Covered x.pm ptr
    · obtain ⟨i, hi, hptr⟩ := hcov
      have hp := hlaid i ptr hi hptr
      cases hlatest : x.latest ptr with
      | some page =>
          rw [hlatest] at hp
          refine slice_eq_take_iff.mpr fun j hj => ?_
          rw [(hbytes ptr hj).1 i hi hptr]
          exact slice_eq_take_iff.mp hp j hj
      | none =>
          rw [hlatest] at hp
          intro j hj hbelow
          rw [(hbytes ptr hj).1 i hi hptr]
          exact hp j hj hbelow
    · have hupd : x.latest ptr = x.pm.updates.lookup ptr :=
        h.latest ptr fun j hj heq => hcov (heq ▸ covered_new h.buffers hrange hj)
      cases hlatest : x.latest ptr with
      | some page =>
          refine slice_eq_take_iff.mpr fun j hj => ?_
          exact (hbytes ptr hj).2.1 hcov page (hupd ▸ hlatest)
      | none =>
          intro j hj hbelow
          exact (hbytes ptr hj).2.2 hcov (hupd ▸ hlatest) hbelow

/-- After any calls and a flush without an error, every pending page is
where its number says and the rest of the file is unchanged, exactly if
the buffers of the new pages, end to end, have at each page what it is to
hold. -/
theorem flushPages_placed_iff (pm : PageMgr) (calls : List PageUse)
    (hbuf : ∀ b, b ∈ pm.temp ∨ .alloc b ∈ calls →
      b.length = pageSize ∨ b.length = 2 * pageSize)
    (hrun : (PageLog.start pm).run calls = .ok x)
    (hrange : (x.pm.flushed.toNat + x.pm.temp.length) * pageSize < 2 ^ 63)
    (hflush : x.pm.flushPages w = .ok (n, none, pm')) :
    Placed x.latest pm.file.bytes pm'.file.bytes ↔ x.LaidOut := by
  have hstart := PageLog.Kept.start fun b hb => hbuf b (Or.inl hb)
  exact (hstart.run (fun b hb => hbuf b (Or.inr hb)) hrun).placed_iff_laidOut hrange hflush

/-- Buffers of one page each, none of them written to after its `Alloc`,
are laid out as their numbers say. -/
theorem laidOut_of_pages (hlen : ∀ b ∈ x.pm.temp, b.length = pageSize)
    (hlatest : ∀ (i : Nat) (ptr : Ptr) page, x.pm.temp[i]? = some page →
      ptr.toNat = x.pm.flushed.toNat + i → x.latest ptr = some page) : x.LaidOut := by
  intro i ptr hi hptr
  obtain ⟨page, hpage, hslice⟩ := flatten_page hlen hi
  rw [hlatest i ptr page hpage hptr]
  have hfull : page.take pageSize = page :=
    List.take_of_length_le (Nat.le_of_eq (hlen page (List.mem_of_getElem? hpage)))
  exact hslice.trans hfull.symm

/-- Every byte of a page replaced by 9. -/
def nines : Edit := ⟨fun page => List.replicate page.length 9, fun _ => List.length_replicate⟩

/-- A file of one page, which is mapped. -/
def onePage : PageMgr :=
  { newPageMgr ⟨make pageSize, []⟩ with total := pageSize, chunks := [⟨0, pageSize⟩], flushed := 1 }

/-- A `Write` of its page and two new pages behind it. -/
def writeAndAlloc : List PageUse :=
  [.write 0 nines, .alloc (List.replicate pageSize 1), .alloc (List.replicate pageSize 2)]

/-- A flush puts all three where they belong. -/
theorem flushPages_placed_iff_three :
    ∃ x n pm', (PageLog.start onePage).run writeAndAlloc = .ok x
      ∧ x.pm.flushPages .calm = .ok (n, none, pm')
      ∧ x.latest 0 = some (List.replicate pageSize 9)
      ∧ x.LaidOut ∧ Placed x.latest (make pageSize) pm'.file.bytes := by
  have hok : ((PageLog.start onePage).run writeAndAlloc >>= fun x =>
      x.pm.flushPages .calm >>= fun r => pure (r.2.1, (x.latest 0).map List.length))
      = .ok (none, some pageSize) := by decide +kernel
  obtain ⟨x, hrun, hok⟩ := bind_eq_ok.mp hok
  obtain ⟨⟨n, err, pm'⟩, hflush, hok⟩ := bind_eq_ok.mp hok
  obtain ⟨rfl, hlen⟩ := Prod.mk.inj (Except.ok.inj hok)
  obtain ⟨hflushed, htemp, h₀, h₁, h₂⟩ : x.pm.flushed = 1
      ∧ x.pm.temp = [List.replicate pageSize 1, List.replicate pageSize 2]
      ∧ x.latest 0 = some (List.replicate pageSize 9)
      ∧ x.latest 1 = some (List.replicate pageSize 1)
      ∧ x.latest 2 = some (List.replicate pageSize 2) := by
    obtain ⟨x₁, hstep, hrest⟩ := bind_eq_ok.mp hrun
    obtain ⟨⟨page, pm⟩, hwrite, hstep⟩ := bind_eq_ok.mp hstep
    cases hstep
    cases hrest
    have hnine : ∀ {k}, (nines.apply page).length = k →
        some (nines.apply page) = some (List.replicate k 9) := by
      rintro _ rfl
      exact congrArg (fun k => some (List.replicate k 9)) (nines.length_apply page).symm
    rcases write_ok hwrite with rfl | rfl
    · exact ⟨rfl, rfl, hnine (Option.some.inj hlen), rfl, rfl⟩
    · exact ⟨rfl, rfl, hnine (Option.some.inj hlen), rfl, rfl⟩
  have hlaid : x.LaidOut := by
    refine laidOut_of_pages (by rw [htemp]; simp) ?_
    rw [htemp, hflushed]
    intro i ptr page hpage hptr
    rcases i with _ | _ | i
    · cases hpage
      rwa [show ptr = 1 from UInt64.toNat_inj.mp hptr]
    · cases hpage
      rwa [show ptr = 2 from UInt64.toNat_inj.mp hptr]
    · cases hpage
  refine ⟨x, n, pm', hrun, hflush, h₀, hlaid, ?_⟩
  refine (flushPages_placed_iff onePage writeAndAlloc ?_ hrun ?_ hflush).mpr hlaid
  · simp [onePage, writeAndAlloc, newPageMgr]
  · rw [hflushed, htemp]
    decide

/-- Two new pages, the first with a buffer of two pages. -/
def twoBuffers : List Bytes := [make (2 * pageSize), List.replicate pageSize 1]

/-- The second page ends up behind the second half of the first buffer. -/
theorem flushPages_misplaces :
    ∃ x n pm', (PageLog.start (newPageMgr ⟨[], []⟩)).run (twoBuffers.map .alloc) = .ok x
      ∧ x.pm.flushPages .calm = .ok (n, none, pm')
      ∧ x.latest 1 = some (List.replicate pageSize 1)
      ∧ pm'.file.bytes[pageSize]? = some 0
      ∧ ¬ Placed x.latest [] pm'.file.bytes := by
  have hbuf : Buffers twoBuffers := by
    intro b hb
    rcases List.mem_cons.mp hb with rfl | hb
    · exact Or.inr (length_make _)
    · rw [List.mem_singleton.mp hb]
      exact Or.inl List.length_replicate
  obtain ⟨n, pm', hflush⟩ := flushPages_new (w := .calm)
    { newPageMgr ⟨[], []⟩ with temp := twoBuffers } (fun _ => rfl) rfl (by decide)
  -- the second page of the run is the second half of the first buffer
  have hbyte : pm'.file.bytes[pageSize]? = some 0 := by
    have hlen := hbuf.length.1
    have hpage := (flushPages_bytes hbuf hflush 1 (j := 0) (by decide)).1 1 (by
      have htwo : twoBuffers.length = 2 := rfl
      rw [htwo] at hlen
      rw [pageSize] at hlen ⊢
      dsimp only
      omega) rfl
    refine hpage.trans ?_
    show (make (2 * pageSize) ++ _)[1 * pageSize + 0]? = some 0
    rw [List.getElem?_append_left (by rw [length_make]; decide)]
    exact List.getElem?_replicate_of_lt (by decide)
  refine ⟨_, n, pm', rfl, hflush, rfl, hbyte, fun hplaced => ?_⟩
  have hone := slice_eq_take_iff.mp (hplaced 1) 0 (by decide)
  rw [List.getElem?_replicate_of_lt (by decide)] at hone
  exact absurd (hbyte.symm.trans hone) (by decide)

end Svacara.Storage
