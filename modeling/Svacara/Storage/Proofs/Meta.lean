/-
The meta page round-trips, and a page without the signature is refused.

The fields are written one behind the other, so writing them all is one
overwrite of the front of the page (`writeMeta_eq`). The checksum covers
neither its own four bytes nor the first four of the page, hence storing
it leaves what it covers alone.
-/
import Svacara.Btree.Proofs.Node
import Svacara.Storage.Recovery

namespace Svacara.Storage

open Buf Outcome

-- ====================================================== the fields

/-- The fields of the meta page behind the signature. -/
def Meta.words (d : Meta) : List UInt64 :=
  [d.root, d.flushed, d.headPage, d.headSeq, d.tailPage, d.tailSeq]

/-- The signature and the first `n` fields. -/
def Meta.front (d : Meta) (n : Nat) : Bytes :=
  metaSig ++ (d.words.take n).flatMap fun x => leBytes 8 x.toNat

/-- The front of the meta page. -/
def Meta.bytes (d : Meta) : Bytes := d.front 6

variable {page : Bytes} {d : Meta} {n : Nat} {x : UInt64}

theorem length_words (xs : List UInt64) :
    (xs.flatMap fun x => leBytes 8 x.toNat).length = 8 * xs.length := by
  induction xs with
  | nil => rfl
  | cons x xs ih =>
      rw [List.flatMap_cons, List.length_append, ih, length_leBytes, List.length_cons]
      omega

theorem Meta.length_front (hn : n ≤ 6) : (d.front n).length = sigSize + 8 * n := by
  have hwords : d.words.length = 6 := rfl
  rw [Meta.front, List.length_append, length_words, List.length_take, hwords,
    Nat.min_eq_left hn]
  rfl

theorem Meta.lt_of_field (hx : d.words[n]? = some x) : n < 6 :=
  (List.getElem?_eq_some_iff.mp hx).1

theorem Meta.front_succ (hx : d.words[n]? = some x) :
    d.front (n + 1) = d.front n ++ leBytes 8 x.toNat := by
  obtain ⟨hn, rfl⟩ := List.getElem?_eq_some_iff.mp hx
  rw [Meta.front, Meta.front, List.take_succ_eq_append_getElem hn, List.flatMap_append,
    List.flatMap_singleton, List.append_assoc]

/-- Field `n` goes behind the ones before it. -/
theorem put_field (hlen : page.length = pageSize) (hx : d.words[n]? = some x) :
    Btree.putUintAt 8 (splice page (d.front n) 0) (sigSize + 8 * n) x.toNat
      = .ok (splice page (d.front (n + 1)) 0) := by
  have hsize : pageSize = 4096 := rfl
  have hsig : sigSize = 16 := rfl
  have hn := Meta.lt_of_field hx
  have hfront : (d.front n).length = sigSize + 8 * n := Meta.length_front (by omega)
  have hlen' : (splice page (d.front n) 0).length = page.length :=
    length_splice page (d.front n) (by omega)
  have hadd : splice (splice page (d.front n) 0) (leBytes 8 x.toNat)
      (0 + (d.front n).length) = splice page (d.front n ++ leBytes 8 x.toNat) 0 :=
    splice_splice _ _ _ (by rw [length_leBytes]; omega)
  rw [Nat.zero_add, hfront] at hadd
  rw [Btree.putUintAt_of (by omega), hadd, Meta.front_succ hx]

theorem writeMeta_eq (hlen : page.length = pageSize) (d : Meta) :
    writeMeta page d = .ok (splice page d.bytes 0) := by
  have hsize : pageSize = 4096 := rfl
  have hsig : Btree.copyAt page 0 metaSig = .ok (splice page (d.front 0) 0) :=
    Btree.copyAt_of (by rw [hlen]; decide)
  have hroot : Btree.putUintAt 8 (splice page (d.front 0) 0) metaOffRoot d.root.toNat
      = .ok (splice page (d.front 1) 0) := put_field hlen rfl
  have hused : Btree.putUintAt 8 (splice page (d.front 1) 0) metaOffUsed d.flushed.toNat
      = .ok (splice page (d.front 2) 0) := put_field hlen rfl
  have hhead : Btree.putUintAt 8 (splice page (d.front 2) 0) metaOffFree d.headPage.toNat
      = .ok (splice page (d.front 3) 0) := put_field hlen rfl
  have hheadSeq : Btree.putUintAt 8 (splice page (d.front 3) 0) (metaOffFree + 8)
      d.headSeq.toNat = .ok (splice page (d.front 4) 0) := put_field hlen rfl
  have htail : Btree.putUintAt 8 (splice page (d.front 4) 0) (metaOffFree + 16)
      d.tailPage.toNat = .ok (splice page (d.front 5) 0) := put_field hlen rfl
  have htailSeq : Btree.putUintAt 8 (splice page (d.front 5) 0) (metaOffFree + 24)
      d.tailSeq.toNat = .ok (splice page (d.front 6) 0) := put_field hlen rfl
  rw [writeMeta, hsig, ok_bind, hroot, ok_bind, hused, ok_bind, hhead, ok_bind,
    hheadSeq, ok_bind, htail, ok_bind, htailSeq]
  rfl

/-- Field `n` of a page with that front. -/
theorem wordAt_field (hlen : page.length = pageSize) (hfront : slice page 0 64 = d.bytes)
    (hx : d.words[n]? = some x) : wordAt page (sigSize + 8 * n) = .ok x := by
  have hsize : pageSize = 4096 := rfl
  have hsig : sigSize = 16 := rfl
  have hn := Meta.lt_of_field hx
  -- the front splits at the field
  have hsplit : d.bytes = d.front n ++ (leBytes 8 x.toNat
      ++ (d.words.drop (n + 1)).flatMap fun x => leBytes 8 x.toNat) := by
    rw [← List.append_assoc, ← Meta.front_succ hx, Meta.front, List.append_assoc,
      ← List.flatMap_append, List.take_append_drop]
    rfl
  have hword : slice page (sigSize + 8 * n) 8 = leBytes 8 x.toNat := by
    have hinside : slice (slice page 0 64) (sigSize + 8 * n) 8
        = slice page (0 + (sigSize + 8 * n)) 8 := slice_slice page (by omega)
    rw [Nat.zero_add] at hinside
    rw [← hinside, hfront, hsplit]
    exact slice_mid _ _ _ (Meta.length_front (by omega)).symm (length_leBytes ..).symm
  have hlt : x.toNat < 256 ^ 8 := x.toNat_lt
  rw [wordAt, Btree.uintAt_of hword hlt (by omega), ok_bind, UInt64.ofNat_toNat]
  rfl

theorem readMeta_eq (hlen : page.length = pageSize) (hfront : slice page 0 64 = d.bytes) :
    readMeta page = .ok (some d) := by
  have hsize : pageSize = 4096 := rfl
  have hslice : Btree.sliceAt page 0 sigSize = .ok metaSig := by
    rw [Btree.sliceAt, if_pos (by rw [hlen]; decide)]
    have hinside : slice (slice page 0 64) 0 sigSize = slice page (0 + 0) sigSize :=
      slice_slice page (by decide)
    rw [Nat.zero_add] at hinside
    rw [← hinside, hfront]
    exact congrArg _ (slice_mid [] metaSig _ rfl rfl)
  have hroot : wordAt page metaOffRoot = .ok d.root :=
    wordAt_field (n := 0) hlen hfront rfl
  have hused : wordAt page metaOffUsed = .ok d.flushed :=
    wordAt_field (n := 1) hlen hfront rfl
  have hhead : wordAt page metaOffFree = .ok d.headPage :=
    wordAt_field (n := 2) hlen hfront rfl
  have hheadSeq : wordAt page (metaOffFree + 8) = .ok d.headSeq :=
    wordAt_field (n := 3) hlen hfront rfl
  have htail : wordAt page (metaOffFree + 16) = .ok d.tailPage :=
    wordAt_field (n := 4) hlen hfront rfl
  have htailSeq : wordAt page (metaOffFree + 24) = .ok d.tailSeq :=
    wordAt_field (n := 5) hlen hfront rfl
  rw [readMeta, hslice, ok_bind, if_neg (not_not.mpr rfl), hroot, ok_bind, hused, ok_bind,
    hhead, ok_bind, hheadSeq, ok_bind, htail, ok_bind, htailSeq]
  rfl

-- ==================================================== the checksum

theorem checksum_eq (hlen : page.length = pageSize) :
    checksum page = .ok (checksumIEEE (slice page 4 (checksumOff - 4))) := by
  rw [checksum, Btree.sliceAt, if_pos (by rw [hlen]; decide)]
  rfl

/-- The meta page is written, and read back as it was written. -/
theorem writeMetaFull_spec (d : Meta) :
    ∃ page, writeMetaFull (make pageSize) d = .ok page ∧ page.length = pageSize
      ∧ readMetaSafe page = .ok (some d) := by
  have hsize : pageSize = 4096 := rfl
  have hoff : checksumOff = 4092 := rfl
  have hblank : (make pageSize).length = pageSize := length_make _
  have hbytes : d.bytes.length = 64 := Meta.length_front (Nat.le_refl 6)
  -- the page without its checksum
  obtain ⟨body, hbody⟩ : ∃ body, body = splice (make pageSize) d.bytes 0 := ⟨_, rfl⟩
  have hlen : body.length = pageSize := by
    rw [hbody, length_splice _ _ (by omega), hblank]
  have hfront : slice body 0 64 = d.bytes := by
    rw [hbody, ← hbytes]
    exact slice_splice_self _ _ (by omega)
  obtain ⟨sum, hsum⟩ : ∃ sum, sum = checksumIEEE (slice body 4 (checksumOff - 4)) :=
    ⟨_, rfl⟩
  have hfit : checksumOff + (leBytes 4 sum.toNat).length ≤ body.length := by
    rw [length_leBytes]
    omega
  obtain ⟨page, hpage⟩ : ∃ page, page = splice body (leBytes 4 sum.toNat) checksumOff :=
    ⟨_, rfl⟩
  have hlen' : page.length = pageSize := by
    rw [hpage, length_splice _ _ hfit, hlen]
  -- what lies before the checksum is as in the body
  have hkeep : ∀ {p len : Nat}, p + len ≤ checksumOff →
      slice page p len = slice body p len := by
    intro p len hp
    rw [hpage]
    exact slice_splice_of_disjoint _ _ hfit (Or.inl hp)
  have hstored : Btree.uintAt 4 page checksumOff = .ok sum.toNat := by
    refine Btree.uintAt_of ?_ sum.toNat_lt (by omega)
    rw [hpage]
    have hself := slice_splice_self body (leBytes 4 sum.toNat) hfit
    rwa [length_leBytes] at hself
  refine ⟨page, ?_, hlen', ?_⟩
  · rw [writeMetaFull, writeMeta_eq hblank, ok_bind, ← hbody, checksum_eq hlen, ok_bind,
      ← hsum, hpage]
    exact Btree.putUintAt_of (by omega)
  · have hverify : verifyMeta page = .ok true := by
      rw [verifyMeta, hstored, ok_bind, checksum_eq hlen', ok_bind, hkeep (by omega),
        ← hsum, UInt32.ofNat_toNat, pure_eq_ok]
      simp
    rw [readMetaSafe, hverify, ok_bind]
    exact readMeta_eq hlen' ((hkeep (by omega)).trans hfront)

/-- A page without the signature is not a meta page, whatever its
checksum says. -/
theorem readMetaSafe_unsigned (hlen : page.length = pageSize)
    (hsig : slice page 0 sigSize ≠ metaSig) : readMetaSafe page = .ok none := by
  have hsize : pageSize = 4096 := rfl
  have hoff : checksumOff = 4092 := rfl
  have hread : readMeta page = .ok none := by
    rw [readMeta, Btree.sliceAt, if_pos (by rw [hlen]; decide), ok_bind, if_pos hsig]
    rfl
  have hstored : Btree.uintAt 4 page checksumOff
      = .ok (leNat (slice page checksumOff 4)) := by
    rw [Btree.uintAt, if_pos (by omega)]
  rw [readMetaSafe, verifyMeta, hstored, ok_bind, checksum_eq hlen, ok_bind, pure_eq_ok,
    ok_bind, hread]
  split <;> rfl

end Svacara.Storage
