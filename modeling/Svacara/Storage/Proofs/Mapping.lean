/-
Every page is found where the file has it.

A new chunk begins where the mapped part of the file ends. Its length is
64 MB or that of the mapped part, doubled some number of times, so the
chunks stay end to end and on page boundaries (`Tiled`), and the page
number that `Read` counts up is that of the first page of the chunk it
looks at.

The argument is made on naturals. That the machine computes the same
(`extendMMap_narrow`) needs only that sizes stay below 2^62: the loop
doubles as long as the sum is below the size, so no sum that it forms
reaches 2^63.
-/
import Svacara.Storage.Mapping
import Svacara.Lib.Outcome

namespace Svacara.Storage

open Buf Outcome

-- ========================================================== layout

theorem Contiguous.le {start stop : Nat} {chunks : List Chunk}
    (h : Contiguous start chunks stop) : start ≤ stop := by
  induction chunks generalizing start with
  | nil => exact Nat.le_of_eq h
  | cons c chunks ih => exact Nat.le_trans (Nat.le_add_right _ _) (ih h.2)

theorem Contiguous.concat {start stop : Nat} {chunks : List Chunk}
    (h : Contiguous start chunks stop) (len : Nat) :
    Contiguous start (chunks ++ [⟨stop, len⟩]) (stop + len) := by
  induction chunks generalizing start with
  | nil =>
      obtain rfl : start = stop := h
      exact ⟨rfl, rfl⟩
  | cons c chunks ih => exact ⟨h.1, ih h.2⟩

theorem Contiguous.has_iff {start stop : Nat} {chunks : List Chunk}
    (h : Contiguous start chunks stop) (i : Nat) :
    (∃ c ∈ chunks, c.Has i) ↔ start ≤ i ∧ i < stop := by
  induction chunks generalizing start with
  | nil =>
      obtain rfl : start = stop := h
      constructor
      · intro ⟨c, hc, _⟩
        exact absurd hc List.not_mem_nil
      · omega
  | cons c chunks ih =>
      obtain ⟨hoff, hrest⟩ := h
      have hle := hrest.le
      rw [List.exists_mem_cons_iff, ih hrest, Chunk.Has, hoff]
      omega

theorem tiled_nil : Tiled [] 0 := ⟨rfl, fun _ hc => absurd hc List.not_mem_nil⟩

theorem Contiguous.dvd {start stop : Nat} {chunks : List Chunk}
    (h : Contiguous start chunks stop) (haligned : ∀ c ∈ chunks, c.Aligned)
    (hstart : pageSize ∣ start) : pageSize ∣ stop := by
  induction chunks generalizing start with
  | nil =>
      obtain rfl : start = stop := h
      exact hstart
  | cons c chunks ih =>
      refine ih h.2 (fun d hd => haligned d (List.mem_cons_of_mem _ hd)) ?_
      exact Nat.dvd_add hstart (haligned c (List.mem_cons_self ..)).2

theorem Tiled.concat {chunks : List Chunk} {total len : Nat} (h : Tiled chunks total)
    (hlen : pageSize ∣ len) : Tiled (chunks ++ [⟨total, len⟩]) (total + len) where
  contiguous := h.contiguous.concat len
  aligned := by
    intro c hc
    rcases List.mem_append.mp hc with hc | hc
    · exact h.aligned c hc
    · rw [List.mem_singleton.mp hc]
      exact ⟨h.contiguous.dvd h.aligned (Nat.dvd_zero _), hlen⟩

-- =============================================== the doubling loop

theorem growAlloc_returns (total size : Nat) : ∀ fuel alloc,
    size ≤ total + alloc * 2 ^ fuel →
    ∃ a, PageMgr.growAlloc total size (fuel + 1) alloc = .ok a := by
  intro fuel
  induction fuel with
  | zero =>
      intro alloc h
      rw [pow_zero, Nat.mul_one] at h
      exact ⟨alloc, by rw [PageMgr.growAlloc, if_neg (Nat.not_lt.mpr h)]⟩
  | succ fuel ih =>
      intro alloc h
      rw [PageMgr.growAlloc]
      split
      · apply ih
        rwa [Nat.mul_assoc, ← pow_succ']
      · exact ⟨alloc, rfl⟩

/-- What the loop leaves: enough, by doubling, and not twice too much. -/
theorem growAlloc_spec {total size : Nat} : ∀ {fuel alloc a : Nat},
    PageMgr.growAlloc total size fuel alloc = .ok a →
    alloc ∣ a ∧ size ≤ total + a ∧ (a = alloc ∨ total + a < 2 * size) := by
  intro fuel
  induction fuel with
  | zero =>
      intro alloc a h
      cases h
  | succ fuel ih =>
      intro alloc a h
      rw [PageMgr.growAlloc] at h
      split at h
      · next hless =>
          obtain ⟨hdvd, hle, htwice⟩ := ih h
          refine ⟨Nat.dvd_trans (Nat.dvd_mul_right alloc 2) hdvd, hle, Or.inr ?_⟩
          rcases htwice with rfl | htwice
          · omega
          · exact htwice
      · next hmore =>
          cases h
          exact ⟨Nat.dvd_refl _, Nat.not_lt.mp hmore, Or.inl rfl⟩

namespace PageMgr

variable {w : World} {pm pm' : PageMgr} {size : Nat} {err : Option String}

/-- The length that the loop of `ExtendMMap` starts from. -/
def firstAlloc (total : Nat) : Nat :=
  if total < maxChunkMB * 2 ^ 20 then maxChunkMB * 2 ^ 20 else total

theorem firstAlloc_pos (total : Nat) : 0 < firstAlloc total := by
  have hmax : maxChunkMB * 2 ^ 20 = 67108864 := rfl
  rw [firstAlloc]
  split <;> omega

theorem firstAlloc_lt {total : Nat} (h : total < 2 ^ 62) : total + firstAlloc total < 2 ^ 63 := by
  have hmax : maxChunkMB * 2 ^ 20 = 67108864 := rfl
  rw [firstAlloc, hmax]
  split
  · omega
  · omega

/-- What a call of `ExtendMMap` can do. -/
theorem extendMMap_cases (h : pm.extendMMap w size = .ok (err, pm')) :
    (size ≤ pm.total ∧ err = none ∧ pm' = pm)
      ∨ (∃ e, pm.total < size ∧ w.error .mmap = some e ∧ err = some ("mmap: " ++ e)
        ∧ pm' = pm)
      ∨ ∃ alloc, pm.total < size ∧ err = none
        ∧ growAlloc pm.total size 64 (firstAlloc pm.total) = .ok alloc
        ∧ pm' = { pm with
          total := pm.total + alloc
          chunks := pm.chunks ++ [⟨pm.total, alloc⟩] } := by
  rw [extendMMap] at h
  split at h
  · next hle =>
      cases h
      exact Or.inl ⟨hle, rfl, rfl⟩
  · next hlt =>
      right
      obtain ⟨alloc, halloc, h⟩ := bind_eq_ok.mp h
      split at h
      · next e herr =>
          cases h
          exact Or.inl ⟨e, Nat.not_le.mp hlt, herr, rfl, rfl⟩
      · cases h
        exact Or.inr ⟨alloc, Nat.not_le.mp hlt, rfl, halloc, rfl⟩

theorem extendMMap_returns (w : World) (pm : PageMgr) (h : size < 2 ^ 62) :
    ∃ err pm', pm.extendMMap w size = .ok (err, pm') := by
  rw [extendMMap]
  split
  · exact ⟨none, pm, rfl⟩
  · have hfuel := Nat.mul_le_mul_right (2 ^ 63) (firstAlloc_pos pm.total)
    obtain ⟨a, ha⟩ := growAlloc_returns pm.total size 63 (firstAlloc pm.total) (by omega)
    show ∃ err pm', (growAlloc pm.total size 64 (firstAlloc pm.total) >>= _) = _
    rw [ha, ok_bind]
    split <;> exact ⟨_, _, rfl⟩

theorem extendMMap_total (h : pm.extendMMap w size = .ok (none, pm')) : size ≤ pm'.total := by
  obtain ⟨hle, -, rfl⟩ | ⟨e, -, -, herr, -⟩ | ⟨alloc, -, -, halloc, rfl⟩ := extendMMap_cases h
  · exact hle
  · cases herr
  · exact (growAlloc_spec halloc).2.1

theorem extendMMap_tiled (h : pm.extendMMap w size = .ok (err, pm'))
    (ht : Tiled pm.chunks pm.total) : Tiled pm'.chunks pm'.total := by
  obtain ⟨-, -, rfl⟩ | ⟨e, -, -, -, rfl⟩ | ⟨alloc, -, -, halloc, rfl⟩ := extendMMap_cases h
  · exact ht
  · exact ht
  · apply ht.concat
    refine Nat.dvd_trans ?_ (growAlloc_spec halloc).1
    rw [firstAlloc]
    split
    · decide
    · exact ht.contiguous.dvd ht.aligned (Nat.dvd_zero _)

end PageMgr

-- ========================================================== lookup

theorem pages_le {n total : Nat} (h : pageSize * n ≤ total) : n ≤ total / pageSize := by
  rwa [Nat.le_div_iff_mul_le (by decide), Nat.mul_comm]

theorem readChunks_tiled {file : File} {ptr start total : Nat} {chunks : List Chunk}
    (h : Contiguous (pageSize * start) chunks total) (haligned : ∀ c ∈ chunks, c.Aligned)
    (hstart : start ≤ ptr) :
    readChunks file ptr start chunks
      = if ptr < total / pageSize then file.page (pageSize * ptr)
        else .error (.panic ("bad ptr: " ++ toString ptr)) := by
  induction chunks generalizing start with
  | nil =>
      obtain rfl : pageSize * start = total := h
      rw [readChunks, Nat.mul_div_cancel_left start (by decide), if_neg (Nat.not_lt.mpr hstart)]
  | cons c chunks ih =>
      obtain ⟨hoff, hrest⟩ := h
      obtain ⟨n, hlen⟩ := (haligned c (List.mem_cons_self ..)).2
      rw [hlen, ← Nat.mul_add] at hrest
      have hpages : start + n ≤ total / pageSize := pages_le hrest.le
      rw [readChunks, hlen, Nat.mul_div_cancel_left n (by decide)]
      by_cases hin : ptr < start + n
      · rw [if_pos hin, if_pos (Nat.lt_of_lt_of_le hin hpages), hoff, ← Nat.mul_add,
          Nat.add_sub_cancel' hstart]
      · rw [if_neg hin]
        apply ih hrest
        · exact fun d hd => haligned d (List.mem_cons_of_mem _ hd)
        · exact Nat.not_lt.mp hin

namespace Mapping

/-- The slice that `Read` cuts out of the chunk that has the page. -/
theorem slice_page {c : Chunk} {ptr : Ptr} {start n : Nat} (hlen : c.len = pageSize * n)
    (hstart : start ≤ ptr.toNat) (hptr : ptr.toNat < start + n) (hbound : c.len < 2 ^ 63) :
    c.slice (UInt64.ofNat pageSize * (ptr - UInt64.ofNat start))
        (UInt64.ofNat pageSize * (ptr - UInt64.ofNat start) + UInt64.ofNat pageSize)
      = .ok ⟨c.off + pageSize * (ptr.toNat - start), pageSize⟩ := by
  have hsize : UInt64.size = 2 ^ 64 := rfl
  have hlo : UInt64.ofNat pageSize * (ptr - UInt64.ofNat start)
      = UInt64.ofNat (pageSize * (ptr.toNat - start)) := by
    rw [UInt64.ofNat_mul, UInt64.ofNat_sub hstart, UInt64.ofNat_toNat]
  have hend : pageSize * (ptr.toNat - start) + pageSize ≤ c.len := by
    rw [hlen, ← Nat.mul_succ]
    apply Nat.mul_le_mul_left
    omega
  rw [hlo, ← UInt64.ofNat_add, Chunk.slice, if_pos,
    ← UInt64.ofNat_sub (Nat.le_add_right _ _), Nat.add_sub_cancel_left,
    UInt64.toNat_ofNat_of_lt' (by omega), UInt64.toNat_ofNat_of_lt' (by decide)]
  constructor
  · rw [UInt64.ofNat_le_iff_le (by omega) (by omega)]
    exact Nat.le_add_right _ _
  · rwa [UInt64.toNat_ofNat_of_lt' (by omega)]

theorem lookup_tiled {ptr : Ptr} {start total : Nat} {chunks : List Chunk}
    (h : Contiguous (pageSize * start) chunks total) (haligned : ∀ c ∈ chunks, c.Aligned)
    (htotal : total < 2 ^ 63) (hstart : start ≤ ptr.toNat) :
    lookup ptr (UInt64.ofNat start) chunks
      = if ptr.toNat < total / pageSize then .ok ⟨pageSize * ptr.toNat, pageSize⟩
        else .error (.panic ("bad ptr: " ++ toString ptr.toNat)) := by
  have hsize : UInt64.size = 2 ^ 64 := rfl
  induction chunks generalizing start with
  | nil =>
      obtain rfl : pageSize * start = total := h
      rw [lookup, Nat.mul_div_cancel_left start (by decide), if_neg (Nat.not_lt.mpr hstart)]
  | cons c chunks ih =>
      obtain ⟨hoff, hrest⟩ := h
      obtain ⟨n, hlen⟩ := (haligned c (List.mem_cons_self ..)).2
      have hbound : c.len < 2 ^ 63 := by
        have hle := hrest.le
        omega
      rw [hlen, ← Nat.mul_add] at hrest
      have hpages : start + n ≤ total / pageSize := pages_le hrest.le
      have hstop : UInt64.ofNat start + UInt64.ofNat c.len / UInt64.ofNat pageSize
          = UInt64.ofNat (start + n) := by
        rw [← UInt64.ofNat_div (by omega) (by decide), ← UInt64.ofNat_add, hlen,
          Nat.mul_div_cancel_left n (by decide)]
      have hless : ptr < UInt64.ofNat (start + n) ↔ ptr.toNat < start + n := by
        apply UInt64.lt_ofNat_iff
        have := Nat.div_le_self total pageSize
        omega
      rw [lookup, hstop]
      dsimp only
      by_cases hin : ptr.toNat < start + n
      · rw [if_pos (hless.mpr hin), if_pos (Nat.lt_of_lt_of_le hin hpages),
          slice_page hlen hstart hin hbound, hoff, ← Nat.mul_add, Nat.add_sub_cancel' hstart]
      · rw [if_neg (mt hless.mp hin)]
        apply ih hrest
        · exact fun d hd => haligned d (List.mem_cons_of_mem _ hd)
        · exact Nat.not_lt.mp hin

theorem read_tiled {pm : PageMgr} {ptr : Ptr} {total : Nat} (file : Nat → UInt8)
    (h : Tiled pm.mmap.chunks total) (htotal : total < 2 ^ 63)
    (hnone : pm.updates.lookup ptr = none) :
    read file pm ptr
      = if ptr.toNat < total / pageSize then
          .ok ((List.range pageSize).map fun i => file (pageSize * ptr.toNat + i))
        else .error (.panic ("bad ptr: " ++ toString ptr.toNat)) := by
  have hstart : Contiguous (pageSize * 0) pm.mmap.chunks total := h.contiguous
  have hlookup := lookup_tiled hstart h.aligned htotal (Nat.zero_le ptr.toNat)
  rw [read, hnone]
  show (lookup ptr (UInt64.ofNat 0) pm.mmap.chunks >>= _) = _
  rw [hlookup]
  split
  · rfl
  · rfl

/-- A window of the file, filled up with zeros. -/
theorem slice_filled (b : Bytes) (off n : Nat) :
    slice b off n ++ make (n - (slice b off n).length)
      = (List.range n).map fun i => b.getD (off + i) 0 := by
  have hlen : (slice b off n).length = min n (b.length - off) := by
    rw [slice, List.length_take, List.length_drop]
  apply List.ext_getElem?
  intro i
  rw [List.getElem?_map, List.getElem?_append, getElem?_slice, hlen, make,
    List.getElem?_replicate]
  by_cases hi : i < n
  · rw [List.getElem?_range hi, Option.map_some, List.getD_eq_getElem?_getD]
    by_cases hin : i < min n (b.length - off)
    · rw [if_pos hin, if_pos hi, List.getElem?_eq_getElem (by omega), Option.getD_some]
    · rw [if_neg hin, if_pos (by omega), List.getElem?_eq_none (by omega), Option.getD_none]
  · rw [if_neg (by omega), if_neg (by omega), List.getElem?_eq_none (by simpa using hi),
      Option.map_none]

/-- A page that the file has is the one its mappings show. -/
theorem page_shown {file : File} {off : Nat} (h : off < file.bytes.length) :
    file.page off = .ok (Chunk.bytes ⟨off, pageSize⟩ (shown file)) := by
  rw [File.page, if_pos h, slice_filled]
  rfl

/-- `Read` over a file that ends is the one over its mappings, except
that a page behind the end cannot be touched. -/
theorem read_narrow {pm : Storage.PageMgr} (ht : Tiled pm.chunks pm.total)
    (htotal : pm.total < 2 ^ 63) (ptr : Ptr) :
    pm.read ptr = read (shown pm.file) (narrow pm) ptr
      ∨ (pm.file.bytes.length ≤ pageSize * ptr.toNat ∧ pm.read ptr = .error .pastEof) := by
  cases hnone : pm.updates.lookup ptr with
  | some node =>
      left
      have hsome : (narrow pm).updates.lookup ptr = some node := hnone
      rw [Storage.PageMgr.read, hnone, read, hsome]
  | none =>
      have hstart : Contiguous (pageSize * 0) pm.chunks pm.total := ht.contiguous
      have hmapped : Tiled (narrow pm).mmap.chunks pm.total := ht
      rw [Storage.PageMgr.read, hnone, read_tiled (shown pm.file) hmapped htotal hnone]
      dsimp only
      rw [readChunks_tiled hstart ht.aligned (Nat.zero_le ptr.toNat)]
      by_cases hptr : ptr.toNat < pm.total / pageSize
      · rw [if_pos hptr, if_pos hptr]
        by_cases hend : pageSize * ptr.toNat < pm.file.bytes.length
        · left
          rw [page_shown hend]
          rfl
        · right
          exact ⟨Nat.not_lt.mp hend, if_neg hend⟩
      · left
        rw [if_neg hptr, if_neg hptr]

-- =========================================== the machine's numbers

theorem growAlloc_narrow (total : Nat) {size : Nat} (hsize : size < 2 ^ 62) : ∀ fuel alloc,
    total + alloc < 2 ^ 63 →
    growAlloc (Int64.ofNat total) (Int64.ofNat size) fuel (Int64.ofNat alloc)
      = (Storage.PageMgr.growAlloc total size fuel alloc).map Int64.ofNat := by
  intro fuel
  induction fuel with
  | zero =>
      intro alloc _
      rfl
  | succ fuel ih =>
      intro alloc hsum
      have hless : Int64.ofNat total + Int64.ofNat alloc < Int64.ofNat size
          ↔ total + alloc < size := by
        rw [← Int64.ofNat_add]
        exact Int64.ofNat_lt_iff_lt hsum (by omega)
      have hdouble : Int64.ofNat alloc * 2 = Int64.ofNat (alloc * 2) :=
        (Int64.ofNat_mul alloc 2).symm
      rw [growAlloc, Storage.PageMgr.growAlloc, hdouble]
      by_cases hlt : total + alloc < size
      · rw [if_pos hlt, if_pos (hless.mpr hlt)]
        apply ih
        omega
      · rw [if_neg hlt, if_neg (mt hless.mp hlt)]
        rfl

theorem firstAlloc_narrow {total : Nat} (h : total < 2 ^ 63) :
    (if Int64.ofNat total < maxChunk then maxChunk else Int64.ofNat total)
      = Int64.ofNat (Storage.PageMgr.firstAlloc total) := by
  have hmax : maxChunkMB * 2 ^ 20 = 67108864 := rfl
  have hless : Int64.ofNat total < maxChunk ↔ total < maxChunkMB * 2 ^ 20 :=
    Int64.ofNat_lt_iff_lt h (by omega)
  rw [Storage.PageMgr.firstAlloc]
  by_cases hlt : total < maxChunkMB * 2 ^ 20
  · rw [if_pos hlt, if_pos (hless.mpr hlt)]
    rfl
  · rw [if_neg hlt, if_neg (mt hless.mp hlt)]

/-- What the loop allocates does not take the total out of the `int`s. -/
theorem total_lt {total size alloc fuel : Nat} (hsize : size < 2 ^ 62) (hlt : total < size)
    (h : Storage.PageMgr.growAlloc total size fuel (Storage.PageMgr.firstAlloc total)
      = .ok alloc) : total + alloc < 2 ^ 63 := by
  rcases (growAlloc_spec h).2.2 with hfirst | htwice
  · rw [hfirst]
    exact Storage.PageMgr.firstAlloc_lt (Nat.lt_trans hlt hsize)
  · omega

theorem mmap_error {w : World} {e : String} (h : w.error .mmap = some e) (off len : Int64) :
    mmap w off len = .error e := by
  simp only [mmap, h]

theorem mmap_ok {w : World} (h : w.error .mmap = none) {total alloc : Nat}
    (hsum : total + alloc < 2 ^ 63) :
    mmap w (Int64.ofNat total) (Int64.ofNat alloc) = .ok ⟨total, alloc⟩ := by
  have htotal : (Int64.ofNat total).toNatClampNeg = total :=
    Int64.toNatClampNeg_ofNat_of_lt (by omega)
  have halloc : (Int64.ofNat alloc).toNatClampNeg = alloc :=
    Int64.toNatClampNeg_ofNat_of_lt (by omega)
  simp only [mmap, h, htotal, halloc]

/-- The machine's `ExtendMMap` does what the one on naturals does. -/
theorem extendMMap_narrow (w : World) {pm : Storage.PageMgr} {size : Nat}
    (htotal : pm.total < 2 ^ 63) (hsize : size < 2 ^ 62) :
    extendMMap w (narrow pm) (Int64.ofNat size)
      = (pm.extendMMap w size).map (Prod.map id narrow) := by
  have hle : Int64.ofNat size ≤ (narrow pm).mmap.total ↔ size ≤ pm.total :=
    Int64.ofNat_le_iff_le (by omega) htotal
  rw [extendMMap, Storage.PageMgr.extendMMap]
  by_cases henough : size ≤ pm.total
  · rw [if_pos henough, if_pos (hle.mpr henough)]
    rfl
  · rw [if_neg henough, if_neg (mt hle.mp henough)]
    have hlt : pm.total < size := Nat.not_le.mp henough
    have hgrow := growAlloc_narrow pm.total hsize 64 (Storage.PageMgr.firstAlloc pm.total)
      (Storage.PageMgr.firstAlloc_lt (Nat.lt_trans hlt hsize))
    show (growAlloc (Int64.ofNat pm.total) (Int64.ofNat size) 64
      (if Int64.ofNat pm.total < maxChunk then maxChunk else Int64.ofNat pm.total) >>= _)
      = Except.map _ (Storage.PageMgr.growAlloc pm.total size 64
        (Storage.PageMgr.firstAlloc pm.total) >>= _)
    rw [firstAlloc_narrow htotal, hgrow]
    cases halloc : Storage.PageMgr.growAlloc pm.total size 64
        (Storage.PageMgr.firstAlloc pm.total) with
    | error e => rfl
    | ok alloc =>
        have hsum := total_lt hsize hlt halloc
        rw [Except.map, ok_bind, ok_bind]
        cases herr : w.error .mmap with
        | some e =>
            have hmap := mmap_error herr (narrow pm).mmap.total (Int64.ofNat alloc)
            simp only [hmap]
            rfl
        | none =>
            have hmap : mmap w (narrow pm).mmap.total (Int64.ofNat alloc)
                = .ok ⟨pm.total, alloc⟩ := mmap_ok herr hsum
            simp only [hmap]
            show Except.ok (none, PageMgr.mk ⟨Int64.ofNat pm.total + Int64.ofNat alloc, _⟩ _)
              = Except.ok (none, ⟨⟨Int64.ofNat (pm.total + alloc), _⟩, _⟩)
            rw [Int64.ofNat_add]
            rfl

-- ============================================================ runs

/-- An `int` in the range of the sizes is a natural. -/
theorem exists_ofNat {size : Int64} (hneg : 0 ≤ size.toInt) (hsize : size.toInt < 2 ^ 62) :
    ∃ n < 2 ^ 62, size = Int64.ofNat n := by
  refine ⟨size.toNatClampNeg, ?_, ?_⟩
  · show size.toInt.toNat < 2 ^ 62
    omega
  · exact (Int64.ofNat_toNatClampNeg size (Int64.le_iff_toInt_le.mpr hneg)).symm

/-- The page manager is one on naturals, with all its chunks end to end. -/
structure Sound (pm : PageMgr) (wide : Storage.PageMgr) : Prop where
  narrow : pm = narrow wide
  total : wide.total < 2 ^ 63
  tiled : Tiled wide.chunks wide.total

variable {w : World} {pm pm' : PageMgr} {wide : Storage.PageMgr} {err : Option String}

theorem Sound.extend (h : Sound pm wide) {n : Nat} (hn : n < 2 ^ 62)
    (hok : extendMMap w pm (Int64.ofNat n) = .ok (err, pm')) :
    ∃ wide', wide.extendMMap w n = .ok (err, wide') ∧ Sound pm' wide' := by
  obtain ⟨err', wide', hext⟩ := Storage.PageMgr.extendMMap_returns w wide hn
  rw [h.narrow, extendMMap_narrow w h.total hn, hext] at hok
  cases hok
  refine ⟨wide', hext, rfl, ?_, Storage.PageMgr.extendMMap_tiled hext h.tiled⟩
  obtain ⟨-, -, rfl⟩ | ⟨e, -, -, -, rfl⟩ | ⟨alloc, hlt, -, halloc, rfl⟩ :=
    Storage.PageMgr.extendMMap_cases hext
  · exact h.total
  · exact h.total
  · exact total_lt hn hlt halloc

theorem Reached.sound (h : Reached pm) : ∃ wide, Sound pm wide := by
  induction h with
  | new => exact ⟨Storage.newPageMgr ⟨[], []⟩, rfl, by decide, tiled_nil⟩
  | extend w size hpm hneg hsize hok ih =>
      obtain ⟨wide, hsound⟩ := ih
      obtain ⟨n, hn, rfl⟩ := exists_ofNat hneg hsize
      obtain ⟨wide', -, hsound'⟩ := hsound.extend hn hok
      exact ⟨wide', hsound'⟩
  | pages updates hpm ih =>
      obtain ⟨wide, hsound⟩ := ih
      refine ⟨{ wide with updates := updates }, ?_, hsound.total, hsound.tiled⟩
      rw [hsound.narrow]
      rfl

/-- After any run of successful calls the next one ends, and maps the
size if it succeeds; the chunks cover what is mapped, and every mapped
page is read at its place in the file. -/
theorem read_exact (hpm : Reached pm) :
    (∀ (w : World) (size : Int64), 0 ≤ size.toInt → size.toInt < 2 ^ 62 →
      ∃ err pm', extendMMap w pm size = .ok (err, pm')
        ∧ (err = none → size ≤ pm'.mmap.total))
    ∧ ∃ total : Nat, pm.mmap.total.toInt = total
      ∧ Contiguous 0 pm.mmap.chunks total
      ∧ (∀ c ∈ pm.mmap.chunks, c.Aligned)
      ∧ (∀ i, (∃ c ∈ pm.mmap.chunks, c.Has i) ↔ i < total)
      ∧ ∀ (file : Nat → UInt8) (ptr : Ptr), pm.updates.lookup ptr = none →
        read file pm ptr
          = if ptr.toNat < total / pageSize then
              .ok ((List.range pageSize).map fun i => file (pageSize * ptr.toNat + i))
            else .error (.panic ("bad ptr: " ++ toString ptr.toNat)) := by
  obtain ⟨wide, hsound⟩ := hpm.sound
  constructor
  · intro w size hneg hsize
    obtain ⟨n, hn, rfl⟩ := exists_ofNat hneg hsize
    obtain ⟨err, wide', hext⟩ := Storage.PageMgr.extendMMap_returns w wide hn
    have hok : extendMMap w pm (Int64.ofNat n) = .ok (err, narrow wide') := by
      rw [hsound.narrow, extendMMap_narrow w hsound.total hn, hext]
      rfl
    refine ⟨err, narrow wide', hok, fun herr => ?_⟩
    subst herr
    obtain ⟨wide'', hext', hsound'⟩ := hsound.extend hn hok
    have hle : n ≤ wide''.total := Storage.PageMgr.extendMMap_total hext'
    rw [hsound'.narrow]
    exact (Int64.ofNat_le_iff_le (by omega) hsound'.total).mpr hle
  · have hchunks : pm.mmap.chunks = wide.chunks := by rw [hsound.narrow]; rfl
    have htiled : Tiled pm.mmap.chunks wide.total := hchunks ▸ hsound.tiled
    refine ⟨wide.total, ?_, htiled.contiguous, htiled.aligned, fun i => ?_,
      fun file ptr hnone => ?_⟩
    · rw [hsound.narrow]
      exact Int64.toInt_ofNat_of_lt hsound.total
    · rw [htiled.contiguous.has_iff, and_iff_right (Nat.zero_le i)]
    · exact read_tiled file htiled hsound.total hnone

/-- Two mappings of 64 MB. -/
def twoChunks : PageMgr := ⟨⟨134217728, [⟨0, 67108864⟩, ⟨67108864, 67108864⟩]⟩, ∅⟩

theorem reached_twoChunks : Reached twoChunks := by
  have hone : Reached ⟨⟨67108864, [⟨0, 67108864⟩]⟩, ∅⟩ :=
    .extend World.calm 1 .new (by decide) (by decide) rfl
  exact .extend World.calm 134217728 hone (by decide) (by decide) rfl

/-- The first page of the second mapping. -/
theorem read_exact_second :
    read (fun i => UInt8.ofNat (i / pageSize)) twoChunks 16384
      = .ok ((List.range pageSize).map fun i => UInt8.ofNat ((67108864 + i) / pageSize)) := by
  obtain ⟨-, total, htotal, -, -, -, hread⟩ := read_exact reached_twoChunks
  obtain rfl : total = 134217728 := by
    have hvalue : twoChunks.mmap.total.toInt = 134217728 := by decide
    omega
  rw [hread _ _ rfl, if_pos (by decide)]
  rfl

end Mapping

end Svacara.Storage
