/-
What a node buffer holds.

`Entry` is one key with its pointer and value, and `Holds buf ty n es`
says that the buffer's header announces type `ty` and `n` entries and
that the first `es.length` of them are already laid out, in the places
the accessors look. A finished node is `Encodes buf ty es`: the header
announces exactly the entries that are there.

# The spec of building

Nodes are only ever built front to back: a header, then one
`nodeAppendKV` per entry. `holds_setHeader` and `nodeAppendKV_holds` are
the two steps; `Build` has the loop over the second. The append touches
three windows (pointer slot, offset slot, entry), each behind everything
laid out so far, so everything else is framed by
`slice_splice_of_disjoint`.

# The spec of reading

On a buffer that holds `es` the accessors read `es`: `getPtr_of`,
`getKey_of`, `getVal_of`, and `nbytes_of` for the size. No caller needs
the layout after this file.
-/
import Svacara.Btree.Node
import Svacara.Lib.Outcome

namespace Svacara.Btree

open Buf Outcome

-- ===================================================== the entries

/-- One entry of a node: pointer (0 in a leaf), key, value (empty in an
internal node). -/
structure Entry where
  ptr : Ptr
  key : Bytes
  val : Bytes
  deriving DecidableEq, Repr

/-- The bytes an entry takes behind the offsets. -/
def Entry.size (e : Entry) : Nat := 4 + e.key.length + e.val.length

/-- The entry as it is laid out. -/
def Entry.bytes (e : Entry) : Bytes :=
  leBytes 2 e.key.length ++ leBytes 2 e.val.length ++ e.key ++ e.val

@[simp] theorem Entry.length_bytes (e : Entry) : e.bytes.length = e.size := by
  simp only [Entry.bytes, List.length_append, length_leBytes, Entry.size]

/-- Total size of a list of laid-out entries. -/
def kvSize (es : List Entry) : Nat := (es.map Entry.size).sum

@[simp] theorem kvSize_nil : kvSize [] = 0 := rfl

@[simp] theorem kvSize_cons (e : Entry) (es : List Entry) :
    kvSize (e :: es) = e.size + kvSize es := by
  simp [kvSize]

@[simp] theorem kvSize_append (es fs : List Entry) :
    kvSize (es ++ fs) = kvSize es + kvSize fs := by
  simp [kvSize]

theorem kvSize_take_le (es : List Entry) (i : Nat) :
    kvSize (es.take i) ≤ kvSize es := by
  have h := kvSize_append (es.take i) (es.drop i)
  rw [List.take_append_drop] at h
  omega

/-- The prefix up to and including entry `i`. -/
theorem kvSize_take_succ {es : List Entry} {i : Nat} {e : Entry}
    (h : es[i]? = some e) :
    kvSize (es.take (i + 1)) = kvSize (es.take i) + e.size := by
  rw [List.take_add_one, h]
  simp

/-- `nbytes` of a finished node with these entries. -/
def nodeSize (es : List Entry) : Nat := header + 10 * es.length + kvSize es

-- ======================================================= the words

theorem u16_of_lt {n : Nat} (h : n < 65536) : u16 n = n :=
  Nat.mod_eq_of_lt h

theorem u16sub_of_le {a b : Nat} (hb : b ≤ a) (ha : a < 65536) :
    u16sub a b = a - b := by
  unfold u16sub u16
  omega

/-- A word that was laid out at `pos` is what `uintAt` reads there. -/
theorem uintAt_of {w pos v : Nat} {buf : BNode}
    (h : slice buf pos w = leBytes w v) (hv : v < 256 ^ w)
    (hlen : pos + w ≤ buf.length) : uintAt w buf pos = .ok v := by
  rw [uintAt, if_pos hlen, h, leNat_leBytes_of_lt hv]

/-- A write elsewhere leaves a number. -/
theorem uintAt_splice {node src : BNode} {w pos p : Nat} (hfit : pos + src.length ≤ node.length)
    (hd : p + w ≤ pos ∨ pos + src.length ≤ p) :
    uintAt w (splice node src pos) p = uintAt w node p := by
  rw [uintAt, uintAt, length_splice _ _ hfit, slice_splice_of_disjoint _ _ hfit hd]

theorem uintAt_written {node : BNode} {w pos v : Nat} (hfit : pos + w ≤ node.length)
    (hv : v < 256 ^ w) : uintAt w (splice node (leBytes w v) pos) pos = .ok v := by
  have hlen : pos + (leBytes w v).length ≤ node.length := by
    rw [length_leBytes]
    exact hfit
  have hslice := slice_splice_self node (leBytes w v) hlen
  rw [length_leBytes] at hslice
  exact uintAt_of hslice hv (by rw [length_splice _ _ hlen]; exact hfit)

theorem uintAt_written_other {node : BNode} {w pos p v : Nat} (hfit : pos + w ≤ node.length)
    (hd : p + w ≤ pos ∨ pos + w ≤ p) :
    uintAt w (splice node (leBytes w v) pos) p = uintAt w node p := by
  apply uintAt_splice
  · rw [length_leBytes]
    exact hfit
  · rw [length_leBytes]
    exact hd

theorem nkeys_of {buf : BNode} {n : Nat} (h : slice buf 2 2 = leBytes 2 n)
    (hn : n < 65536) (hlen : 4 ≤ buf.length) : nkeys buf = .ok n :=
  uintAt_of h (by omega) (by omega)

-- ======================================================= the slots

/-- The header's count is `n` and the offset of entry `idx` is `off`:
all that `kvPos` looks at. -/
structure Slot (buf : BNode) (n idx off : Nat) : Prop where
  small : buf.length < 65536
  room : header + 10 * n ≤ buf.length
  le : idx ≤ n
  nk : slice buf 2 2 = leBytes 2 n
  offLt : off < 65536
  at_zero : idx = 0 → off = 0
  at_succ : ∀ j, idx = j + 1 → slice buf (header + 8 * n + 2 * j) 2 = leBytes 2 off

theorem Slot.nkeys {buf : BNode} {n idx off : Nat} (h : Slot buf n idx off) :
    nkeys buf = .ok n := by
  have h₁ := h.small
  have h₂ := h.room
  simp only [header] at h₂
  exact nkeys_of h.nk (by omega) (by omega)

/-- The position of a stored offset. -/
theorem Slot.offsetPos {buf : BNode} {n idx off j : Nat}
    (h : Slot buf n idx off) (hj : j < n) :
    offsetPos buf (j + 1) = .ok (header + 8 * n + 2 * j) := by
  have h₁ := h.small
  have h₂ := h.room
  simp only [header] at h₂ ⊢
  rw [Btree.offsetPos, h.nkeys, ok_bind, u16sub_of_le (by omega) (by omega),
    pure_eq_ok, header, u16_of_lt (by omega)]
  congr 1

theorem Slot.getOffset {buf : BNode} {n idx off : Nat}
    (h : Slot buf n idx off) : getOffset buf idx = .ok off := by
  have h₁ := h.small
  have h₂ := h.room
  have h₃ := h.le
  simp only [header] at h₂
  cases idx with
  | zero =>
      rw [h.at_zero rfl]
      rfl
  | succ j =>
      rw [Btree.getOffset, if_neg (by omega), h.offsetPos (by omega), ok_bind]
      refine uintAt_of (h.at_succ j rfl) h.offLt ?_
      simp only [header]
      omega

theorem Slot.kvPos {buf : BNode} {n idx off : Nat} (h : Slot buf n idx off)
    (hlt : header + 10 * n + off < 65536) :
    kvPos buf idx = .ok (header + 10 * n + off) := by
  simp only [header] at hlt ⊢
  rw [Btree.kvPos, h.nkeys, ok_bind, h.getOffset, ok_bind, pure_eq_ok, header,
    u16_of_lt (by omega)]
  congr 1
  omega

/-- A write that stays off the header and off the slot keeps it. -/
theorem Slot.splice {buf src : BNode} {n idx off pos : Nat}
    (h : Slot buf n idx off) (hfit : pos + src.length ≤ buf.length)
    (h4 : 4 ≤ pos)
    (hd : ∀ j, idx = j + 1 → header + 8 * n + 2 * j + 2 ≤ pos
      ∨ pos + src.length ≤ header + 8 * n + 2 * j) :
    Slot (splice buf src pos) n idx off where
  small := by rw [length_splice _ _ hfit]; exact h.small
  room := by rw [length_splice _ _ hfit]; exact h.room
  le := h.le
  nk := by rw [slice_splice_of_disjoint _ _ hfit (by omega)]; exact h.nk
  offLt := h.offLt
  at_zero := h.at_zero
  at_succ j hj := by
    rw [slice_splice_of_disjoint _ _ hfit (hd j hj)]
    exact h.at_succ j hj

-- ==================================================== what is held

/-- Entry `i`, whose bytes start `off` behind the first one's, is laid out
in a buffer made for `n` entries. -/
structure EntryAt (buf : BNode) (n off i : Nat) (e : Entry) : Prop where
  ptr : slice buf (header + 8 * i) 8 = leBytes 8 e.ptr.toNat
  offset : slice buf (header + 8 * n + 2 * i) 2 = leBytes 2 (off + e.size)
  kv : slice buf (header + 10 * n + off) e.size = e.bytes

/-- The buffer announces type `ty` and `n` entries, and the first ones
of them are `es`. -/
structure Holds (buf : BNode) (ty n : Nat) (es : List Entry) : Prop where
  small : buf.length < 65536
  tyLt : ty < 65536
  count : es.length ≤ n
  fits : header + 10 * n + kvSize es ≤ buf.length
  bt : slice buf 0 2 = leBytes 2 ty
  nk : slice buf 2 2 = leBytes 2 n
  entry : ∀ i e, es[i]? = some e → EntryAt buf n (kvSize (es.take i)) i e

/-- A finished node: it announces exactly the entries it holds. -/
def Encodes (buf : BNode) (ty : Nat) (es : List Entry) : Prop :=
  Holds buf ty es.length es

theorem Holds.slot {buf : BNode} {ty n i : Nat} {es : List Entry}
    (h : Holds buf ty n es) (hi : i ≤ es.length) :
    Slot buf n i (kvSize (es.take i)) where
  small := h.small
  room := by have := h.fits; omega
  le := by have := h.count; omega
  nk := h.nk
  offLt := by
    have h₁ := kvSize_take_le es i
    have h₂ := h.fits
    have h₃ := h.small
    omega
  at_zero := by
    rintro rfl
    simp
  at_succ j hj := by
    subst hj
    have hj : es[j]? = some (es[j]) := List.getElem?_eq_getElem (by omega)
    rw [(h.entry j _ hj).offset, kvSize_take_succ hj]

theorem Holds.btype {buf : BNode} {ty n : Nat} {es : List Entry}
    (h : Holds buf ty n es) : btype buf = .ok ty := by
  have h₁ := h.fits
  simp only [header] at h₁
  exact uintAt_of h.bt h.tyLt (by omega)

theorem Holds.nkeys {buf : BNode} {ty n : Nat} {es : List Entry}
    (h : Holds buf ty n es) : nkeys buf = .ok n :=
  (h.slot (Nat.zero_le _)).nkeys

-- ======================================================== building

/-- The buffer after one append: pointer slot, entry, offset slot. -/
def putEntry (buf : BNode) (n off i : Nat) (e : Entry) : BNode :=
  splice (splice (splice buf (leBytes 8 e.ptr.toNat) (header + 8 * i))
      e.bytes (header + 10 * n + off))
    (leBytes 2 (off + e.size)) (header + 8 * n + 2 * i)

theorem putUintAt_of {w pos v : Nat} {buf : BNode} (h : pos + w ≤ buf.length) :
    putUintAt w buf pos v = .ok (splice buf (leBytes w v) pos) :=
  if_pos h

theorem copyAt_of {pos : Nat} {buf src : BNode}
    (h : pos + src.length ≤ buf.length) :
    copyAt buf pos src = .ok (splice buf src pos) := by
  rw [copyAt, if_pos (by omega), List.take_of_length_le (by omega)]

/-- The four writes of an entry are one overwrite. The key must be in
range; of the value, what is past the end of the buffer is dropped. -/
theorem write_entry (buf : BNode) (pos : Nat) (e : Entry)
    (hsmall : pos + e.size < 65536) (h : pos + 4 + e.key.length ≤ buf.length) :
    ∃ c₁ c₂ c₃, putUintAt 2 buf pos (u16 e.key.length) = .ok c₁
      ∧ putUintAt 2 c₁ (u16 (pos + 2)) (u16 e.val.length) = .ok c₂
      ∧ copyAt c₂ (u16 (pos + 4)) e.key = .ok c₃
      ∧ copyAt c₃ (u16 (pos + 4 + u16 e.key.length)) e.val
        = .ok (splice buf (e.bytes.take (buf.length - pos)) pos) := by
  simp only [Entry.size] at hsmall
  let K := leBytes 2 e.key.length
  let V := leBytes 2 e.val.length
  have hK : K.length = 2 := length_leBytes ..
  have hV : V.length = 2 := length_leBytes ..
  have hKVk : (K ++ V ++ e.key).length = 4 + e.key.length := by
    simp only [List.length_append]
    omega
  have hl : ∀ src : Bytes, pos + src.length ≤ buf.length →
      (splice buf src pos).length = buf.length := fun _ h => length_splice _ _ h
  have h₁ : splice (splice buf K pos) V (pos + 2) = splice buf (K ++ V) pos := by
    rw [← hK]
    exact splice_splice buf K V (by omega)
  have h₂ : splice (splice buf (K ++ V) pos) e.key (pos + 4)
      = splice buf (K ++ V ++ e.key) pos := by
    have hKV : (K ++ V).length = 4 := by rw [List.length_append]; omega
    rw [← hKV]
    exact splice_splice buf (K ++ V) e.key (by omega)
  have h₃ : splice (splice buf (K ++ V ++ e.key) pos)
      (e.val.take (buf.length - (pos + 4 + e.key.length))) (pos + 4 + e.key.length)
        = splice buf (e.bytes.take (buf.length - pos)) pos := by
    have hcut : e.bytes.take (buf.length - pos) = (K ++ V ++ e.key)
        ++ e.val.take (buf.length - (pos + 4 + e.key.length)) := by
      change ((K ++ V ++ e.key) ++ e.val).take (buf.length - pos) = _
      rw [List.take_append, List.take_of_length_le (by omega), hKVk]
      congr 2
      omega
    rw [hcut, Nat.add_assoc, ← hKVk]
    exact splice_splice buf (K ++ V ++ e.key) _ (by rw [List.length_take]; omega)
  rw [u16_of_lt (n := e.key.length) (by omega),
    u16_of_lt (n := e.val.length) (by omega),
    u16_of_lt (n := pos + 2) (by omega), u16_of_lt (n := pos + 4) (by omega),
    u16_of_lt (n := pos + 4 + e.key.length) (by omega)]
  refine ⟨splice buf K pos, splice buf (K ++ V) pos,
    splice buf (K ++ V ++ e.key) pos, putUintAt_of (by omega), ?_, ?_, ?_⟩
  · rw [← h₁]
    exact putUintAt_of (by rw [hl _ (by omega)]; omega)
  · rw [← h₂]
    refine copyAt_of ?_
    rw [hl _ (by rw [List.length_append]; omega)]
    omega
  · rw [← h₃, copyAt, hl _ (by omega), if_pos (by omega)]

/-- The append computes `putEntry`, with the part of the value that is
past the end of the buffer dropped. -/
theorem nodeAppendKV_crop {buf : BNode} {ty n : Nat} {es : List Entry} {e : Entry}
    (h : Holds buf ty n es) (hlt : es.length < n)
    (hroom : header + 10 * n + kvSize es + 4 + e.key.length ≤ buf.length)
    (hfit : header + 10 * n + kvSize es + e.size < 65536) :
    nodeAppendKV buf es.length e.ptr e.key e.val
      = .ok (splice (splice (splice buf (leBytes 8 e.ptr.toNat) (header + 8 * es.length))
          (e.bytes.take (buf.length - (header + 10 * n + kvSize es)))
          (header + 10 * n + kvSize es))
        (leBytes 2 (kvSize es + e.size)) (header + 8 * n + 2 * es.length)) := by
  have hsmall := h.small
  have hsz : e.size = 4 + e.key.length + e.val.length := rfl
  have hhd : header = 4 := rfl
  have hslot : Slot buf n es.length (kvSize es) := by
    have := h.slot (Nat.le_refl es.length)
    rwa [List.take_length] at this
  -- after the pointer
  obtain ⟨b₁, hb₁⟩ : ∃ b₁, b₁ = splice buf (leBytes 8 e.ptr.toNat)
      (header + 8 * es.length) := ⟨_, rfl⟩
  have hlen₁ : b₁.length = buf.length := by
    rw [hb₁, length_splice _ _ (by rw [length_leBytes]; omega)]
  have hslot₁ : Slot b₁ n es.length (kvSize es) := by
    rw [hb₁]
    exact hslot.splice (by rw [length_leBytes]; omega) (by omega)
      (fun j hj => by rw [length_leBytes]; omega)
  have hptr : setPtr buf es.length e.ptr = .ok b₁ := by
    rw [setPtr, u16_of_lt (by omega), hb₁]
    exact putUintAt_of (by omega)
  -- after the entry's bytes
  obtain ⟨c₁, c₂, c₃, hw₁, hw₂, hw₃, hw₄⟩ := write_entry b₁
    (header + 10 * n + kvSize es) e (by omega) (by omega)
  rw [hlen₁] at hw₄
  obtain ⟨b₂, hb₂⟩ : ∃ b₂, b₂ = splice b₁
      (e.bytes.take (buf.length - (header + 10 * n + kvSize es)))
      (header + 10 * n + kvSize es) := ⟨_, rfl⟩
  have hin : header + 10 * n + kvSize es
      + (e.bytes.take (buf.length - (header + 10 * n + kvSize es))).length
        ≤ b₁.length := by
    rw [List.length_take]
    omega
  have hslot₂ : Slot b₂ n es.length (kvSize es) := by
    rw [hb₂]
    exact hslot₁.splice hin (by omega) (fun j hj => by omega)
  have hlen₂ : b₂.length = buf.length := by
    rw [hb₂, length_splice _ _ hin, hlen₁]
  rw [← hb₂] at hw₄
  rw [nodeAppendKV, hptr, ok_bind, hslot₁.kvPos (by omega), ok_bind, hw₁,
    ok_bind, hw₂, ok_bind, hw₃, ok_bind, hw₄, ok_bind, hslot₂.getOffset,
    ok_bind, u16_of_lt (n := es.length + 1) (by omega), setOffset,
    hslot₂.offsetPos hlt, ok_bind,
    u16_of_lt (n := e.key.length + e.val.length) (by omega),
    u16_of_lt (n := kvSize es + 4 + (e.key.length + e.val.length)) (by omega),
    putUintAt_of (by omega), ← hb₁, ← hb₂]
  congr 3
  omega

/-- The append computes `putEntry`, all its positions in range. -/
theorem nodeAppendKV_eq {buf : BNode} {ty n : Nat} {es : List Entry} {e : Entry}
    (h : Holds buf ty n es) (hlt : es.length < n)
    (hfit : header + 10 * n + kvSize es + e.size ≤ buf.length) :
    nodeAppendKV buf es.length e.ptr e.key e.val
      = .ok (putEntry buf n (kvSize es) es.length e) := by
  have hsmall := h.small
  have hsz : e.size = 4 + e.key.length + e.val.length := rfl
  rw [nodeAppendKV_crop h hlt (by omega) (by omega),
    List.take_of_length_le (by rw [Entry.length_bytes]; omega)]
  rfl

/-- Appending an entry that fits extends what the buffer holds by it. -/
theorem nodeAppendKV_holds {buf : BNode} {ty n : Nat} {es : List Entry}
    {e : Entry} (h : Holds buf ty n es) (hlt : es.length < n)
    (hfit : header + 10 * n + kvSize es + e.size ≤ buf.length) :
    ∃ buf', nodeAppendKV buf es.length e.ptr e.key e.val = .ok buf'
      ∧ Holds buf' ty n (es ++ [e]) ∧ buf'.length = buf.length := by
  have hhd : header = 4 := rfl
  have hpt : header + 8 * es.length + (leBytes 8 e.ptr.toNat).length
      ≤ buf.length := by
    rw [length_leBytes]
    omega
  have hkv : ∀ b : BNode, b.length = buf.length →
      header + 10 * n + kvSize es + e.bytes.length ≤ b.length := by
    intro b hb
    rw [Entry.length_bytes]
    omega
  have hof : ∀ b : BNode, b.length = buf.length → ∀ v,
      header + 8 * n + 2 * es.length + (leBytes 2 v).length ≤ b.length := by
    intro b hb v
    rw [length_leBytes]
    omega
  have hlen₁ := length_splice _ _ hpt
  have hlen₂ := (length_splice _ _ (hkv _ hlen₁)).trans hlen₁
  have hlen₃ := (length_splice _ _ (hof _ hlen₂ (kvSize es + e.size))).trans hlen₂
  -- a window that meets none of the three written ones is framed
  have hframe : ∀ p l, (p + l ≤ header + 8 * es.length
        ∨ header + 8 * es.length + 8 ≤ p) →
      (p + l ≤ header + 10 * n + kvSize es
        ∨ header + 10 * n + kvSize es + e.size ≤ p) →
      (p + l ≤ header + 8 * n + 2 * es.length
        ∨ header + 8 * n + 2 * es.length + 2 ≤ p) →
      slice (putEntry buf n (kvSize es) es.length e) p l = slice buf p l := by
    intro p l h₁ h₂ h₃
    rw [putEntry, slice_splice_of_disjoint _ _ (hof _ hlen₂ _)
        (by rw [length_leBytes]; exact h₃),
      slice_splice_of_disjoint _ _ (hkv _ hlen₁)
        (by rw [Entry.length_bytes]; exact h₂),
      slice_splice_of_disjoint _ _ hpt (by rw [length_leBytes]; exact h₁)]
  refine ⟨_, nodeAppendKV_eq h hlt hfit, ?_, hlen₃⟩
  have hsz : kvSize (es ++ [e]) = kvSize es + e.size := by simp
  refine ⟨by rw [putEntry, hlen₃]; exact h.small, h.tyLt, ?_, ?_, ?_, ?_, ?_⟩
  · rw [List.length_append, List.length_singleton]
    omega
  · rw [putEntry, hlen₃, hsz]
    omega
  · rw [hframe _ _ (by omega) (by omega) (by omega)]
    exact h.bt
  · rw [hframe _ _ (by omega) (by omega) (by omega)]
    exact h.nk
  · intro i f hf
    rcases Nat.lt_or_ge i es.length with hi | hi
    · -- an entry laid out earlier lies in front of all three windows
      rw [List.getElem?_append_left hi] at hf
      have hold := h.entry i f hf
      have htake : kvSize (es.take i) + f.size ≤ kvSize es := by
        rw [← kvSize_take_succ hf]
        exact kvSize_take_le es (i + 1)
      rw [List.take_append_of_le_length (Nat.le_of_lt hi)]
      refine ⟨?_, ?_, ?_⟩
      · rw [hframe _ _ (by omega) (by omega) (by omega)]
        exact hold.ptr
      · rw [hframe _ _ (by omega) (by omega) (by omega)]
        exact hold.offset
      · rw [hframe _ _ (by omega) (by omega) (by omega)]
        exact hold.kv
    · -- the new one reads back from the window it was written to
      have hi' : i = es.length := by
        obtain ⟨hlt', -⟩ := List.getElem?_eq_some_iff.mp hf
        rw [List.length_append, List.length_singleton] at hlt'
        omega
      subst hi'
      rw [List.getElem?_append_right (Nat.le_refl _), Nat.sub_self] at hf
      obtain rfl : e = f := by simpa using hf
      rw [List.take_left]
      refine ⟨?_, ?_, ?_⟩
      · rw [putEntry, slice_splice_of_disjoint _ _ (hof _ hlen₂ _) (by omega),
          slice_splice_of_disjoint _ _ (hkv _ hlen₁) (by omega)]
        have := slice_splice_self _ _ hpt
        rwa [length_leBytes] at this
      · have := slice_splice_self _ _ (hof _ hlen₂ (kvSize es + e.size))
        rwa [length_leBytes] at this
      · rw [putEntry, slice_splice_of_disjoint _ _ (hof _ hlen₂ _)
          (by rw [length_leBytes]; omega)]
        have := slice_splice_self _ _ (hkv _ hlen₁)
        rwa [Entry.length_bytes] at this

/-- A header on a buffer with room for it starts a node. -/
theorem holds_setHeader (buf : BNode) (ty n : Nat) (hsmall : buf.length < 65536)
    (hty : ty < 65536) (hfit : header + 10 * n ≤ buf.length) :
    ∃ buf', setHeader buf ty n = .ok buf' ∧ Holds buf' ty n []
      ∧ buf'.length = buf.length := by
  have hhd : header = 4 := rfl
  have h₁ : 0 + (leBytes 2 ty).length ≤ buf.length := by
    rw [length_leBytes]
    omega
  have hlen₁ := length_splice buf (leBytes 2 ty) h₁
  have h₂ : 2 + (leBytes 2 n).length ≤ (splice buf (leBytes 2 ty) 0).length := by
    rw [length_leBytes, hlen₁]
    omega
  have hlen₂ := (length_splice _ _ h₂).trans hlen₁
  refine ⟨_, ?_, ?_, hlen₂⟩
  · rw [setHeader, putUintAt_of (by omega), ok_bind, putUintAt_of (by omega)]
  · refine ⟨by omega, hty, Nat.zero_le _, by rw [kvSize_nil]; omega, ?_, ?_, ?_⟩
    · rw [slice_splice_of_disjoint _ _ h₂ (by omega)]
      have := slice_splice_self _ _ h₁
      rwa [length_leBytes] at this
    · have := slice_splice_self _ _ h₂
      rwa [length_leBytes] at this
    · intro i e he
      cases he

/-- Zeroing the next offset, as the loop of `Insert` does before each
append, touches nothing that is held. -/
theorem Holds.clearOffset {buf : BNode} {ty n : Nat} {es : List Entry}
    (h : Holds buf ty n es) (hlt : es.length < n) :
    ∃ pos buf', offsetPos buf (u16 (es.length + 1)) = .ok pos
      ∧ copyAt buf pos (make 2) = .ok buf'
      ∧ Holds buf' ty n es ∧ buf'.length = buf.length := by
  have hhd : header = 4 := rfl
  have hsmall := h.small
  have hfits := h.fits
  have hfit : header + 8 * n + 2 * es.length + (make 2).length ≤ buf.length := by
    rw [length_make]
    omega
  have hlen := length_splice _ _ hfit
  have hframe : ∀ p l, (p + l ≤ header + 8 * n + 2 * es.length
        ∨ header + 8 * n + 2 * es.length + 2 ≤ p) →
      slice (splice buf (make 2) (header + 8 * n + 2 * es.length)) p l
        = slice buf p l := by
    intro p l hpl
    exact slice_splice_of_disjoint _ _ hfit (by rw [length_make]; exact hpl)
  refine ⟨_, _, ?_, copyAt_of hfit, ?_, hlen⟩
  · rw [u16_of_lt (by omega), (h.slot (Nat.zero_le _)).offsetPos hlt]
  · refine ⟨by omega, h.tyLt, h.count, by omega, ?_, ?_, ?_⟩
    · rw [hframe _ _ (by omega)]
      exact h.bt
    · rw [hframe _ _ (by omega)]
      exact h.nk
    · intro i e he
      obtain ⟨hi, -⟩ := List.getElem?_eq_some_iff.mp he
      have hold := h.entry i e he
      refine ⟨?_, ?_, ?_⟩
      · rw [hframe _ _ (by omega)]
        exact hold.ptr
      · rw [hframe _ _ (by omega)]
        exact hold.offset
      · rw [hframe _ _ (by omega)]
        exact hold.kv

-- ========================================================= reading

section Read

variable {buf : BNode} {ty n i : Nat} {es : List Entry} {e : Entry}

/-- Where a held entry's bytes lie. -/
theorem Holds.entry_le (h : Holds buf ty n es) (he : es[i]? = some e) :
    i < es.length ∧ header + 10 * n + kvSize (es.take i) + e.size ≤ buf.length := by
  obtain ⟨hi, -⟩ := List.getElem?_eq_some_iff.mp he
  have h₁ := kvSize_take_le es (i + 1)
  rw [kvSize_take_succ he] at h₁
  have h₂ := h.fits
  exact ⟨hi, by omega⟩

theorem Holds.getPtr (h : Holds buf ty n es) (he : es[i]? = some e) :
    getPtr buf i = .ok e.ptr := by
  have hhd : header = 4 := rfl
  obtain ⟨hi, hle⟩ := h.entry_le he
  have h₁ := h.small
  have h₂ := h.count
  rw [Btree.getPtr, u16_of_lt (by omega),
    uintAt_of (h.entry i e he).ptr (UInt64.toNat_lt _) (by omega), ok_bind,
    pure_eq_ok, UInt64.ofNat_toNat]

theorem Holds.kvPos (h : Holds buf ty n es) (hi : i ≤ es.length) :
    kvPos buf i = .ok (header + 10 * n + kvSize (es.take i)) := by
  have h₁ := kvSize_take_le es i
  have h₂ := h.fits
  have h₃ := h.small
  exact (h.slot hi).kvPos (by omega)

/-- The windows of a laid-out entry. -/
theorem EntryAt.windows {off : Nat} (h : EntryAt buf n off i e) :
    slice buf (header + 10 * n + off) 2 = leBytes 2 e.key.length
      ∧ slice buf (header + 10 * n + off + 2) 2 = leBytes 2 e.val.length
      ∧ slice buf (header + 10 * n + off + 4) e.key.length = e.key
      ∧ slice buf (header + 10 * n + off + 4 + e.key.length) e.val.length
        = e.val := by
  have hsz : e.size = 4 + e.key.length + e.val.length := rfl
  -- a window inside the entry is a window of the entry's bytes
  have hin : ∀ p l, p + l ≤ e.size →
      slice buf (header + 10 * n + off + p) l = slice e.bytes p l := by
    intro p l hpl
    rw [← h.kv, slice_slice _ hpl]
  have hb : e.bytes = leBytes 2 e.key.length ++ (leBytes 2 e.val.length
      ++ (e.key ++ (e.val ++ []))) := by
    simp only [Entry.bytes, List.append_assoc, List.append_nil]
  refine ⟨?_, ?_, ?_, ?_⟩
  · rw [show header + 10 * n + off = header + 10 * n + off + 0 from rfl,
      hin _ _ (by omega), hb]
    exact slice_mid [] _ _ rfl (length_leBytes ..).symm
  · rw [hin _ _ (by omega), hb]
    exact slice_mid _ _ _ (length_leBytes ..).symm (length_leBytes ..).symm
  · rw [hin _ _ (by omega), hb, ← List.append_assoc]
    exact slice_mid _ _ _ (by rw [List.length_append, length_leBytes,
      length_leBytes]) rfl
  · rw [Nat.add_assoc (header + 10 * n + off), hin _ _ (by omega), hb,
      ← List.append_assoc, ← List.append_assoc]
    exact slice_mid _ _ _ (by simp only [List.length_append,
      length_leBytes]) rfl

theorem Holds.getKey (h : Holds buf ty n es) (he : es[i]? = some e) :
    getKey buf i = .ok e.key := by
  have hhd : header = 4 := rfl
  have hsz : e.size = 4 + e.key.length + e.val.length := rfl
  obtain ⟨hi, hle⟩ := h.entry_le he
  have hsmall := h.small
  obtain ⟨hk, -, hkey, -⟩ := (h.entry i e he).windows
  rw [Btree.getKey, h.kvPos (Nat.le_of_lt hi), ok_bind,
    uintAt_of hk (by omega) (by omega), ok_bind, u16_of_lt (by omega),
    sliceAt, if_pos (by omega), hkey]

theorem Holds.getVal (h : Holds buf ty n es) (he : es[i]? = some e) :
    getVal buf i = .ok e.val := by
  have hhd : header = 4 := rfl
  have hsz : e.size = 4 + e.key.length + e.val.length := rfl
  obtain ⟨hi, hle⟩ := h.entry_le he
  have hsmall := h.small
  obtain ⟨hk, hv, -, hval⟩ := (h.entry i e he).windows
  rw [Btree.getVal, h.kvPos (Nat.le_of_lt hi), ok_bind,
    uintAt_of hk (by omega) (by omega), ok_bind, u16_of_lt (by omega),
    uintAt_of hv (by omega) (by omega), ok_bind, u16_of_lt (by omega),
    sliceAt, if_pos (by omega), hval]

/-- The size of a finished node. -/
theorem Encodes.nbytes (h : Encodes buf ty es) :
    nbytes buf = .ok (nodeSize es) := by
  rw [Btree.nbytes, Holds.nkeys h, ok_bind, Holds.kvPos h (Nat.le_refl _),
    List.take_length]
  rfl

end Read

end Svacara.Btree
