/-
The functions that build a node from an old one, as list surgery.

Each of them writes a header, copies a run of the old node's entries,
puts something in the middle and copies another run. The runs are
appended entry by entry (`appendRange_head`, `appendRange_tail`), so
each function is `build` of the obvious list, whether or not that fits:
`leafInsert_eq`, `leafUpdate_eq`, `nodeMerge_eq`, `nodeReplace2Kid_eq`.
Provided it does fit the buffer, the new node encodes the list
(`leafInsert_encodes` and so on). Nothing here knows about pages or
bounds on keys; the callers supply the sizes.
-/
import Svacara.Btree.Delete
import Svacara.Btree.Proofs.Build
import Svacara.Btree.Proofs.Search

namespace Svacara.Btree

open Buf Outcome

-- =========================================================== sizes

@[simp] theorem nodeSize_nil : nodeSize [] = header := rfl

theorem nodeSize_append (es fs : List Entry) :
    nodeSize (es ++ fs) + header = nodeSize es + nodeSize fs := by
  simp only [nodeSize, List.length_append, kvSize_append]
  omega

theorem nodeSize_cons (e : Entry) (es : List Entry) :
    nodeSize (e :: es) = nodeSize es + 10 + e.size := by
  simp only [nodeSize, List.length_cons, kvSize_cons]
  omega

theorem Encodes.nodeSize_le {buf : BNode} {ty : Nat} {es : List Entry}
    (h : Encodes buf ty es) : nodeSize es ≤ buf.length :=
  Holds.fits h

theorem Encodes.nkeys {buf : BNode} {ty : Nat} {es : List Entry}
    (h : Encodes buf ty es) : nkeys buf = .ok es.length :=
  Holds.nkeys h

theorem Encodes.length_lt {buf : BNode} {ty : Nat} {es : List Entry}
    (h : Encodes buf ty es) : es.length < 65536 := by
  have h₁ := Holds.fits h
  have h₂ := Holds.small h
  omega

-- ================================================== the two copies

section Copy

variable {old : BNode} {ty' : Nat} {A B X : List Entry}

/-- Copying the first entries of an old node appends them. -/
theorem appendRange_head (buf : BNode) (ho : Encodes old ty' (A ++ B)) :
    nodeAppendRange buf old 0 0 A.length = appendAll buf 0 A := by
  have hlt := ho.length_lt
  rw [List.length_append] at hlt
  rw [nodeAppendRange_eq buf 0 0 A.length ho (by rw [List.length_append]; omega)
    (by omega), List.drop_zero, List.take_left]

/-- And the last ones. -/
theorem appendRange_tail (buf : BNode) (dst : Nat) (ho : Encodes old ty' (X ++ B))
    (hdst : dst + B.length < 65536) :
    nodeAppendRange buf old dst X.length B.length = appendAll buf dst B := by
  rw [nodeAppendRange_eq buf dst X.length B.length ho (by rw [List.length_append])
    hdst, List.drop_left, List.take_length]

/-- The ones after an entry that is left out. -/
theorem appendRange_skip (buf : BNode) (dst : Nat) {e : Entry}
    (ho : Encodes old ty' (A ++ e :: B)) (hdst : dst + B.length < 65536) :
    nodeAppendRange buf old dst (A.length + 1) B.length = appendAll buf dst B := by
  rw [List.append_cons] at ho
  simpa using appendRange_tail buf dst ho hdst

/-- A header and the first entries of an old node. -/
theorem copy_head {buf : BNode} (ty n : Nat) (ho : Encodes old ty' (A ++ B))
    (hsmall : buf.length < 65536) (hty : ty < 65536) (hA : A.length ≤ n)
    (hfit : header + 10 * n + kvSize A ≤ buf.length) :
    ∃ b₀ b, setHeader buf ty n = .ok b₀
      ∧ nodeAppendRange b₀ old 0 0 A.length = .ok b
      ∧ Holds b ty n A ∧ b.length = buf.length := by
  obtain ⟨b₀, hb₀, hhold₀, hlen₀⟩ :=
    holds_setHeader buf ty n hsmall hty (by omega)
  obtain ⟨b, hb, hhold, hlen⟩ := appendAll_holds A hhold₀
    (by rw [List.length_nil]; omega) (by rw [List.nil_append]; omega)
  refine ⟨b₀, b, hb₀, ?_, hhold, hlen.trans hlen₀⟩
  rw [appendRange_head b₀ ho]
  exact hb

/-- The last entries of an old node. -/
theorem copy_tail {buf : BNode} {ty n : Nat} {es : List Entry}
    (h : Holds buf ty n es) (ho : Encodes old ty' (X ++ B))
    (hn : es.length + B.length ≤ n)
    (hfit : header + 10 * n + kvSize (es ++ B) ≤ buf.length) :
    ∃ b, nodeAppendRange buf old es.length X.length B.length = .ok b
      ∧ Holds b ty n (es ++ B) ∧ b.length = buf.length := by
  have hsmall := h.small
  have hfits := h.fits
  rw [appendRange_tail buf es.length ho (by omega)]
  exact appendAll_holds B h hn hfit

end Copy

-- ========================================================== leaves

section Leaf

variable {old : BNode} {ty : Nat} {A B : List Entry}

theorem leafInsert_eq (buf : BNode) (key val : Bytes) (ho : Encodes old ty (A ++ B))
    (hlt : A.length + B.length + 1 < 65536) :
    leafInsert buf old A.length key val
      = build buf bnodeLeaf (A ++ ⟨0, key, val⟩ :: B) := by
  have hn := ho.nkeys
  rw [List.length_append] at hn
  rw [leafInsert, hn, ok_bind, u16_of_lt hlt, u16_of_lt (n := A.length + 1) (by omega),
    u16sub_of_le (by omega) (by omega), Nat.add_sub_cancel_left, build,
    List.length_append, List.length_cons, ← Nat.add_assoc]
  simp only [appendRange_head _ ho, appendRange_tail _ (A.length + 1) ho (by omega),
    appendAll_append, appendAll, Nat.zero_add]

theorem leafUpdate_eq (buf : BNode) (key val : Bytes) {e : Entry}
    (ho : Encodes old ty (A ++ e :: B)) :
    leafUpdate buf old A.length key val
      = build buf bnodeLeaf (A ++ ⟨0, key, val⟩ :: B) := by
  have hn := ho.nkeys
  have hlt := ho.length_lt
  rw [List.length_append, List.length_cons] at hn hlt
  rw [leafUpdate, hn, ok_bind, u16_of_lt (n := A.length + 1) (by omega),
    u16sub_of_le (by omega) (by omega),
    show A.length + (B.length + 1) - (A.length + 1) = B.length by omega, build,
    List.length_append, List.length_cons]
  simp only [appendRange_head _ ho, appendRange_skip _ (A.length + 1) ho (by omega),
    appendAll_append, appendAll, Nat.zero_add]

theorem leafInsert_encodes (buf : BNode) (key val : Bytes)
    (ho : Encodes old ty (A ++ B))
    (hsmall : buf.length < 65536)
    (hfit : nodeSize (A ++ ⟨0, key, val⟩ :: B) ≤ buf.length) :
    ∃ new, leafInsert buf old A.length key val = .ok new
      ∧ Encodes new bnodeLeaf (A ++ ⟨0, key, val⟩ :: B) := by
  obtain ⟨new, hnew, henc, -⟩ := build_encodes buf bnodeLeaf _ hsmall (by decide) hfit
  refine ⟨new, ?_, henc⟩
  rw [nodeSize, List.length_append, List.length_cons] at hfit
  rw [leafInsert_eq buf key val ho (by omega), hnew]

theorem leafUpdate_encodes (buf : BNode) (key val : Bytes) {e : Entry}
    (ho : Encodes old ty (A ++ e :: B))
    (hsmall : buf.length < 65536)
    (hfit : nodeSize (A ++ ⟨0, key, val⟩ :: B) ≤ buf.length) :
    ∃ new, leafUpdate buf old A.length key val = .ok new
      ∧ Encodes new bnodeLeaf (A ++ ⟨0, key, val⟩ :: B) := by
  obtain ⟨new, hnew, henc, -⟩ := build_encodes buf bnodeLeaf _ hsmall (by decide) hfit
  exact ⟨new, by rw [leafUpdate_eq buf key val ho, hnew], henc⟩

/-- `treeDelete` on a leaf that has the key: the leaf without its entry. -/
theorem treeDelete_found {σ : Type} (ops : PageOps σ) (fuel : Nat) (s : σ) {e : Entry}
    (ho : Encodes old bnodeLeaf (A ++ e :: B))
    (hlook : nodeLookupLE old e.key = .ok A.length) :
    treeDelete ops (fuel + 1) s old e.key = (do
      let new ← build (make btreePageSize) bnodeLeaf (A ++ B)
      return (some new, s)) := by
  have hn := ho.nkeys
  have hlt := ho.length_lt
  rw [List.length_append, List.length_cons] at hn hlt
  have hat : (A ++ e :: B)[A.length]? = some e := by simp
  rw [treeDelete, hlook, ok_bind, Holds.btype ho, ok_bind, if_pos rfl,
    Holds.getKey ho hat, ok_bind, if_neg (not_not.mpr (cmp_self _)), hn,
    ok_bind, u16sub_of_le (by omega) (by omega),
    show A.length + (B.length + 1) - 1 = A.length + B.length by omega, u16_of_lt (by omega),
    u16sub_of_le (by omega) (by omega),
    show A.length + (B.length + 1) - (A.length + 1) = B.length by omega, build,
    List.length_append]
  simp only [appendRange_head _ ho, appendRange_skip _ A.length ho (by omega),
    appendAll_append, Nat.zero_add, bind_assoc]

/-- `treeDelete` on a leaf that has another key there. -/
theorem treeDelete_missing {σ : Type} (ops : PageOps σ) (fuel : Nat) (s : σ) {e : Entry}
    {key : Bytes} (ho : Encodes old bnodeLeaf (A ++ e :: B))
    (hlook : nodeLookupLE old key = .ok A.length) (hne : key ≠ e.key) :
    treeDelete ops (fuel + 1) s old key = .ok (none, s) := by
  have hat : (A ++ e :: B)[A.length]? = some e := by simp
  rw [treeDelete, hlook, ok_bind, Holds.btype ho, ok_bind, if_pos rfl,
    Holds.getKey ho hat, ok_bind, if_pos (mt cmp_eq_zero_iff.mp hne)]
  rfl

end Leaf

-- ================================================== internal nodes

section Internal

variable {node left right : BNode} {ty : Nat} {A B : List Entry}

theorem nodeMerge_eq (buf : BNode) {ty' : Nat} (hl : Encodes left ty A)
    (hr : Encodes right ty' B) (hlt : A.length + B.length < 65536) :
    nodeMerge buf left right = build buf ty (A ++ B) := by
  have hl' : Encodes left ty (A ++ []) := by rwa [List.append_nil]
  have hr' : Encodes right ty' ([] ++ B) := hr
  rw [nodeMerge, Holds.btype hl, ok_bind, hl.nkeys, ok_bind, hr.nkeys, ok_bind,
    u16_of_lt hlt, build, List.length_append]
  have htail := fun b => appendRange_tail b A.length hr' (by omega)
  rw [List.length_nil] at htail
  simp only [appendRange_head _ hl', htail, appendAll_append, Nat.zero_add]

theorem nodeMerge_encodes (buf : BNode) (hl : Encodes left ty A) (hr : Encodes right ty B)
    (hsmall : buf.length < 65536) (hfit : nodeSize (A ++ B) ≤ buf.length) :
    ∃ new, nodeMerge buf left right = .ok new ∧ Encodes new ty (A ++ B) := by
  obtain ⟨new, hnew, henc, -⟩ := build_encodes buf ty _ hsmall (Holds.tyLt hl) hfit
  rw [nodeSize, List.length_append] at hfit
  exact ⟨new, by rw [nodeMerge_eq buf hl hr (by omega), hnew], henc⟩

/-- Two neighbouring entries replaced by one. -/
theorem nodeReplace2Kid_eq (buf : BNode) (ptr : Ptr) (key : Bytes) {e₁ e₂ : Entry}
    (ho : Encodes node ty (A ++ e₁ :: e₂ :: B)) :
    nodeReplace2Kid buf node A.length ptr key
      = build buf bnodeInternal (A ++ ⟨ptr, key, []⟩ :: B) := by
  have hn := ho.nkeys
  have hlt := ho.length_lt
  simp only [List.length_append, List.length_cons] at hn hlt
  have ho' : Encodes node ty ((A ++ [e₁]) ++ e₂ :: B) := by simpa using ho
  have htail := fun b => appendRange_skip b (A.length + 1) ho' (by omega)
  rw [List.length_append, List.length_singleton] at htail
  rw [nodeReplace2Kid, hn, ok_bind, u16sub_of_le (by omega) (by omega),
    show A.length + (B.length + 1 + 1) - 1 = A.length + (B.length + 1) by omega,
    u16_of_lt (n := A.length + 1) (by omega),
    u16_of_lt (n := A.length + 2) (by omega),
    u16sub_of_le (by omega) (by omega),
    show A.length + (B.length + 1 + 1) - (A.length + 2) = B.length by omega, build,
    List.length_append, List.length_cons]
  simp only [appendRange_head _ ho, htail, appendAll_append, appendAll, Nat.zero_add]

/-- One entry replaced by that of a node to be stored. -/
theorem nodeReplaceKidN_single {σ : Type} (ops : PageOps σ) (buf : BNode) (s : σ)
    {kid : BNode} {key : Bytes} {e : Entry} (ho : Encodes node ty (A ++ e :: B))
    (hkey : getKey kid 0 = .ok key) (hsmall : buf.length < 65536)
    (hhead : header + 10 * (A.length + (B.length + 1)) + kvSize A ≤ buf.length) :
    nodeReplaceKidN ops buf node A.length [kid] s = (do
      let (ptr, s) ← ops.newPage s kid
      let new ← build buf bnodeInternal (A ++ ⟨ptr, key, []⟩ :: B)
      return (new, s)) := by
  have hn := ho.nkeys
  have hlt := ho.length_lt
  simp only [List.length_append, List.length_cons] at hn hlt
  obtain ⟨b₀, b, hb₀, hb, -⟩ := copy_head bnodeInternal (A.length + (B.length + 1)) ho
    hsmall (by decide) (by omega) hhead
  have htail := fun b => appendRange_skip b (A.length + 1) ho (by omega)
  rw [nodeReplaceKidN, hn, ok_bind, List.length_singleton, u16_of_lt (n := 1) (by omega),
    u16_of_lt (by omega), u16sub_of_le (by omega) (by omega), Nat.add_sub_cancel, hb₀,
    ok_bind, hb, ok_bind, u16_of_lt (by omega), u16sub_of_le (by omega) (by omega),
    show A.length + (B.length + 1) - (A.length + 1) = B.length by omega]
  rw [appendRange_head b₀ ho] at hb
  cases hnew : ops.newPage s kid with
  | error err => simp only [appendKids, hnew, error_bind]
  | ok r =>
      obtain ⟨ptr, s'⟩ := r
      simp only [appendKids, hnew, hkey, ok_bind, htail, build, List.length_append,
        List.length_cons, hb₀, hb, appendAll_append, appendAll, Nat.zero_add]
      cases nodeAppendKV b A.length ptr key [] with
      | error err => rfl
      | ok b₁ => rfl

end Internal

end Svacara.Btree
