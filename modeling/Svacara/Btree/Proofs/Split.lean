/-
Where a node is cut, and that the parts fit.

`nodeSplit2` walks the entries and stops before the one that would take
the key/value bytes past half of the node's total, header, pointers and
offsets included. `IsCut half es c` is what the loop guarantees for any
entries whatsoever; whether the two parts fit a page is a question about
entry sizes. `IsCut.row_fits` answers it for entries of 17 to 1017 bytes,
the ones the row store produces: two non-empty parts that fit, and never
three.
-/
import Svacara.Btree.Proofs.Rebuild

namespace Svacara.Btree

open Buf Outcome

/-- The cut `c` is behind the first entry, leaves at most `half`
key/value bytes on the left (one entry may exceed that alone), and is
as far right as that allows. -/
structure IsCut (half : Nat) (es : List Entry) (c : Nat) : Prop where
  pos : 0 < c
  le : c ≤ es.length
  left : c = 1 ∨ kvSize (es.take c) ≤ half
  next : ∀ e, es[c]? = some e → half < kvSize (es.take c) + e.size

/-- The loop finds a cut. `i` counts the entries passed, `accum` is
their key/value bytes; the induction is on the fuel, which bounds the
entries left. -/
theorem splitLoop_isCut {old : BNode} {ty : Nat} {es : List Entry}
    (total : Nat) (ho : Encodes old ty es) :
    ∀ (fuel i : Nat), es.length - i ≤ fuel → i ≤ es.length → 0 < es.length →
      (i = 0 ∨ i = 1 ∨ kvSize (es.take i) ≤ total / 2) →
      ∃ c, splitLoop old es.length total fuel i (kvSize (es.take i)) i = .ok c
        ∧ IsCut (total / 2) es c := by
  have hlt := ho.length_lt
  have hfits := ho.nodeSize_le
  have hsmall := Holds.small ho
  simp only [nodeSize] at hfits
  intro fuel
  induction fuel with
  | zero =>
      intro i hfuel hi hpos hleft
      obtain rfl : i = es.length := by omega
      refine ⟨_, rfl, hpos, Nat.le_refl _, by omega, ?_⟩
      intro e he
      rw [List.getElem?_eq_none (Nat.le_refl _)] at he
      cases he
  | succ fuel ih =>
      intro i hfuel hi hpos hleft
      rw [splitLoop]
      by_cases hin : i < es.length
      · rw [if_pos hin]
        obtain ⟨e, he⟩ : ∃ e, es[i]? = some e :=
          ⟨_, List.getElem?_eq_getElem hin⟩
        have hsucc := kvSize_take_succ he
        have hle := kvSize_take_le es (i + 1)
        have hsz : e.size = 4 + e.key.length + e.val.length := rfl
        rw [Holds.getKey ho he, ok_bind, Holds.getVal ho he, ok_bind,
          u16_of_lt (n := e.key.length) (by omega),
          u16_of_lt (n := e.val.length) (by omega), ← hsz,
          u16_of_lt (n := e.size) (by omega)]
        dsimp only
        rw [← hsucc, u16_of_lt (n := kvSize (es.take (i + 1))) (by omega),
          u16_of_lt (n := i + 1) (by omega)]
        by_cases hstop : total / 2 < kvSize (es.take (i + 1)) ∧ 0 < i
        · rw [if_pos hstop]
          refine ⟨i, rfl, hstop.2, hi, by omega, ?_⟩
          intro f hf
          rw [he] at hf
          cases hf
          omega
        · rw [if_neg hstop]
          exact ih (i + 1) (by omega) (by omega) hpos (by omega)
      · rw [if_neg hin]
        obtain rfl : i = es.length := by omega
        refine ⟨_, rfl, hpos, Nat.le_refl _, by omega, ?_⟩
        intro e he
        rw [List.getElem?_eq_none (Nat.le_refl _)] at he
        cases he

/-- A node is split into the entries on either side of a cut, each
written to its own buffer. -/
theorem nodeSplit2_eq {old : BNode} {ty : Nat} {es : List Entry}
    (left right : BNode) (ho : Encodes old ty es) (hne : es ≠ []) :
    ∃ c, IsCut (nodeSize es / 2) es c ∧ nodeSplit2 left right old = (do
      let l ← build left ty (es.take c)
      let r ← build right ty (es.drop c)
      return (l, r)) := by
  have hpos : 0 < es.length := List.length_pos_iff.mpr hne
  have hlt := ho.length_lt
  obtain ⟨c, hc, hcut⟩ := splitLoop_isCut (nodeSize es) ho es.length 0
    (by omega) (by omega) hpos (Or.inl rfl)
  have hcle := hcut.le
  have hA : (es.take c).length = c := by
    rw [List.length_take]
    omega
  have hB : (es.drop c).length = es.length - c := List.length_drop ..
  have ho' : Encodes old ty (es.take c ++ es.drop c) := by
    rwa [List.take_append_drop]
  have hhead := fun b => appendRange_head b ho'
  have htail := fun b => appendRange_tail b 0 ho' (by omega)
  rw [hA] at hhead
  rw [hA, hB] at htail
  refine ⟨c, hcut, ?_⟩
  rw [List.take_zero, kvSize_nil] at hc
  rw [nodeSplit2, ho.nkeys, ok_bind, ho.nbytes, ok_bind, hc, ok_bind, Holds.btype ho,
    ok_bind, u16sub_of_le hcle hlt]
  simp only [hhead, htail, build, hA, hB, bind_assoc]

/-- The two parts encode their entries, provided these fit the buffers
they are written to. -/
theorem nodeSplit2_encodes {old : BNode} {ty : Nat} {es : List Entry}
    (left right : BNode) (ho : Encodes old ty es) (hne : es ≠ [])
    (hls : left.length < 65536) (hrs : right.length < 65536)
    (hfit : ∀ c, IsCut (nodeSize es / 2) es c →
      nodeSize (es.take c) ≤ left.length
        ∧ nodeSize (es.drop c) ≤ right.length) :
    ∃ c l r, IsCut (nodeSize es / 2) es c
      ∧ nodeSplit2 left right old = .ok (l, r)
      ∧ Encodes l ty (es.take c) ∧ Encodes r ty (es.drop c) := by
  obtain ⟨c, hcut, heq⟩ := nodeSplit2_eq left right ho hne
  obtain ⟨hl, hr⟩ := hfit c hcut
  obtain ⟨l, hl, hhl, -⟩ := build_encodes left ty _ hls (Holds.tyLt ho) hl
  obtain ⟨r, hr, hhr, -⟩ := build_encodes right ty _ hrs (Holds.tyLt ho) hr
  exact ⟨c, l, r, hcut, by rw [heq, hl, ok_bind, hr, ok_bind, pure_eq_ok], hhl, hhr⟩

/-- There is one cut only: a later one would have passed the half. -/
theorem IsCut.unique {half c c' : Nat} {es : List Entry} (h : IsCut half es c)
    (h' : IsCut half es c') : c = c' := by
  have hle : ∀ {a b : Nat}, IsCut half es a → IsCut half es b → b ≤ a := by
    intro a b ha hb
    by_contra hlt
    have hpos := ha.pos
    have hlen := hb.le
    obtain ⟨e, he⟩ : ∃ e, es[a]? = some e :=
      ⟨_, List.getElem?_eq_getElem (by omega)⟩
    have hnext := ha.next e he
    rw [← kvSize_take_succ he] at hnext
    have hmono := kvSize_take_le (es.take b) (a + 1)
    rw [List.take_take, Nat.min_eq_left (by omega)] at hmono
    have hleft := hb.left
    omega
  exact Nat.le_antisymm (hle h' h) (hle h h')

-- =========================================================== pages

/-- A page of the tree: at least one key, and it fits. -/
def RowPage (es : List Entry) : Prop :=
  es ≠ [] ∧ nodeSize es ≤ btreePageSize

/-- A node that fits a page is left alone. -/
theorem nodeSplit3_fits {old : BNode} {ty : Nat} {es : List Entry}
    (ho : Encodes old ty es) (hfit : nodeSize es ≤ btreePageSize) :
    nodeSplit3 old = .ok [old] := by
  rw [nodeSplit3, ho.nbytes, ok_bind, if_pos hfit, pure_eq_ok]

/-- One that does not becomes the two sides of its cut, if they are pages. -/
theorem nodeSplit3_cut {old : BNode} {ty : Nat} {es : List Entry}
    (ho : Encodes old ty es) (hne : es ≠ []) (hover : btreePageSize < nodeSize es)
    (hpages : ∀ c, IsCut (nodeSize es / 2) es c →
      RowPage (es.take c) ∧ RowPage (es.drop c)) :
    ∃ c l r, IsCut (nodeSize es / 2) es c ∧ nodeSplit3 old = .ok [l, r]
      ∧ Encodes l ty (es.take c) ∧ Encodes r ty (es.drop c) := by
  obtain ⟨c, l, r, hcut, hsplit, hl, hr⟩ := nodeSplit2_encodes
    (make (2 * btreePageSize)) (make btreePageSize) ho hne
    (by rw [length_make]; decide) (by rw [length_make]; decide) (by
      intro c hc
      obtain ⟨⟨-, h₁⟩, -, h₂⟩ := hpages c hc
      rw [length_make, length_make]
      exact ⟨by omega, h₂⟩)
  refine ⟨c, l, r, hcut, ?_, hl, hr⟩
  rw [nodeSplit3, ho.nbytes, ok_bind, if_neg (Nat.not_le.mpr hover), hsplit, ok_bind]
  simp only [hl.nbytes, ok_bind]
  rw [if_pos (hpages c hcut).1.2, pure_eq_ok]

/-- One whose left side does not fit either becomes three, if they are
pages. -/
theorem nodeSplit3_cutTwice {old : BNode} {ty c d : Nat} {es : List Entry}
    (ho : Encodes old ty es) (hne : es ≠ []) (hover : btreePageSize < nodeSize es)
    (hcut : IsCut (nodeSize es / 2) es c) (hleft : btreePageSize < nodeSize (es.take c))
    (hcut' : IsCut (nodeSize (es.take c) / 2) (es.take c) d)
    (hl : nodeSize ((es.take c).take d) ≤ btreePageSize)
    (hm : nodeSize ((es.take c).drop d) ≤ btreePageSize)
    (hr : nodeSize (es.drop c) ≤ btreePageSize) :
    ∃ l m r, nodeSplit3 old = .ok [l, m, r] ∧ Encodes l ty ((es.take c).take d)
      ∧ Encodes m ty ((es.take c).drop d) ∧ Encodes r ty (es.drop c) := by
  have hsum := nodeSize_append ((es.take c).take d) ((es.take c).drop d)
  rw [List.take_append_drop] at hsum
  have hpage : (make btreePageSize).length < 65536 := by
    rw [length_make]
    decide
  have hne' : es.take c ≠ [] := by
    have hpos := hcut'.pos
    have hle := hcut'.le
    exact List.ne_nil_of_length_pos (by omega)
  obtain ⟨c₁, left, r, hc₁, hsplit, hencl, hencr⟩ := nodeSplit2_encodes
    (make (2 * btreePageSize)) (make btreePageSize) ho hne
    (by rw [length_make]; decide) hpage (by
      intro c₁ hc₁
      rw [hc₁.unique hcut, length_make, length_make]
      exact ⟨by omega, hr⟩)
  rw [hc₁.unique hcut] at hencl hencr
  obtain ⟨d₁, l, m, hd₁, hsplit', hencll, hencm⟩ := nodeSplit2_encodes
    (make btreePageSize) (make btreePageSize) hencl hne' hpage hpage (by
      intro d₁ hd₁
      rw [hd₁.unique hcut', length_make]
      exact ⟨hl, hm⟩)
  rw [hd₁.unique hcut'] at hencll hencm
  refine ⟨l, m, r, ?_, hencll, hencm, hencr⟩
  rw [nodeSplit3, ho.nbytes, ok_bind, if_neg (Nat.not_le.mpr hover), hsplit, ok_bind]
  simp only [hencl.nbytes, ok_bind]
  rw [if_neg (Nat.not_le.mpr hleft), hsplit', ok_bind, pure_eq_ok]

-- =========================================== the row store's nodes

/-- Entries with a 13-byte key and a value of at most 1000 bytes. -/
def RowEntries (es : List Entry) : Prop :=
  ∀ e ∈ es, e.key.length = 13 ∧ e.val.length ≤ 1000

theorem RowEntries.sublist {es fs : List Entry} (h : RowEntries es)
    (hs : fs.Sublist es) : RowEntries fs :=
  fun e he => h e (hs.subset he)

theorem RowEntries.size_bounds {es : List Entry} (h : RowEntries es) :
    17 * es.length ≤ kvSize es ∧ kvSize es ≤ 1017 * es.length := by
  induction es with
  | nil => simp
  | cons e es ih =>
      obtain ⟨hk, hv⟩ := h e (List.mem_cons_self ..)
      have := ih fun f hf => h f (List.mem_cons_of_mem _ hf)
      rw [kvSize_cons, List.length_cons, Entry.size]
      omega

/-- A cut of an overfull row node leaves something on both sides, and
both sides fit a page. -/
theorem IsCut.row_fits {es : List Entry} {c : Nat}
    (hcut : IsCut (nodeSize es / 2) es c) (hrow : RowEntries es)
    (hover : btreePageSize < nodeSize es)
    (hle : nodeSize es ≤ btreePageSize + 1027) :
    RowPage (es.take c) ∧ RowPage (es.drop c) := by
  have hpos := hcut.pos
  have hcle := hcut.le
  have hA : (es.take c).length = c := by
    rw [List.length_take]
    omega
  have hB : (es.drop c).length = es.length - c := List.length_drop ..
  have htot := nodeSize_append (es.take c) (es.drop c)
  have hla := hrow.sublist (List.take_sublist c es) |>.size_bounds
  have hlb := hrow.sublist (List.drop_sublist c es) |>.size_bounds
  rw [List.take_append_drop] at htot
  have hleft := hcut.left
  have hnext := hcut.next
  simp only [nodeSize, hA, hB, header] at htot hla hlb
  simp only [nodeSize, header, btreePageSize] at hover hle hleft hnext
  -- the right part is not empty: its absence would leave the whole
  -- node's key/value bytes below half of its size
  have hlt : c < es.length := by
    rcases Nat.lt_or_eq_of_le hcle with h | h
    · exact h
    · rw [h, List.take_length] at hleft hla
      omega
  obtain ⟨e, he⟩ : ∃ e, es[c]? = some e := ⟨_, List.getElem?_eq_getElem hlt⟩
  have hnext := hnext e he
  obtain ⟨hk, hv⟩ := hrow e (List.mem_of_getElem? he)
  rw [Entry.size] at hnext
  refine ⟨⟨?_, ?_⟩, ?_, ?_⟩
  · exact List.ne_nil_of_length_pos (by omega)
  · rw [nodeSize, hA]
    simp only [header, btreePageSize]
    omega
  · exact List.ne_nil_of_length_pos (by omega)
  · rw [nodeSize, hB]
    simp only [header, btreePageSize]
    omega

end Svacara.Btree
