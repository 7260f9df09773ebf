/-
Byte strings and flat buffers: the fixed-width integer codecs, the
overwrite of a window of a buffer, and the lexicographic order on byte
strings.

# The two codecs

`leBytes`/`leNat` put the least significant byte first, `beBytes`/`beNat`
the most significant one. Both round-trip modulo `256 ^ w`
(`leNat_leBytes`, `beNat_beBytes`). Big-endian is the one that respects
order: of two equal-width encodings the smaller number's is smaller at
the first byte where they differ (`below_beBytes`).

# Windows

`slice b pos len` reads a window and `splice b src pos` overwrites one.
The buffer lemmas are the usual three of a heap: a window just written
reads back (`slice_splice_self`), a window disjoint from it is untouched
(`slice_splice_of_disjoint`), and the buffer keeps its length
(`length_splice`).

# The strict order that survives suffixes

`Below x y` says that `x` and `y` agree up to some position and differ
there, `x` with the smaller byte. Unlike `<` on lists it never holds
because `x` ran out first, so it survives appending anything on either
side (`Below.append`); this is what lets an order argument about one
field ignore the fields behind it.
-/
import Mathlib.Data.List.Lex
import Mathlib.Tactic.Ring

/-- The order on bytes is the numeric one. -/
instance linearOrderUInt8 : LinearOrder UInt8 where
  le_refl := UInt8.le_refl
  le_trans := fun _ _ _ => UInt8.le_trans
  lt_iff_le_not_ge := fun a b => by
    rw [UInt8.le_iff_toNat_le, UInt8.le_iff_toNat_le, UInt8.lt_iff_toNat_lt]
    omega
  le_antisymm := fun _ _ => UInt8.le_antisymm
  le_total := UInt8.le_total
  toDecidableLE := inferInstance
  toDecidableLT := inferInstance
  toDecidableEq := inferInstance

namespace Buf

-- ====================================================== the codecs

/-- The `w` bytes of `n`, least significant first. -/
def leBytes : Nat → Nat → List UInt8
  | 0, _ => []
  | w + 1, n => UInt8.ofNat n :: leBytes w (n / 256)

/-- The number a little-endian byte string spells. -/
def leNat : List UInt8 → Nat
  | [] => 0
  | b :: bs => b.toNat + 256 * leNat bs

/-- The `w` bytes of `n`, most significant first. -/
def beBytes : Nat → Nat → List UInt8
  | 0, _ => []
  | w + 1, n => UInt8.ofNat (n / 256 ^ w) :: beBytes w (n % 256 ^ w)

/-- The number a big-endian byte string spells. -/
def beNat : List UInt8 → Nat
  | [] => 0
  | b :: bs => b.toNat * 256 ^ bs.length + beNat bs

@[simp] theorem length_leBytes (w n : Nat) : (leBytes w n).length = w := by
  induction w generalizing n with
  | zero => rfl
  | succ w ih => simp [leBytes, ih]

@[simp] theorem length_beBytes (w n : Nat) : (beBytes w n).length = w := by
  induction w generalizing n with
  | zero => rfl
  | succ w ih => simp [beBytes, ih]

/-- Little-endian round trip, up to the width. -/
theorem leNat_leBytes (w n : Nat) : leNat (leBytes w n) = n % 256 ^ w := by
  induction w generalizing n with
  | zero => simp [leBytes, leNat, Nat.mod_one]
  | succ w ih =>
      have hb : (UInt8.ofNat n).toNat = n % 256 := UInt8.toNat_ofNat'
      rw [leBytes, leNat, ih, hb, pow_succ', Nat.mod_mul]

theorem leNat_leBytes_of_lt {w n : Nat} (h : n < 256 ^ w) :
    leNat (leBytes w n) = n := by
  rw [leNat_leBytes, Nat.mod_eq_of_lt h]

/-- Big-endian round trip, up to the width. -/
theorem beNat_beBytes {w n : Nat} (h : n < 256 ^ w) :
    beNat (beBytes w n) = n := by
  induction w generalizing n with
  | zero =>
      simp only [pow_zero, Nat.lt_one_iff] at h
      simp [beBytes, beNat, h]
  | succ w ih =>
      have hpos : 0 < 256 ^ w := Nat.pow_pos (by omega)
      have hdiv : n / 256 ^ w < 256 := by
        rw [Nat.div_lt_iff_lt_mul hpos, Nat.mul_comm]
        rwa [pow_succ] at h
      rw [beBytes, beNat, length_beBytes, ih (Nat.mod_lt _ hpos),
        UInt8.toNat_ofNat', Nat.mod_eq_of_lt hdiv, Nat.mul_comm]
      exact Nat.div_add_mod n (256 ^ w)

theorem leNat_lt (bs : List UInt8) : leNat bs < 256 ^ bs.length := by
  induction bs with
  | nil => simp [leNat]
  | cons b bs ih =>
      have hb := b.toNat_lt
      rw [leNat, List.length_cons, pow_succ]
      omega

theorem beNat_lt (bs : List UInt8) : beNat bs < 256 ^ bs.length := by
  induction bs with
  | nil => simp [beNat]
  | cons b bs ih =>
      have hb : b.toNat * 256 ^ bs.length ≤ 255 * 256 ^ bs.length :=
        Nat.mul_le_mul_right _ (Nat.le_of_lt_succ b.toNat_lt)
      rw [beNat, List.length_cons, pow_succ]
      omega

/-- Every byte string is the encoding of the number it spells. -/
theorem beBytes_beNat (bs : List UInt8) : beBytes bs.length (beNat bs) = bs := by
  induction bs with
  | nil => rfl
  | cons b bs ih =>
      have hlt := beNat_lt bs
      have hdiv : beNat (b :: bs) / 256 ^ bs.length = b.toNat := by
        rw [beNat, Nat.add_comm, Nat.add_mul_div_right _ _ (Nat.pow_pos (by omega)),
          Nat.div_eq_of_lt hlt, Nat.zero_add]
      have hmod : beNat (b :: bs) % 256 ^ bs.length = beNat bs := by
        rw [beNat, Nat.add_comm, Nat.add_mul_mod_self_right, Nat.mod_eq_of_lt hlt]
      rw [List.length_cons, beBytes, hdiv, hmod, ih, UInt8.ofNat_toNat]

-- ========================================================= windows

section Window

variable {α : Type _}

/-- The window of `len` elements from `pos` on (shorter at the end). -/
def slice (b : List α) (pos len : Nat) : List α := (b.drop pos).take len

/-- `b` with the window from `pos` on overwritten by `src`. -/
def splice (b src : List α) (pos : Nat) : List α :=
  b.take pos ++ src ++ b.drop (pos + src.length)

@[simp] theorem length_splice (b src : List α) {pos : Nat}
    (h : pos + src.length ≤ b.length) :
    (splice b src pos).length = b.length := by
  simp only [splice, List.length_append, List.length_take, List.length_drop]
  omega

theorem getElem?_slice (b : List α) (pos len i : Nat) :
    (slice b pos len)[i]? = if i < len then b[pos + i]? else none := by
  rw [slice, List.getElem?_take, List.getElem?_drop]

/-- A splice, read position by position. -/
theorem getElem?_splice (b src : List α) {pos : Nat}
    (h : pos + src.length ≤ b.length) (i : Nat) :
    (splice b src pos)[i]?
      = if pos ≤ i ∧ i < pos + src.length then src[i - pos]? else b[i]? := by
  have hpos : (b.take pos).length = pos := by
    rw [List.length_take]
    omega
  rw [splice, List.append_assoc]
  by_cases h₁ : i < pos
  · rw [List.getElem?_append_left (by omega), List.getElem?_take,
      if_pos h₁, if_neg (by omega)]
  · rw [List.getElem?_append_right (by omega), hpos]
    by_cases h₂ : i < pos + src.length
    · rw [List.getElem?_append_left (by omega), if_pos (by omega)]
    · rw [List.getElem?_append_right (by omega), List.getElem?_drop,
        if_neg (by omega)]
      congr 1
      omega

/-- A window is the front of another list, read position by position. -/
theorem slice_eq_take_iff {b front : List α} {pos len : Nat} :
    slice b pos len = front.take len ↔ ∀ i, i < len → b[pos + i]? = front[i]? := by
  constructor
  · intro h i hi
    have hi' := congrArg (·[i]?) h
    rwa [getElem?_slice, if_pos hi, List.getElem?_take, if_pos hi] at hi'
  · intro h
    refine List.ext_getElem? fun i => ?_
    rw [getElem?_slice, List.getElem?_take]
    by_cases hi : i < len
    · rw [if_pos hi, if_pos hi, h i hi]
    · rw [if_neg hi, if_neg hi]

/-- What was written reads back. -/
theorem slice_splice_self (b src : List α) {pos : Nat}
    (h : pos + src.length ≤ b.length) :
    slice (splice b src pos) pos src.length = src := by
  refine List.ext_getElem? fun i => ?_
  rw [getElem?_slice]
  by_cases hi : i < src.length
  · rw [if_pos hi, getElem?_splice b src h, if_pos (by omega)]
    congr 1
    omega
  · rw [if_neg hi, List.getElem?_eq_none (by omega)]

/-- A window that does not meet the overwritten one is untouched. -/
theorem slice_splice_of_disjoint (b src : List α) {pos p len : Nat}
    (h : pos + src.length ≤ b.length)
    (hd : p + len ≤ pos ∨ pos + src.length ≤ p) :
    slice (splice b src pos) p len = slice b p len := by
  refine List.ext_getElem? fun i => ?_
  rw [getElem?_slice, getElem?_slice]
  by_cases hi : i < len
  · rw [if_pos hi, if_pos hi, getElem?_splice b src h, if_neg (by omega)]
  · rw [if_neg hi, if_neg hi]

/-- Two adjacent overwrites are one. -/
theorem splice_splice (b x y : List α) {pos : Nat}
    (h : pos + x.length + y.length ≤ b.length) :
    splice (splice b x pos) y (pos + x.length) = splice b (x ++ y) pos := by
  have hx : pos + x.length ≤ b.length := by omega
  have hlen : (splice b x pos).length = b.length := length_splice b x hx
  refine List.ext_getElem? fun i => ?_
  rw [getElem?_splice _ _ (by omega), getElem?_splice _ _ hx,
    getElem?_splice b (x ++ y) (by rw [List.length_append]; omega),
    List.length_append]
  by_cases h₁ : pos ≤ i ∧ i < pos + x.length
  · rw [if_neg (by omega), if_pos h₁, if_pos (by omega),
      List.getElem?_append_left (by omega)]
  · rw [if_neg h₁]
    by_cases h₂ : pos + x.length ≤ i ∧ i < pos + x.length + y.length
    · rw [if_pos h₂, if_pos (by omega), List.getElem?_append_right (by omega)]
      congr 1
      omega
    · rw [if_neg h₂, if_neg (by omega)]

/-- A window of a window. -/
theorem slice_slice (b : List α) {pos len p l : Nat} (h : p + l ≤ len) :
    slice (slice b pos len) p l = slice b (pos + p) l := by
  refine List.ext_getElem? fun i => ?_
  rw [getElem?_slice, getElem?_slice, getElem?_slice]
  by_cases hi : i < l
  · rw [if_pos hi, if_pos hi, if_pos (by omega), Nat.add_assoc]
  · rw [if_neg hi, if_neg hi]

/-- The middle part of a concatenation, as a window of it. -/
theorem slice_mid (a m c : List α) {pos len : Nat} (hpos : pos = a.length)
    (hlen : len = m.length) : slice (a ++ (m ++ c)) pos len = m := by
  rw [hpos, hlen, slice, List.drop_left, List.take_left]

/-- A window in front of a cut is a window of the whole. -/
theorem slice_take (b : List α) {cut pos len : Nat} (h : pos + len ≤ cut) :
    slice (b.take cut) pos len = slice b pos len := by
  refine List.ext_getElem? fun i => ?_
  rw [getElem?_slice, getElem?_slice]
  by_cases hi : i < len
  · rw [if_pos hi, if_pos hi, List.getElem?_take, if_pos (by omega)]
  · rw [if_neg hi, if_neg hi]

/-- Cutting after an overwrite: what was written past the cut is lost. -/
theorem take_splice (b src : List α) {cut pos : Nat} (hpos : pos ≤ cut)
    (hcut : cut ≤ b.length) (h : pos + src.length ≤ b.length) :
    (splice b src pos).take cut = splice (b.take cut) (src.take (cut - pos)) pos := by
  have hb : (b.take cut).length = cut := by
    rw [List.length_take]
    omega
  have hs : (src.take (cut - pos)).length = min (cut - pos) src.length :=
    List.length_take
  refine List.ext_getElem? fun i => ?_
  rw [List.getElem?_take, getElem?_splice b src h,
    getElem?_splice _ _ (by omega), List.getElem?_take, List.getElem?_take]
  by_cases hi : i < cut
  · rw [if_pos hi, if_pos hi]
    by_cases hin : pos ≤ i ∧ i < pos + src.length
    · rw [if_pos hin, if_pos (by omega), if_pos (by omega)]
    · rw [if_neg hin, if_neg (by omega)]
  · rw [if_neg hi, if_neg hi, if_neg (by omega)]

/-- Reading from the front. -/
theorem slice_zero (b : List α) (len : Nat) : slice b 0 len = b.take len := by
  rw [slice, List.drop_zero]

end Window

-- ============================================== order and suffixes

section Below

variable {α : Type _} [LinearOrder α]

/-- `x` and `y` agree up to a position that both have, and there `x` is
smaller. -/
def Below (x y : List α) : Prop :=
  ∃ pre a b s t, x = pre ++ a :: s ∧ y = pre ++ b :: t ∧ a < b

/-- A decided comparison is decided whatever follows. -/
theorem Below.append {x y : List α} (h : Below x y) (s t : List α) :
    Below (x ++ s) (y ++ t) := by
  obtain ⟨pre, a, b, s', t', rfl, rfl, hab⟩ := h
  exact ⟨pre, a, b, s' ++ s, t' ++ t, by simp, by simp, hab⟩

/-- A common front part does not decide. -/
theorem Below.prepend {x y : List α} (h : Below x y) (pre : List α) :
    Below (pre ++ x) (pre ++ y) := by
  obtain ⟨p, a, b, s, t, rfl, rfl, hab⟩ := h
  exact ⟨pre ++ p, a, b, s, t, by simp, by simp, hab⟩

theorem Below.of_head {a b : α} (h : a < b) (s t : List α) :
    Below (a :: s) (b :: t) :=
  ⟨[], a, b, s, t, rfl, rfl, h⟩

theorem Below.cons {x y : List α} (h : Below x y) (a : α) :
    Below (a :: x) (a :: y) :=
  h.prepend [a]

theorem Below.lt {x y : List α} (h : Below x y) : x < y := by
  obtain ⟨pre, a, b, s, t, rfl, rfl, hab⟩ := h
  induction pre with
  | nil => exact List.cons_lt_cons_iff.mpr (Or.inl hab)
  | cons c pre ih => exact List.cons_lt_cons_iff.mpr (Or.inr ⟨rfl, ih⟩)

end Below

/-- Equal-width big-endian strings compare as the numbers they spell. -/
theorem below_beBytes {w n m : Nat} (hnm : n < m) (hm : m < 256 ^ w) :
    Below (beBytes w n) (beBytes w m) := by
  induction w generalizing n m with
  | zero =>
      simp only [pow_zero, Nat.lt_one_iff] at hm
      omega
  | succ w ih =>
      have hpos : 0 < 256 ^ w := Nat.pow_pos (by omega)
      have hdm : m / 256 ^ w < 256 := by
        rw [Nat.div_lt_iff_lt_mul hpos, Nat.mul_comm]
        rwa [pow_succ] at hm
      have hle : n / 256 ^ w ≤ m / 256 ^ w := Nat.div_le_div_right (by omega)
      rw [beBytes, beBytes]
      rcases Nat.lt_or_eq_of_le hle with hlt | heq
      · refine Below.of_head ?_ _ _
        rw [UInt8.lt_iff_toNat_lt, UInt8.toNat_ofNat', UInt8.toNat_ofNat',
          Nat.mod_eq_of_lt (by omega), Nat.mod_eq_of_lt (by omega)]
        exact hlt
      · rw [heq]
        refine Below.cons (ih ?_ (Nat.mod_lt _ hpos)) _
        have h₁ := Nat.div_add_mod n (256 ^ w)
        have h₂ := Nat.div_add_mod m (256 ^ w)
        rw [heq] at h₁
        omega

end Buf
