/-
Floats as keys.

The encoder asks whether the number is at least zero and the decoder for
the top bit of the code. The two questions have the same answer for every
number but one: the negative zero is at least zero and has its sign bit
set, and flipping that bit gives the code 0. It is the one number that
decodes to another pattern (`floats_faithful_iff`), and its code stands in
front of all others, so no negative number's code is below it.
-/
import Svacara.Kvstore.Proofs.KeyOrder
import Svacara.Lib.Binary64

namespace Svacara.Kvstore

open Buf Outcome Binary64

-- ================================================== the comparison

theorem signBit_toNat : signBit.toNat = 2 ^ 63 := by decide

/-- The model's reading of `v.F64 >= 0` is the comparison of numbers. -/
theorem f64NonNeg_iff (u : UInt64) :
    f64NonNeg u = true ↔ ¬ IsNaN u ∧ ((0 : ℤ) : WithTop ℤ) ≤ value u := by
  have hmax : (0x7ff0000000000000 : UInt64).toNat = 2047 * 2 ^ 52 := by decide
  unfold f64NonNeg
  rw [Bool.or_eq_true, decide_eq_true_iff, beq_iff_eq, UInt64.le_iff_toNat_le, hmax]
  constructor
  · intro h
    rcases h with h | rfl
    · have hpos : ¬ Negative u := by
        unfold Negative
        omega
      refine ⟨?_, zero_le_value hpos⟩
      intro hnan
      obtain ⟨hexp, hfrac⟩ := hnan
      have hfields := magnitude_eq u
      rw [← toNat_of_not_negative hpos] at hfields
      omega
    · refine ⟨by decide, ?_⟩
      rw [value_of_magnitude_zero (by decide)]
  · intro h
    obtain ⟨hnum, hle⟩ := h
    by_cases hneg : Negative u
    · right
      have hzero : magnitude u = 0 := by
        by_contra hne
        exact value_ne_zero (by omega) (le_antisymm (value_le_zero hneg) hle)
      apply UInt64.toNat_inj.mp
      rw [toNat_of_negative hneg, hzero, signBit_toNat, Nat.add_zero]
    · left
      rw [toNat_of_not_negative hneg]
      exact magnitude_le hnum

theorem f64NonNeg_of_not_negative {u : UInt64} (hu : ¬ IsNaN u) (h : ¬ Negative u) :
    f64NonNeg u = true :=
  (f64NonNeg_iff u).mpr ⟨hu, zero_le_value h⟩

/-- Of the patterns with the sign bit only the zero is at least zero. -/
theorem f64NonNeg_of_negative {u : UInt64} (hne : u ≠ signBit) (h : Negative u) :
    f64NonNeg u = false := by
  by_contra hnonneg
  obtain ⟨-, hle⟩ := (f64NonNeg_iff u).mp (Bool.of_not_eq_false hnonneg)
  have hpos : 0 < magnitude u := by
    by_contra hzero
    apply hne
    apply UInt64.toNat_inj.mp
    rw [toNat_of_negative h, signBit_toNat]
    omega
  exact value_ne_zero hpos (le_antisymm (value_le_zero h) hle)

-- ======================================================== the code

/-- The word that a float is encoded as. -/
def floatCode (u : UInt64) : UInt64 := if f64NonNeg u then u ^^^ signBit else ~~~u

/-- The pattern that a word is decoded to. -/
def floatDecode (u : UInt64) : UInt64 := if u >>> 63 = 0 then ~~~u else u ^^^ signBit

def floatValue (u : UInt64) : Value := { type := typeFloat64, f64 := u }

theorem encodeValues_float (u : UInt64) :
    encodeValues [] [floatValue u]
      = .ok (typeFloat64 :: beBytes 8 (floatCode u).toNat) := rfl

theorem decodeValues_float (w : UInt64) :
    decodeValues (typeFloat64 :: beBytes 8 w.toNat) [] = .ok [floatValue (floatDecode w)] := by
  have hvalue : decodeValue typeFloat64 (beBytes 8 w.toNat)
      = .ok (floatValue (floatDecode w), []) := by
    have htake := takeUint64_append w []
    rw [List.append_nil] at htake
    unfold decodeValue
    rw [if_neg (by decide), if_neg (by decide), if_neg (by decide), if_pos rfl, htake]
    rfl
  rw [decodeValues, List.length_cons, decodeLoop, hvalue, ok_bind]
  dsimp only
  rw [length_beBytes]
  rfl

theorem floatCode_of_not_negative {u : UInt64} (hu : ¬ IsNaN u) (h : ¬ Negative u) :
    (floatCode u).toNat = 2 ^ 63 + u.toNat := by
  unfold Negative at h
  rw [floatCode, if_pos (f64NonNeg_of_not_negative hu h), UInt64.toNat_xor, signBit_toNat,
    xor_two_pow_of_lt (by omega)]

theorem floatCode_of_negative {u : UInt64} (hne : u ≠ signBit) (h : Negative u) :
    (floatCode u).toNat = 2 ^ 64 - 1 - u.toNat := by
  rw [floatCode, f64NonNeg_of_negative hne h]
  exact UInt64.toNat_not u

theorem shiftRight_eq_zero_iff (w : UInt64) : w >>> 63 = 0 ↔ w.toNat < 2 ^ 63 := by
  rw [← UInt64.toNat_inj, UInt64.toNat_shiftRight]
  show w.toNat >>> 63 = 0 ↔ _
  rw [Nat.shiftRight_eq_div_pow, Nat.div_eq_zero_iff]
  omega

-- ================================================== there and back

theorem floatDecode_floatCode {u : UInt64} (hu : ¬ IsNaN u) (hne : u ≠ signBit) :
    floatDecode (floatCode u) = u := by
  have hlt := u.toNat_lt
  unfold floatDecode
  by_cases h : Negative u
  · have hcode := floatCode_of_negative hne h
    unfold Negative at h
    rw [if_pos ((shiftRight_eq_zero_iff _).mpr (by omega)), floatCode,
      f64NonNeg_of_negative hne h]
    exact UInt64.not_not
  · have hcode := floatCode_of_not_negative hu h
    rw [if_neg (mt (shiftRight_eq_zero_iff _).mp (by omega)), floatCode,
      if_pos (f64NonNeg_of_not_negative hu h), UInt64.xor_assoc, UInt64.xor_self,
      UInt64.xor_zero]

/-- The negative zero comes back as no number. -/
theorem floatDecode_negative_zero : floatDecode (floatCode signBit) = 0xffffffffffffffff := by
  decide

-- ======================================================== in order

theorem floatCode_lt {a b : UInt64} (ha : ¬ IsNaN a) (hb : ¬ IsNaN b)
    (hne : b ≠ signBit) (h : value a < value b) :
    (floatCode a).toNat < (floatCode b).toNat := by
  rw [value_lt_iff ha hb] at h
  have hlta := a.toNat_lt
  have hltb := b.toNat_lt
  unfold rank at h
  by_cases hzero : a = signBit
  · -- the code of the negative zero is 0, and what is above it is positive
    subst hzero
    have hb' : ¬ Negative b := by
      intro hneg
      rw [if_pos (show Negative signBit by decide), if_pos hneg] at h
      have hm : magnitude signBit = 0 := by decide
      omega
    rw [floatCode_of_not_negative hb hb']
    exact lt_of_lt_of_le (show (floatCode signBit).toNat < 2 ^ 63 by decide)
      (Nat.le_add_right _ _)
  · by_cases hnega : Negative a
    · rw [if_pos hnega] at h
      have hnat := toNat_of_negative hnega
      rw [floatCode_of_negative hzero hnega]
      by_cases hnegb : Negative b
      · rw [if_pos hnegb] at h
        have hnat' := toNat_of_negative hnegb
        rw [floatCode_of_negative hne hnegb]
        omega
      · rw [floatCode_of_not_negative hb hnegb]
        omega
    · rw [if_neg hnega] at h
      by_cases hnegb : Negative b
      · rw [if_pos hnegb] at h
        omega
      · rw [if_neg hnegb] at h
        rw [floatCode_of_not_negative ha hnega, floatCode_of_not_negative hb hnegb,
          toNat_of_not_negative hnega, toNat_of_not_negative hnegb]
        omega

/-- Encodings compare as the codes do. -/
theorem encoded_lt_iff (a b : UInt64) :
    typeFloat64 :: beBytes 8 (floatCode a).toNat < typeFloat64 :: beBytes 8 (floatCode b).toNat
      ↔ (floatCode a).toNat < (floatCode b).toNat := by
  have hbound : ∀ u : UInt64, (floatCode u).toNat < 256 ^ 8 := fun u => (floatCode u).toNat_lt
  rw [List.cons_lt_cons_iff]
  constructor
  · intro h
    by_contra hge
    have hlt := h.resolve_left (lt_irrefl _)
    rcases Nat.lt_or_eq_of_le (not_lt.mp hge) with hgt | heq
    · exact absurd hlt.2 (not_lt_of_gt (below_beBytes hgt (hbound a)).lt)
    · rw [heq] at hlt
      exact absurd hlt.2 (lt_irrefl _)
  · intro h
    exact Or.inr ⟨rfl, (below_beBytes h (hbound b)).lt⟩

-- ========================================================= results

/-- Encoding and decoding gives the pattern back. -/
def FloatReturns (u : UInt64) : Prop :=
  ∃ bs, encodeValues [] [floatValue u] = .ok bs ∧ decodeValues bs [] = .ok [floatValue u]

/-- The encoding of `a` comes before that of `b`. -/
def FloatBelow (a b : UInt64) : Prop :=
  ∃ ea eb, encodeValues [] [floatValue a] = .ok ea ∧ encodeValues [] [floatValue b] = .ok eb
    ∧ ea < eb

theorem floatReturns_iff (u : UInt64) : FloatReturns u ↔ floatDecode (floatCode u) = u := by
  unfold FloatReturns
  rw [encodeValues_float]
  constructor
  · intro h
    obtain ⟨bs, hbs, hdec⟩ := h
    cases hbs
    rw [decodeValues_float] at hdec
    simpa [floatValue] using hdec
  · intro h
    refine ⟨_, rfl, ?_⟩
    rw [decodeValues_float, h]

theorem floatBelow_iff (a b : UInt64) :
    FloatBelow a b ↔ (floatCode a).toNat < (floatCode b).toNat := by
  unfold FloatBelow
  rw [encodeValues_float, encodeValues_float, ← encoded_lt_iff]
  constructor
  · intro h
    obtain ⟨ea, eb, ha, hb, hlt⟩ := h
    cases ha
    cases hb
    exact hlt
  · intro h
    exact ⟨_, _, rfl, rfl, h⟩

/-- Every number but the negative zero comes back, and codes are in the
order of the numbers except below the negative zero. -/
theorem floats_faithful_iff (u a b : UInt64) (hu : ¬ IsNaN u) (ha : ¬ IsNaN a)
    (hb : ¬ IsNaN b) (hab : value a < value b) :
    (FloatReturns u ↔ u ≠ signBit) ∧ (FloatBelow a b ↔ b ≠ signBit) := by
  rw [floatReturns_iff, floatBelow_iff]
  refine ⟨⟨?_, floatDecode_floatCode hu⟩, ⟨?_, fun hne => floatCode_lt ha hb hne hab⟩⟩
  · intro h heq
    rw [heq, floatDecode_negative_zero] at h
    exact absurd h (by decide)
  · intro h heq
    have hzero : (floatCode signBit).toNat = 0 := by decide
    rw [heq, hzero] at h
    omega

/-- 1.0, and -1.0 below 1.0. -/
theorem floats_faithful_iff_one :
    FloatReturns 0x3ff0000000000000
      ∧ FloatBelow 0xbff0000000000000 0x3ff0000000000000 := by
  have h := floats_faithful_iff 0x3ff0000000000000 0xbff0000000000000 0x3ff0000000000000
    (by decide) (by decide) (by decide)
    ((value_lt_iff (by decide) (by decide)).mpr (by decide))
  exact ⟨h.1.mpr (by decide), h.2.mpr (by decide)⟩

/-- The negative zero does not come back, and -1.0 is not encoded below
it. -/
theorem negative_zero_misplaced :
    ¬ IsNaN signBit ∧ ¬ FloatReturns signBit
      ∧ value 0xbff0000000000000 < value signBit
      ∧ ¬ FloatBelow 0xbff0000000000000 signBit := by
  rw [floatReturns_iff, floatBelow_iff]
  exact ⟨by decide, by decide, (value_lt_iff (by decide) (by decide)).mpr (by decide),
    by decide⟩

end Svacara.Kvstore
