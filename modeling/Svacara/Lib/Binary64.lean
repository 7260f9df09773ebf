/-
The 64-bit patterns of IEEE-754 and their order.

A pattern is a sign bit, eleven bits of exponent and 52 bits of fraction.
A finite number is an integer multiple of 2^-1074, the least positive one,
so `value` counts in these units and needs no fractions; the infinities
are the ends of the line. An exponent of ones with a fraction is no number.

Apart from the sign the order of the numbers is the order of the patterns
(`units_lt`): within one exponent the fraction decides, and the numbers of
an exponent end below those of the next one. `rank` puts the sign in
front, and two numbers compare as their ranks do (`value_lt_iff`). The two
zeros have one rank.
-/
import Mathlib

namespace Binary64

-- ========================================================== fields

def fraction (u : UInt64) : Nat := u.toNat % 2 ^ 52

def exponent (u : UInt64) : Nat := u.toNat / 2 ^ 52 % 2 ^ 11

def Negative (u : UInt64) : Prop := 2 ^ 63 ≤ u.toNat

instance (u : UInt64) : Decidable (Negative u) := inferInstanceAs (Decidable (_ ≤ _))

def IsNaN (u : UInt64) : Prop := exponent u = 2047 ∧ fraction u ≠ 0

instance (u : UInt64) : Decidable (IsNaN u) := inferInstanceAs (Decidable (_ ∧ _))

-- =========================================================== value

/-- The magnitude of a finite number, in units of 2^-1074. -/
def units (u : UInt64) : Nat :=
  if exponent u = 0 then fraction u else (2 ^ 52 + fraction u) * 2 ^ (exponent u - 1)

/-- The number a pattern stands for, unless it stands for none. -/
def value (u : UInt64) : WithBot (WithTop ℤ) :=
  if exponent u = 2047 then if Negative u then ⊥ else (⊤ : WithTop ℤ)
  else if Negative u then ((-units u : ℤ) : WithTop ℤ) else ((units u : ℤ) : WithTop ℤ)

/-- The pattern without its sign bit. -/
def magnitude (u : UInt64) : Nat := u.toNat % 2 ^ 63

/-- The magnitude with the sign in front. -/
def rank (u : UInt64) : ℤ := if Negative u then -(magnitude u : ℤ) else magnitude u

-- ============================================== magnitudes compare

theorem magnitude_eq (u : UInt64) : magnitude u = exponent u * 2 ^ 52 + fraction u := by
  unfold magnitude exponent fraction
  omega

theorem fraction_lt (u : UInt64) : fraction u < 2 ^ 52 := Nat.mod_lt _ (by decide)

theorem exponent_le (u : UInt64) : exponent u ≤ 2047 :=
  Nat.le_of_lt_succ (Nat.mod_lt _ (by decide))

/-- The numbers of an exponent start where those of the exponents below it
have ended. -/
theorem units_ge {u : UInt64} {e : Nat} (h : e < exponent u) : 2 ^ 52 * 2 ^ e ≤ units u := by
  rw [units, if_neg (by omega)]
  have hpow : 2 ^ e ≤ 2 ^ (exponent u - 1) := Nat.pow_le_pow_right (by decide) (by omega)
  calc 2 ^ 52 * 2 ^ e ≤ 2 ^ 52 * 2 ^ (exponent u - 1) := Nat.mul_le_mul_left _ hpow
    _ ≤ (2 ^ 52 + fraction u) * 2 ^ (exponent u - 1) :=
        Nat.mul_le_mul_right _ (Nat.le_add_right _ _)

theorem units_lt_next (u : UInt64) : units u < 2 ^ 52 * 2 ^ exponent u := by
  have hfrac := fraction_lt u
  unfold units
  split
  · next h =>
      rw [h]
      omega
  · next h =>
      have hpos : 0 < 2 ^ (exponent u - 1) := Nat.two_pow_pos _
      calc (2 ^ 52 + fraction u) * 2 ^ (exponent u - 1)
          < (2 ^ 52 * 2) * 2 ^ (exponent u - 1) := Nat.mul_lt_mul_of_pos_right (by omega) hpos
        _ = 2 ^ 52 * 2 ^ (exponent u - 1 + 1) := by ring
        _ = 2 ^ 52 * 2 ^ exponent u := by rw [Nat.sub_add_cancel (by omega)]

theorem units_lt {u v : UInt64} (h : magnitude u < magnitude v) : units u < units v := by
  rw [magnitude_eq, magnitude_eq] at h
  have hu := fraction_lt u
  have hv := fraction_lt v
  rcases Nat.lt_trichotomy (exponent u) (exponent v) with he | he | he
  · exact lt_of_lt_of_le (units_lt_next u) (units_ge he)
  · have hfrac : fraction u < fraction v := by
      rw [he] at h
      omega
    unfold units
    rw [he]
    split
    · exact hfrac
    · exact Nat.mul_lt_mul_of_pos_right (by omega) (Nat.two_pow_pos _)
  · omega

-- ================================================= numbers compare

/-- With an exponent of ones only the infinities are numbers. -/
theorem magnitude_le {u : UInt64} (hu : ¬ IsNaN u) : magnitude u ≤ 2047 * 2 ^ 52 := by
  have hfrac := fraction_lt u
  have hexp := exponent_le u
  rw [magnitude_eq]
  by_cases he : exponent u = 2047
  · have hzero : fraction u = 0 := by
      by_contra hne
      exact hu ⟨he, hne⟩
    omega
  · omega

theorem exponent_lt_of_magnitude_lt {u v : UInt64} (hv : ¬ IsNaN v)
    (h : magnitude u < magnitude v) : exponent u ≠ 2047 := by
  have hle := magnitude_le hv
  rw [magnitude_eq u] at h
  omega

theorem value_of_negative {u : UInt64} (h : Negative u) (he : exponent u ≠ 2047) :
    value u = ((-units u : ℤ) : WithTop ℤ) := by
  rw [value, if_neg he, if_pos h]

theorem value_of_not_negative {u : UInt64} (h : ¬ Negative u) (he : exponent u ≠ 2047) :
    value u = ((units u : ℤ) : WithTop ℤ) := by
  rw [value, if_neg he, if_neg h]

theorem value_le_zero {u : UInt64} (h : Negative u) : value u ≤ ((0 : ℤ) : WithTop ℤ) := by
  by_cases he : exponent u = 2047
  · rw [value, if_pos he, if_pos h]
    exact bot_le
  · rw [value_of_negative h he, WithBot.coe_le_coe, WithTop.coe_le_coe]
    omega

theorem zero_le_value {u : UInt64} (h : ¬ Negative u) : ((0 : ℤ) : WithTop ℤ) ≤ value u := by
  by_cases he : exponent u = 2047
  · rw [value, if_pos he, if_neg h, WithBot.coe_le_coe]
    exact le_top
  · rw [value_of_not_negative h he, WithBot.coe_le_coe, WithTop.coe_le_coe]
    omega

/-- Above zero the larger magnitude is the larger number. -/
theorem value_lt_of_magnitude {u v : UInt64} (hv : ¬ IsNaN v) (hpos : ¬ Negative u)
    (hpos' : ¬ Negative v) (h : magnitude u < magnitude v) : value u < value v := by
  have hunits := units_lt h
  rw [value_of_not_negative hpos (exponent_lt_of_magnitude_lt hv h)]
  by_cases he : exponent v = 2047
  · rw [value, if_pos he, if_neg hpos', WithBot.coe_lt_coe]
    exact WithTop.coe_lt_top _
  · rw [value_of_not_negative hpos' he, WithBot.coe_lt_coe, WithTop.coe_lt_coe]
    omega

/-- Below zero it is the smaller one. -/
theorem value_gt_of_magnitude {u v : UInt64} (hv : ¬ IsNaN v) (hneg : Negative u)
    (hneg' : Negative v) (h : magnitude u < magnitude v) : value v < value u := by
  have hunits := units_lt h
  rw [value_of_negative hneg (exponent_lt_of_magnitude_lt hv h)]
  by_cases he : exponent v = 2047
  · rw [value, if_pos he, if_pos hneg']
    exact WithBot.bot_lt_coe _
  · rw [value_of_negative hneg' he, WithBot.coe_lt_coe, WithTop.coe_lt_coe]
    omega

/-- A pattern other than the zeros is not zero. -/
theorem value_ne_zero {u : UInt64} (h : 0 < magnitude u) : value u ≠ ((0 : ℤ) : WithTop ℤ) := by
  have hunits : 0 < units u := lt_of_le_of_lt (Nat.zero_le _) (units_lt (u := 0) h)
  unfold value
  split
  · split
    · exact WithBot.bot_ne_coe
    · rw [Ne, WithBot.coe_inj]
      exact WithTop.top_ne_coe
  · split
    · rw [Ne, WithBot.coe_inj, WithTop.coe_inj]
      omega
    · rw [Ne, WithBot.coe_inj, WithTop.coe_inj]
      omega

theorem value_lt_of_rank {u v : UInt64} (hu : ¬ IsNaN u) (hv : ¬ IsNaN v)
    (h : rank u < rank v) : value u < value v := by
  unfold rank at h
  by_cases hneg : Negative u
  · rw [if_pos hneg] at h
    by_cases hneg' : Negative v
    · rw [if_pos hneg'] at h
      exact value_gt_of_magnitude hu hneg' hneg (by omega)
    · -- one of the two is not a zero
      rw [if_neg hneg'] at h
      have hle := (value_le_zero hneg).trans (zero_le_value hneg')
      refine lt_of_le_of_ne hle fun heq => ?_
      have hzero := le_antisymm (value_le_zero hneg) (heq ▸ zero_le_value hneg')
      have hzero' := heq ▸ hzero
      rcases Nat.eq_zero_or_pos (magnitude u) with hm | hm
      · exact value_ne_zero (by omega) hzero'
      · exact value_ne_zero hm hzero
  · rw [if_neg hneg] at h
    by_cases hneg' : Negative v
    · rw [if_pos hneg'] at h
      omega
    · rw [if_neg hneg'] at h
      exact value_lt_of_magnitude hv hneg hneg' (by omega)

theorem value_of_magnitude_zero {u : UInt64} (h : magnitude u = 0) :
    value u = ((0 : ℤ) : WithTop ℤ) := by
  have hfields := magnitude_eq u
  have hexp : exponent u = 0 := by omega
  have hunits : units u = 0 := by
    rw [units, if_pos hexp]
    omega
  by_cases hneg : Negative u
  · rw [value_of_negative hneg (by omega), hunits]
    rfl
  · rw [value_of_not_negative hneg (by omega), hunits]
    rfl

theorem toNat_of_negative {u : UInt64} (h : Negative u) : u.toNat = 2 ^ 63 + magnitude u := by
  have hlt := u.toNat_lt
  unfold Negative at h
  unfold magnitude
  omega

theorem toNat_of_not_negative {u : UInt64} (h : ¬ Negative u) : u.toNat = magnitude u := by
  unfold Negative at h
  unfold magnitude
  omega

/-- One rank is one number: two patterns with it are equal or the zeros. -/
theorem value_eq_of_rank {u v : UInt64} (h : rank u = rank v) : value u = value v := by
  unfold rank at h
  by_cases hneg : Negative u
  · rw [if_pos hneg] at h
    by_cases hneg' : Negative v
    · rw [if_pos hneg'] at h
      have hu := toNat_of_negative hneg
      have hv := toNat_of_negative hneg'
      rw [UInt64.toNat_inj.mp (show u.toNat = v.toNat by omega)]
    · rw [if_neg hneg'] at h
      rw [value_of_magnitude_zero (u := u) (by omega),
        value_of_magnitude_zero (u := v) (by omega)]
  · rw [if_neg hneg] at h
    by_cases hneg' : Negative v
    · rw [if_pos hneg'] at h
      rw [value_of_magnitude_zero (u := u) (by omega),
        value_of_magnitude_zero (u := v) (by omega)]
    · rw [if_neg hneg'] at h
      have hu := toNat_of_not_negative hneg
      have hv := toNat_of_not_negative hneg'
      rw [UInt64.toNat_inj.mp (show u.toNat = v.toNat by omega)]

/-- Numbers compare as their ranks. -/
theorem value_lt_iff {u v : UInt64} (hu : ¬ IsNaN u) (hv : ¬ IsNaN v) :
    value u < value v ↔ rank u < rank v := by
  constructor
  · intro h
    rcases lt_trichotomy (rank u) (rank v) with hr | hr | hr
    · exact hr
    · exact absurd (value_eq_of_rank hr) (ne_of_lt h)
    · exact absurd h (not_lt_of_gt (value_lt_of_rank hv hu hr))
  · exact value_lt_of_rank hu hv

end Binary64
