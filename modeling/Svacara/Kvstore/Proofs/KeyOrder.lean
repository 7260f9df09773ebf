/-
The byte order of keys is the order of what they encode.

# The order meant

`compareTuples` is the lexicographic order on tuples: integers by value,
strings by their unsigned bytes, false before true, and a tuple before
its extensions. `comparePrefixed` puts the table prefix in front.

# Why the bytes follow it

Two encodings of one type either are equal or differ at a byte both have
(`Buf.Below`), so what stands behind a column never decides about it. For
an integer that is the fixed width, with the sign bit flipped so that
negative numbers come first; for a string it is the terminator, a byte
smaller than any the escaped string contains.
-/
import Svacara.Kvstore.Proofs.RoundTrip
import Svacara.Btree.Proofs.Search

namespace Svacara.Kvstore

open Buf Outcome Btree

-- ================================================= the order meant

/-- `v` comes before `w`, for two values of one key type. -/
def Value.Before (v w : Value) : Prop :=
  if v.type = typeInt64 then v.i64.toInt < w.i64.toInt
  else if v.type = typeBytes then v.str < w.str
  else v.bool = false ∧ w.bool = true

instance (v w : Value) : Decidable (v.Before w) := by
  unfold Value.Before
  infer_instance

/-- -1, 0 or 1, as the first tuple is before, equal to or behind the
second. -/
def compareTuples : List Value → List Value → Int
  | [], [] => 0
  | [], _ :: _ => -1
  | _ :: _, [] => 1
  | v :: a, w :: b =>
      if v.Before w then -1 else if w.Before v then 1 else compareTuples a b

def comparePrefixed (p : UInt32) (a : List Value) (q : UInt32) (b : List Value) :
    Int :=
  if p.toNat < q.toNat then -1
  else if q.toNat < p.toNat then 1
  else compareTuples a b

/-- The tuples have equal types at every position both have. -/
def SameTypes (a b : List Value) : Prop :=
  ∀ vw ∈ a.zip b, vw.1.type = vw.2.type

instance (a b : List Value) : Decidable (SameTypes a b) :=
  inferInstanceAs (Decidable (∀ vw ∈ a.zip b, _))

-- ======================================================== integers

/-- Flipping a top bit that is clear adds it. -/
theorem xor_two_pow_of_lt {n w : Nat} (h : n < 2 ^ w) : n ^^^ 2 ^ w = 2 ^ w + n := by
  apply Nat.eq_of_testBit_eq
  intro i
  rw [Nat.testBit_xor, Nat.testBit_two_pow]
  rcases Nat.lt_trichotomy i w with hi | rfl | hi
  · rw [Nat.testBit_two_pow_add_gt hi]
    simp [Nat.ne_of_gt hi]
  · rw [Nat.testBit_two_pow_add_eq, Nat.testBit_lt_two_pow h]
    simp
  · have hpow : 2 ^ w * 2 ≤ 2 ^ i := by
      rw [← Nat.pow_succ]
      exact Nat.pow_le_pow_right (by decide) hi
    rw [Nat.testBit_lt_two_pow (by omega : n < 2 ^ i),
      Nat.testBit_lt_two_pow (by omega : 2 ^ w + n < 2 ^ i)]
    simp [Nat.ne_of_lt hi]

/-- The flipped integer is the integer moved up into the naturals. -/
theorem toNat_flip (x : Int64) :
    ((x.toUInt64 ^^^ signBit).toNat : Int) = x.toInt + 2 ^ 63 := by
  have hint : x.toInt = if 2 * x.toUInt64.toNat < 2 ^ 64 then
      (x.toUInt64.toNat : Int) else (x.toUInt64.toNat : Int) - (2 ^ 64 : Nat) :=
    BitVec.toInt_eq_toNat_cond x.toBitVec
  have hlt : x.toUInt64.toNat < 2 ^ 64 := x.toUInt64.toNat_lt
  have hsign : signBit.toNat = 2 ^ 63 := by decide
  rw [UInt64.toNat_xor, hsign, hint]
  generalize x.toUInt64.toNat = n at hlt
  by_cases h : n < 2 ^ 63
  · rw [xor_two_pow_of_lt h, if_pos (by omega)]
    omega
  · obtain ⟨k, rfl⟩ : ∃ k, n = 2 ^ 63 + k := ⟨n - 2 ^ 63, by omega⟩
    rw [← xor_two_pow_of_lt (by omega), Nat.xor_assoc, Nat.xor_self, Nat.xor_zero,
      xor_two_pow_of_lt (by omega), if_neg (by omega)]
    omega

theorem below_int64 {x y : Int64} (h : x.toInt < y.toInt) :
    Below (beBytes 8 (x.toUInt64 ^^^ signBit).toNat)
      (beBytes 8 (y.toUInt64 ^^^ signBit).toNat) := by
  have hx := toNat_flip x
  have hy := toNat_flip y
  exact below_beBytes (by omega) (y.toUInt64 ^^^ signBit).toNat_lt

-- ========================================================= strings

theorem one_lt_of_ne {b : UInt8} (h0 : b ≠ 0) (h1 : b ≠ 1) : 1 < b := by
  rw [UInt8.lt_iff_toNat_lt]
  have h0' : b.toNat ≠ 0 := fun h => h0 (UInt8.toNat_inj.mp h)
  have h1' : b.toNat ≠ 1 := fun h => h1 (UInt8.toNat_inj.mp h)
  show 1 < b.toNat
  omega

/-- Escaping starts with a byte above the terminator. -/
theorem escapeByte_head (b : UInt8) : ∃ c r, escapeByte b = c :: r ∧ 0 < c := by
  unfold escapeByte
  by_cases h0 : b = 0
  · exact ⟨1, [1], if_pos h0, by decide⟩
  · rw [if_neg h0]
    by_cases h1 : b = 1
    · exact ⟨1, [2], if_pos h1, by decide⟩
    · exact ⟨b, [], if_neg h1, lt_trans (by decide) (one_lt_of_ne h0 h1)⟩

theorem below_escapeByte {a b : UInt8} (h : a < b) (s t : Bytes) :
    Below (escapeByte a ++ s) (escapeByte b ++ t) := by
  have hb0 : b ≠ 0 := by
    rintro rfl
    exact absurd (UInt8.lt_iff_toNat_lt.mp h) (Nat.not_lt_zero _)
  unfold escapeByte
  rw [if_neg hb0]
  by_cases ha0 : a = 0
  · rw [if_pos ha0]
    by_cases hb1 : b = 1
    · rw [if_pos hb1]
      exact (Below.of_head (by decide) s t).cons 1
    · rw [if_neg hb1]
      exact Below.of_head (one_lt_of_ne hb0 hb1) _ _
  · have hb1 : b ≠ 1 := by
      rintro rfl
      apply ha0
      apply UInt8.toNat_inj.mp
      have hlt : a.toNat < 1 := UInt8.lt_iff_toNat_lt.mp h
      show a.toNat = 0
      omega
    rw [if_neg ha0, if_neg hb1]
    by_cases ha1 : a = 1
    · rw [if_pos ha1]
      exact Below.of_head (one_lt_of_ne hb0 hb1) _ _
    · rw [if_neg ha1]
      exact Below.of_head h _ _

/-- A smaller string is smaller at a byte of its own, terminator
included. The induction is on the smaller string. -/
theorem below_escapeBytes : ∀ {x y : Bytes}, x < y →
    Below (escapeBytes x ++ [0]) (escapeBytes y ++ [0]) := by
  intro x
  induction x with
  | nil =>
      intro y h
      cases y with
      | nil => exact absurd h (lt_irrefl _)
      | cons b y =>
          obtain ⟨c, r, hc, hpos⟩ := escapeByte_head b
          show Below [0] ((escapeByte b ++ escapeBytes y) ++ [0])
          rw [hc, List.cons_append, List.cons_append]
          exact Below.of_head hpos _ _
  | cons a x ih =>
      intro y h
      cases y with
      | nil => exact absurd h (List.not_lt_nil _)
      | cons b y =>
          show Below ((escapeByte a ++ escapeBytes x) ++ [0])
            ((escapeByte b ++ escapeBytes y) ++ [0])
          rw [List.append_assoc, List.append_assoc]
          rcases List.cons_lt_cons_iff.mp h with hab | ⟨rfl, hxy⟩
          · exact below_escapeByte hab _ _
          · exact (ih hxy).prepend _

-- ========================================================== values

/-- Of two values of one type the smaller has the smaller bytes. -/
theorem below_body {v w : Value} (ht : v.type = w.type) (h : v.Before w) :
    Below v.body w.body := by
  unfold Value.Before at h
  unfold Value.body
  rw [← ht]
  by_cases h₁ : v.type = typeInt64
  · rw [if_pos h₁] at h
    rw [if_pos h₁, if_pos h₁]
    exact below_int64 h
  · rw [if_neg h₁] at h
    rw [if_neg h₁, if_neg h₁]
    by_cases h₂ : v.type = typeBytes
    · rw [if_pos h₂] at h
      rw [if_pos h₂, if_pos h₂]
      exact below_escapeBytes h
    · rw [if_neg h₂] at h
      rw [if_neg h₂, if_neg h₂, h.1, h.2]
      exact Below.of_head (by decide) _ _

/-- Values of one type that are neither before nor behind each other have
the same bytes. -/
theorem body_eq {v w : Value} (ht : v.type = w.type) (h : ¬ v.Before w)
    (h' : ¬ w.Before v) : v.body = w.body := by
  unfold Value.Before at h h'
  unfold Value.body
  rw [← ht] at h' ⊢
  by_cases h₁ : v.type = typeInt64
  · rw [if_pos h₁] at h h'
    have heq : v.i64 = w.i64 := Int64.toInt_inj.mp (by omega)
    rw [if_pos h₁, if_pos h₁, heq]
  · rw [if_neg h₁] at h h'
    rw [if_neg h₁, if_neg h₁]
    by_cases h₂ : v.type = typeBytes
    · rw [if_pos h₂] at h h'
      rw [if_pos h₂, if_pos h₂, le_antisymm (not_lt.mp h') (not_lt.mp h)]
    · rw [if_neg h₂] at h h'
      rw [if_neg h₂, if_neg h₂]
      cases hv : v.bool with
      | false =>
          cases hw : w.bool with
          | false => rfl
          | true => exact absurd ⟨hv, hw⟩ h
      | true =>
          cases hw : w.bool with
          | false => exact absurd ⟨hw, hv⟩ h'
          | true => rfl

-- ========================================================== tuples

/-- The induction is on the first tuple: equal columns are a common front
part, and the first ones that differ decide. -/
theorem cmp_valuesBytes : ∀ (a b : List Value), SameTypes a b →
    Btree.cmp (valuesBytes a) (valuesBytes b) = compareTuples a b := by
  intro a
  induction a with
  | nil =>
      intro b _
      cases b with
      | nil => rfl
      | cons w b => rfl
  | cons v a ih =>
      intro b hty
      cases b with
      | nil => rfl
      | cons w b =>
          have ht : v.type = w.type := hty (v, w) (List.mem_cons_self ..)
          rw [valuesBytes_cons, valuesBytes_cons, compareTuples, ← ht]
          by_cases hvw : v.Before w
          · have hlt := (((below_body ht hvw).append (valuesBytes a)
              (valuesBytes b)).cons v.type).lt
            rw [if_pos hvw, cmp_of_lt hlt]
          · rw [if_neg hvw]
            by_cases hwv : w.Before v
            · have hlt := (((below_body ht.symm hwv).append (valuesBytes b)
                (valuesBytes a)).cons v.type).lt
              rw [if_pos hwv, cmp_of_gt hlt]
            · rw [if_neg hwv, body_eq ht hvw hwv]
              show Btree.cmp ((v.type :: w.body) ++ valuesBytes a)
                ((v.type :: w.body) ++ valuesBytes b) = _
              rw [cmp_append_left]
              exact ih b fun vw hmem => hty vw (List.mem_cons_of_mem _ hmem)

/-- Encoded keys compare as the prefixed tuples they encode. -/
theorem compareKeys_encodeKey (p q : UInt32) (a b : List Value)
    (ha : ∀ v ∈ a, v.IsKey) (hb : ∀ w ∈ b, w.IsKey) (hty : SameTypes a b) :
    ∃ ka kb, encodeKey [] p a = .ok ka ∧ encodeKey [] q b = .ok kb
      ∧ compareKeys ka kb = comparePrefixed p a q b := by
  refine ⟨_, _, encodeValues_eq ha _, encodeValues_eq hb _, ?_⟩
  rw [List.nil_append, List.nil_append, compareKeys]
  unfold comparePrefixed
  by_cases hpq : p.toNat < q.toNat
  · have hq : q.toNat < 256 ^ 4 := q.toNat_lt
    have hlt := ((below_beBytes hpq hq).append (valuesBytes a)
      (valuesBytes b)).lt
    rw [if_pos hpq, cmp_of_lt hlt]
  · rw [if_neg hpq]
    by_cases hqp : q.toNat < p.toNat
    · have hp : p.toNat < 256 ^ 4 := p.toNat_lt
      have hlt := ((below_beBytes hqp hp).append (valuesBytes b)
        (valuesBytes a)).lt
      rw [if_pos hqp, cmp_of_gt hlt]
    · rw [if_neg hqp, show p.toNat = q.toNat by omega, cmp_append_left]
      exact cmp_valuesBytes a b hty

/-- A string column in front of an integer: the terminator decides before
the integer is looked at. -/
theorem compareKeys_encodeKey_row :
    ∃ ka kb, encodeKey [] 7 [{ type := 2, str := [0] }, { type := 1, i64 := 3 }]
        = .ok ka
      ∧ encodeKey [] 7 [{ type := 2, str := [0, 1] }, { type := 1, i64 := -3 }]
        = .ok kb
      ∧ compareKeys ka kb = -1 :=
  compareKeys_encodeKey 7 7 [{ type := 2, str := [0] }, { type := 1, i64 := 3 }]
    [{ type := 2, str := [0, 1] }, { type := 1, i64 := -3 }] (by decide) (by decide)
    (by decide)

end Svacara.Kvstore
