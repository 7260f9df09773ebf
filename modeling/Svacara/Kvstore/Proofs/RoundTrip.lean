/-
Decoding undoes encoding.

One value first: whatever bytes follow its encoding, `decodeValue` takes
exactly its own part (`decodeValue_encode`). For a string that needs the
terminator to be found, so that the escaped bytes have no zero
(`zero_notMem_escapeBytes`), and the escapes to be undone
(`unescape_escape`). The loop over a list of values is then an induction
on the list.
-/
import Svacara.Kvstore.Encoding
import Svacara.Lib.Outcome

namespace Svacara.Kvstore

open Buf Outcome

/-- The types a key may have: all but floats. -/
def Value.IsKey (v : Value) : Prop :=
  v.type = typeInt64 ∨ v.type = typeBytes ∨ v.type = typeBool

instance (v : Value) : Decidable v.IsKey :=
  inferInstanceAs (Decidable (_ ∨ _ ∨ _))

/-- Two values are the same if they have one type and agree on the field
it selects. -/
structure Value.Same (v w : Value) : Prop where
  type : v.type = w.type
  i64 : v.type = typeInt64 → v.i64 = w.i64
  str : v.type = typeBytes → v.str = w.str
  bool : v.type = typeBool → v.bool = w.bool

-- ======================================================= the parts

/-- The bytes of a value behind its type byte. -/
def Value.body (v : Value) : Bytes :=
  if v.type = typeInt64 then beBytes 8 (v.i64.toUInt64 ^^^ signBit).toNat
  else if v.type = typeBytes then escapeBytes v.str ++ [0]
  else [if v.bool then 1 else 0]

theorem encodeValue_eq {v : Value} (hv : v.IsKey) :
    encodeValue v = .ok (v.type :: v.body) := by
  unfold encodeValue Value.body
  rcases hv with h | h | h
  · rw [if_pos h, if_pos h]
  · have h₁ : v.type ≠ typeInt64 := by rw [h]; decide
    rw [if_neg h₁, if_pos h, if_neg h₁, if_pos h]
  · have h₁ : v.type ≠ typeInt64 := by rw [h]; decide
    have h₂ : v.type ≠ typeBytes := by rw [h]; decide
    rw [if_neg h₁, if_neg h₂, if_pos h, if_neg h₁, if_neg h₂]

/-- The bytes of a list of values. -/
def valuesBytes (vals : List Value) : Bytes := vals.flatMap fun v => v.type :: v.body

theorem valuesBytes_cons (v : Value) (vals : List Value) :
    valuesBytes (v :: vals) = v.type :: (v.body ++ valuesBytes vals) := rfl

theorem encodeValues_eq {vals : List Value} (hvals : ∀ v ∈ vals, v.IsKey) :
    ∀ out, encodeValues out vals = .ok (out ++ valuesBytes vals) := by
  induction vals with
  | nil =>
      intro out
      rw [encodeValues, valuesBytes, List.flatMap_nil, List.append_nil]
  | cons v vals ih =>
      intro out
      rw [encodeValues, encodeValue_eq (hvals v (List.mem_cons_self ..)), ok_bind,
        ih fun w hw => hvals w (List.mem_cons_of_mem _ hw), List.append_assoc]
      rfl

-- ========================================================= strings

theorem zero_notMem_escapeByte (b : UInt8) : 0 ∉ escapeByte b := by
  unfold escapeByte
  split
  · decide
  · split
    · decide
    · next h _ => simpa using Ne.symm h

theorem zero_notMem_escapeBytes (s : Bytes) : 0 ∉ escapeBytes s := by
  intro h
  obtain ⟨b, -, hb⟩ := List.mem_flatMap.mp h
  exact zero_notMem_escapeByte b hb

/-- The terminator search stops right behind the escaped string, whatever
follows. -/
theorem idxOf?_terminator {xs : Bytes} (hxs : 0 ∉ xs) (rest : Bytes) :
    (xs ++ 0 :: rest).idxOf? 0 = some xs.length := by
  induction xs with
  | nil => rfl
  | cons b xs ih =>
      obtain ⟨hb, hxs'⟩ := not_or.mp (mt List.mem_cons.mpr hxs)
      have hne : (b == 0) = false := by simpa using Ne.symm hb
      rw [List.cons_append, List.idxOf?_cons, hne, ih hxs']
      rfl

/-- A byte that starts no escape passes through. -/
theorem unescape_cons {b : UInt8} (hb : b ≠ 1) (rest : Bytes) :
    unescapeBytes (b :: rest) = b :: unescapeBytes rest := by
  cases rest with
  | nil => rfl
  | cons c rest =>
      rw [unescapeBytes, if_neg (fun h => hb h.1), if_neg (fun h => hb h.1)]

theorem unescape_escapeByte (b : UInt8) (rest : Bytes) :
    unescapeBytes (escapeByte b ++ rest) = b :: unescapeBytes rest := by
  unfold escapeByte
  split
  · next h =>
      subst h
      rfl
  · split
    · next h =>
        subst h
        rfl
    · next h => exact unescape_cons h rest

theorem unescape_escape (s : Bytes) : unescapeBytes (escapeBytes s) = s := by
  induction s with
  | nil => rfl
  | cons b s ih =>
      show unescapeBytes (escapeByte b ++ escapeBytes s) = _
      rw [unescape_escapeByte, ih]

-- ======================================================= one value

theorem takeUint64_append (u : UInt64) (rest : Bytes) :
    takeUint64 (beBytes 8 u.toNat ++ rest) = .ok (u, rest) := by
  have hlen : (beBytes 8 u.toNat).length = 8 := length_beBytes ..
  have hlt : u.toNat < 256 ^ 8 := u.toNat_lt
  unfold takeUint64
  rw [if_pos (by rw [List.length_append]; omega), List.take_left' hlen,
    List.drop_left' hlen, beNat_beBytes hlt, UInt64.ofNat_toNat]

/-- Decoding takes a value's own bytes and leaves the rest. -/
theorem decodeValue_encode {v : Value} (hv : v.IsKey) (rest : Bytes) :
    ∃ w, decodeValue v.type (v.body ++ rest) = .ok (w, rest) ∧ w.Same v := by
  unfold decodeValue Value.body
  rcases hv with h | h | h
  · rw [if_pos h, if_pos h, takeUint64_append, ok_bind]
    refine ⟨_, rfl, rfl, fun _ => ?_, fun ht => ?_, fun ht => ?_⟩
    · show (v.i64.toUInt64 ^^^ signBit ^^^ signBit).toInt64 = v.i64
      rw [UInt64.xor_assoc, UInt64.xor_self, UInt64.xor_zero]
      simp
    · rw [h] at ht
      exact absurd ht (by decide)
    · rw [h] at ht
      exact absurd ht (by decide)
  · have h₁ : v.type ≠ typeInt64 := by rw [h]; decide
    have hidx := idxOf?_terminator (zero_notMem_escapeBytes v.str) rest
    have hdrop : (escapeBytes v.str ++ 0 :: rest).drop ((escapeBytes v.str).length + 1)
        = rest := by
      simp [List.drop_append]
    rw [if_neg h₁, if_pos h, if_neg h₁, if_pos h, List.append_assoc,
      List.singleton_append, hidx]
    dsimp only
    rw [List.take_left, unescape_escape, hdrop]
    refine ⟨_, rfl, rfl, fun ht => absurd ht h₁, fun _ => rfl, fun ht => ?_⟩
    rw [h] at ht
    exact absurd ht (by decide)
  · have h₁ : v.type ≠ typeInt64 := by rw [h]; decide
    have h₂ : v.type ≠ typeBytes := by rw [h]; decide
    rw [if_neg h₁, if_neg h₂, if_pos h, if_neg h₁, if_neg h₂]
    refine ⟨_, rfl, rfl, fun ht => absurd ht h₁, fun ht => absurd ht h₂, fun _ => ?_⟩
    cases v.bool with
    | false => rfl
    | true => rfl

-- ========================================================== a list

/-- The loop decodes the values one by one. The induction is on the
values; the bytes left bound the rounds. -/
theorem decodeLoop_encode : ∀ {vals : List Value}, (∀ v ∈ vals, v.IsKey) →
    ∀ (fuel : Nat) (out : List Value), (valuesBytes vals).length ≤ fuel →
      ∃ got, decodeLoop fuel (valuesBytes vals) out = .ok (out ++ got)
        ∧ List.Forall₂ Value.Same got vals := by
  intro vals
  induction vals with
  | nil =>
      intro _ fuel out _
      refine ⟨[], ?_, .nil⟩
      rw [List.append_nil]
      cases fuel with
      | zero => rfl
      | succ fuel => rfl
  | cons v vals ih =>
      intro hvals fuel out hfuel
      rw [valuesBytes_cons] at hfuel ⊢
      cases fuel with
      | zero => exact absurd hfuel (by simp)
      | succ fuel =>
          obtain ⟨w, hw, hsame⟩ := decodeValue_encode
            (hvals v (List.mem_cons_self ..)) (valuesBytes vals)
          rw [List.length_cons, List.length_append] at hfuel
          obtain ⟨got, hgot, hall⟩ := ih
            (fun w hw => hvals w (List.mem_cons_of_mem _ hw)) fuel (out ++ [w])
            (by omega)
          refine ⟨w :: got, ?_, .cons hsame hall⟩
          rw [decodeLoop, hw, ok_bind]
          dsimp only
          rw [hgot, List.append_assoc, List.singleton_append]

/-- Encoding a list of values and decoding it appends those values. -/
theorem decode_encode_values (vals : List Value) (hvals : ∀ v ∈ vals, v.IsKey)
    (out : List Value) :
    ∃ bs got, encodeValues [] vals = .ok bs
      ∧ decodeValues bs out = .ok (out ++ got)
      ∧ List.Forall₂ Value.Same got vals := by
  obtain ⟨got, hgot, hall⟩ := decodeLoop_encode hvals _ out (Nat.le_refl _)
  exact ⟨valuesBytes vals, got, encodeValues_eq hvals [], hgot, hall⟩

/-- A row with an integer, a string with both escaped bytes, and a bool. -/
theorem decode_encode_values_row :
    ∃ bs got, encodeValues [] [{ type := 1, i64 := -5 },
        { type := 2, str := [0, 1, 7] }, { type := 3, bool := true }] = .ok bs
      ∧ decodeValues bs [] = .ok ([] ++ got)
      ∧ List.Forall₂ Value.Same got [{ type := 1, i64 := -5 },
        { type := 2, str := [0, 1, 7] }, { type := 3, bool := true }] :=
  decode_encode_values _ (by decide) []

end Svacara.Kvstore
