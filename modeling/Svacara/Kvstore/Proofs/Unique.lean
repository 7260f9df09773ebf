/-
An encoding determines what it encodes.

# Bytes of any value

`Value.code` is what `encodeValue` returns for a value with a type, and
no code is a front part of another (`code_append_inj`): integers and
floats have a fixed width, a string ends at its first zero byte. So the
bytes of a tuple determine how many values it has and the code of each
(`codes_inj`), and the bytes of a key its prefix as well
(`keyCode_inj`).

# Up to the fields that do not count

A value may carry anything in the fields its type does not select.
`Value.norm` clears them; it is what decoding returns (`decode_codes`).
Tidy tuples, those of such values, are determined by their bytes
(`Tidy.codes_inj`, `Tidy.keyCode_inj`).
-/
import Svacara.Kvstore.Proofs.RoundTrip

namespace Svacara.Kvstore

open Buf Outcome

-- ======================================================== one code

/-- The value has one of the four types. -/
def Value.Typed (v : Value) : Prop := v.IsKey ∨ v.type = typeFloat64

instance (v : Value) : Decidable v.Typed := inferInstanceAs (Decidable (_ ∨ _))

/-- The bytes of a value. -/
def Value.code (v : Value) : Bytes :=
  match encodeValue v with
  | .ok b => b
  | .error _ => []

theorem encodeValue_float {v : Value} (h : v.type = typeFloat64) :
    encodeValue v = .ok (v.type :: beBytes 8
      (if f64NonNeg v.f64 then v.f64 ^^^ signBit else ~~~v.f64).toNat) := by
  have h₁ : v.type ≠ typeInt64 := by rw [h]; decide
  have h₂ : v.type ≠ typeBytes := by rw [h]; decide
  have h₃ : v.type ≠ typeBool := by rw [h]; decide
  unfold encodeValue
  rw [if_neg h₁, if_neg h₂, if_neg h₃, if_pos h]

theorem encodeValue_typed {v : Value} (hv : v.Typed) : encodeValue v = .ok v.code := by
  unfold Value.code
  rcases hv with h | h
  · rw [encodeValue_eq h]
  · rw [encodeValue_float h]

theorem code_key {v : Value} (hv : v.IsKey) : v.code = v.type :: v.body := by
  unfold Value.code
  rw [encodeValue_eq hv]

/-- A value that encodes has a type. -/
theorem typed_of_encodeValue {v : Value} {b : Bytes} (h : encodeValue v = .ok b) :
    v.Typed := by
  unfold encodeValue at h
  split at h
  · next ht => exact Or.inl (Or.inl ht)
  split at h
  · next ht => exact Or.inl (Or.inr (Or.inl ht))
  split at h
  · next ht => exact Or.inl (Or.inr (Or.inr ht))
  split at h
  · next ht => exact Or.inr ht
  · cases h

/-- The shape of a code: the type and then eight bytes, a string up to
its terminator, or one byte. -/
inductive Shape : UInt8 → Bytes → Prop
  | wide (t : UInt8) (b : Bytes) : t = typeInt64 ∨ t = typeFloat64 → b.length = 8 →
      Shape t b
  | text (s : Bytes) : 0 ∉ s → Shape typeBytes (s ++ [0])
  | flag (b : UInt8) : Shape typeBool [b]

theorem code_shape {v : Value} (hv : v.Typed) :
    ∃ b, v.code = v.type :: b ∧ Shape v.type b := by
  rcases hv with hkey | hfloat
  · refine ⟨v.body, code_key hkey, ?_⟩
    unfold Value.body
    rcases hkey with h | h | h
    · rw [if_pos h]
      exact .wide _ _ (Or.inl h) (length_beBytes ..)
    · rw [if_neg (by rw [h]; decide), if_pos h, h]
      exact .text _ (zero_notMem_escapeBytes v.str)
    · rw [if_neg (by rw [h]; decide), if_neg (by rw [h]; decide), h]
      exact .flag _
  · have hcode : v.code = v.type :: beBytes 8
        (if f64NonNeg v.f64 then v.f64 ^^^ signBit else ~~~v.f64).toNat := by
      unfold Value.code
      rw [encodeValue_float hfloat]
    exact ⟨_, hcode, .wide _ _ (Or.inr hfloat) (length_beBytes ..)⟩

theorem terminated_inj {s s' r r' : Bytes} (hs : 0 ∉ s) (hs' : 0 ∉ s')
    (h : s ++ 0 :: r = s' ++ 0 :: r') : s = s' ∧ r = r' := by
  have hidx := congrArg (List.idxOf? 0) h
  rw [idxOf?_terminator hs, idxOf?_terminator hs'] at hidx
  obtain ⟨hfront, hback⟩ := List.append_inj h (Option.some.inj hidx)
  exact ⟨hfront, (List.cons.inj hback).2⟩

/-- Behind one type byte no body is a front part of another. -/
theorem Shape.append_inj {t : UInt8} {b b' r r' : Bytes} (hb : Shape t b)
    (hb' : Shape t b') (h : b ++ r = b' ++ r') : b = b' ∧ r = r' := by
  cases hb with
  | wide _ _ ht hlen =>
      cases hb' with
      | wide _ _ _ hlen' => exact List.append_inj h (hlen.trans hlen'.symm)
      | text s hs => exact absurd ht (by decide)
      | flag c => exact absurd ht (by decide)
  | text s hs =>
      generalize htext : typeBytes = t at hb'
      cases hb' with
      | wide _ _ ht _ =>
          rw [← htext] at ht
          exact absurd ht (by decide)
      | text s' hs' =>
          rw [List.append_assoc, List.append_assoc] at h
          obtain ⟨rfl, rfl⟩ := terminated_inj hs hs' h
          exact ⟨rfl, rfl⟩
      | flag c => exact absurd htext (by decide)
  | flag c =>
      generalize hflag : typeBool = t at hb'
      cases hb' with
      | wide _ _ ht _ =>
          rw [← hflag] at ht
          exact absurd ht (by decide)
      | text s hs => exact absurd hflag (by decide)
      | flag c' => exact List.append_inj h rfl

/-- No code is a front part of another. -/
theorem code_append_inj {v w : Value} {r r' : Bytes} (hv : v.Typed) (hw : w.Typed)
    (h : v.code ++ r = w.code ++ r') : v.code = w.code ∧ r = r' := by
  obtain ⟨b, hb, hshape⟩ := code_shape hv
  obtain ⟨c, hc, hshape'⟩ := code_shape hw
  rw [hb, hc, List.cons_append, List.cons_append] at h
  obtain ⟨ht, h⟩ := List.cons.inj h
  rw [← ht] at hshape'
  obtain ⟨rfl, hr⟩ := hshape.append_inj hshape' h
  exact ⟨by rw [hb, hc, ht], hr⟩

-- ========================================================== tuples

/-- The bytes of a tuple. -/
def codes (vals : List Value) : Bytes := vals.flatMap Value.code

@[simp] theorem codes_nil : codes [] = [] := rfl

@[simp] theorem codes_cons (v : Value) (vals : List Value) :
    codes (v :: vals) = v.code ++ codes vals := rfl

/-- A tuple encodes exactly if each of its values has a type. -/
theorem encodeValues_ok_iff {vals : List Value} {out b : Bytes} :
    encodeValues out vals = .ok b
      ↔ (∀ v ∈ vals, v.Typed) ∧ b = out ++ codes vals := by
  induction vals generalizing out with
  | nil => simp [encodeValues, eq_comm]
  | cons v vals ih =>
      rw [encodeValues, bind_eq_ok]
      constructor
      · rintro ⟨c, hc, h⟩
        have hv := typed_of_encodeValue hc
        rw [encodeValue_typed hv] at hc
        cases hc
        obtain ⟨hvals, rfl⟩ := ih.mp h
        exact ⟨List.forall_mem_cons.mpr ⟨hv, hvals⟩, by simp⟩
      · rintro ⟨h, rfl⟩
        obtain ⟨hv, hvals⟩ := List.forall_mem_cons.mp h
        exact ⟨v.code, encodeValue_typed hv, ih.mpr ⟨hvals, by simp⟩⟩

theorem encodeValues_typed {vals : List Value} (h : ∀ v ∈ vals, v.Typed) (out : Bytes) :
    encodeValues out vals = .ok (out ++ codes vals) :=
  encodeValues_ok_iff.mpr ⟨h, rfl⟩

theorem code_ne_nil {v : Value} (hv : v.Typed) : v.code ≠ [] := by
  obtain ⟨b, hb, -⟩ := code_shape hv
  simp [hb]

/-- Equal bytes are equal codes, one by one. The induction is on the
first tuple. -/
theorem codes_inj {a b : List Value} (ha : ∀ v ∈ a, v.Typed) (hb : ∀ v ∈ b, v.Typed)
    (h : codes a = codes b) : a.map Value.code = b.map Value.code := by
  induction a generalizing b with
  | nil =>
      cases b with
      | nil => rfl
      | cons w b => exact absurd h.symm (by simp [code_ne_nil (hb w (List.mem_cons_self ..))])
  | cons v a ih =>
      obtain ⟨hv, ha⟩ := List.forall_mem_cons.mp ha
      cases b with
      | nil => exact absurd h (by simp [code_ne_nil hv])
      | cons w b =>
          obtain ⟨hw, hb⟩ := List.forall_mem_cons.mp hb
          obtain ⟨hcode, hrest⟩ := code_append_inj hv hw h
          rw [List.map_cons, List.map_cons, hcode, ih ha hb hrest]

/-- Of two tuples of one length, neither is encoded as a proper front part
of the other. -/
theorem codes_append_inj {a b : List Value} (ha : ∀ v ∈ a, v.Typed)
    (hb : ∀ v ∈ b, v.Typed) (hlen : a.length = b.length) {r r' : Bytes}
    (h : codes a ++ r = codes b ++ r') : codes a = codes b := by
  induction a generalizing b with
  | nil =>
      obtain rfl := List.length_eq_zero_iff.mp hlen.symm
      rfl
  | cons v a ih =>
      obtain ⟨hv, ha⟩ := List.forall_mem_cons.mp ha
      cases b with
      | nil => cases hlen
      | cons w b =>
          obtain ⟨hw, hb⟩ := List.forall_mem_cons.mp hb
          rw [codes_cons, codes_cons, List.append_assoc, List.append_assoc] at h
          obtain ⟨hcode, hrest⟩ := code_append_inj hv hw h
          rw [codes_cons, codes_cons, hcode, ih ha hb (by simpa using hlen) hrest]

-- ============================================================ keys

/-- The bytes of a key. -/
def keyCode (p : UInt32) (vals : List Value) : Bytes := beBytes 4 p.toNat ++ codes vals

theorem encodeKey_ok_iff {p : UInt32} {vals : List Value} {k : Bytes} :
    encodeKey [] p vals = .ok k ↔ (∀ v ∈ vals, v.Typed) ∧ k = keyCode p vals :=
  encodeValues_ok_iff

theorem encodeKey_typed (p : UInt32) {vals : List Value} (h : ∀ v ∈ vals, v.Typed) :
    encodeKey [] p vals = .ok (keyCode p vals) :=
  encodeKey_ok_iff.mpr ⟨h, rfl⟩

/-- The front of a key is its prefix. -/
theorem keyCode_front {p q : UInt32} {a b : Bytes}
    (h : beBytes 4 p.toNat ++ a = beBytes 4 q.toNat ++ b) : p = q ∧ a = b := by
  have hlen : (beBytes 4 p.toNat).length = (beBytes 4 q.toNat).length := by simp
  obtain ⟨hp, hrest⟩ := List.append_inj h hlen
  have hnat := congrArg beNat hp
  rw [beNat_beBytes p.toNat_lt, beNat_beBytes q.toNat_lt] at hnat
  exact ⟨UInt32.toNat_inj.mp hnat, hrest⟩

theorem keyCode_inj {p q : UInt32} {a b : List Value} (ha : ∀ v ∈ a, v.Typed)
    (hb : ∀ v ∈ b, v.Typed) (h : keyCode p a = keyCode q b) :
    p = q ∧ a.map Value.code = b.map Value.code := by
  obtain ⟨hp, hrest⟩ := keyCode_front h
  exact ⟨hp, codes_inj ha hb hrest⟩

-- =========================================================== norms

/-- The value with the fields cleared that its type does not select. -/
def Value.norm (v : Value) : Value where
  type := v.type
  i64 := if v.type = typeInt64 then v.i64 else 0
  str := if v.type = typeBytes then v.str else []
  bool := if v.type = typeBool then v.bool else false
  f64 := if v.type = typeFloat64 then v.f64 else 0

/-- The value comes back from its code: of the floats only the positive
zero is needed, the default of a float column. -/
def Value.Sound (v : Value) : Prop := v.IsKey ∨ v.type = typeFloat64 ∧ v.f64 = 0

instance (v : Value) : Decidable v.Sound := inferInstanceAs (Decidable (_ ∨ _))

theorem Value.Sound.typed {v : Value} (h : v.Sound) : v.Typed := h.imp_right And.left

theorem Value.IsKey.sound {v : Value} (h : v.IsKey) : v.Sound := Or.inl h

theorem Value.IsKey.typed {v : Value} (h : v.IsKey) : v.Typed := Or.inl h

/-- Decoding leaves the other fields clear. -/
theorem norm_of_decodeValue {t : UInt8} {bs rest : Bytes} {w : Value}
    (h : decodeValue t bs = .ok (w, rest)) : w.norm = w := by
  unfold decodeValue at h
  split at h
  · next ht =>
      obtain ⟨⟨u, r⟩, -, h⟩ := bind_eq_ok.mp h
      cases h
      subst ht
      rfl
  split at h
  · next ht =>
      split at h
      · cases h
      · cases h
        subst ht
        rfl
  split at h
  · next ht =>
      split at h
      · cases h
      · cases h
        subst ht
        rfl
  split at h
  · next ht =>
      obtain ⟨⟨u, r⟩, -, h⟩ := bind_eq_ok.mp h
      cases h
      subst ht
      rfl
  · cases h

theorem Value.Same.norm_eq {v w : Value} (h : v.Same w) (hv : v.IsKey) :
    v.norm = w.norm := by
  have ht := h.type
  unfold Value.norm
  rw [← ht]
  rcases hv with hv | hv | hv
  · simp [hv, h.i64 hv, typeInt64, typeBytes, typeBool, typeFloat64]
  · simp [hv, h.str hv, typeInt64, typeBytes, typeBool, typeFloat64]
  · simp [hv, h.bool hv, typeInt64, typeBytes, typeBool, typeFloat64]

/-- Decoding returns the norm and leaves what follows. -/
theorem decodeValue_code {v : Value} (hv : v.Sound) (rest : Bytes) :
    ∃ b, v.code = v.type :: b ∧ decodeValue v.type (b ++ rest) = .ok (v.norm, rest) := by
  rcases hv with hkey | ⟨ht, hzero⟩
  · refine ⟨v.body, code_key hkey, ?_⟩
    obtain ⟨w, hw, hsame⟩ := decodeValue_encode hkey rest
    have hkeyw : w.IsKey := by
      unfold Value.IsKey
      rw [hsame.type]
      exact hkey
    rw [hw, ← hsame.norm_eq hkeyw, norm_of_decodeValue hw]
  · refine ⟨beBytes 8 signBit.toNat, ?_, ?_⟩
    · unfold Value.code
      rw [encodeValue_float ht, hzero]
      rfl
    · have hnorm : v.norm = { type := typeFloat64 } := by
        simp [Value.norm, ht, hzero, typeInt64, typeBytes, typeBool, typeFloat64]
      unfold decodeValue
      rw [if_neg (by rw [ht]; decide), if_neg (by rw [ht]; decide),
        if_neg (by rw [ht]; decide), if_pos ht, takeUint64_append, hnorm, ht]
      rfl

/-- The loop decodes the values one by one; the bytes left bound the
rounds. -/
theorem decodeLoop_codes {vals : List Value} (h : ∀ v ∈ vals, v.Sound) (fuel : Nat)
    (out : List Value) (hfuel : (codes vals).length ≤ fuel) :
    decodeLoop fuel (codes vals) out = .ok (out ++ vals.map Value.norm) := by
  induction vals generalizing fuel out with
  | nil => cases fuel <;> simp [decodeLoop]
  | cons v vals ih =>
      obtain ⟨hv, hvals⟩ := List.forall_mem_cons.mp h
      obtain ⟨b, hb, hdec⟩ := decodeValue_code hv (codes vals)
      rw [codes_cons, hb, List.cons_append] at hfuel ⊢
      cases fuel with
      | zero => simp at hfuel
      | succ fuel =>
          rw [List.length_cons, List.length_append] at hfuel
          rw [decodeLoop, hdec, ok_bind]
          dsimp only
          rw [ih hvals fuel _ (by omega)]
          simp

theorem decode_codes {vals : List Value} (h : ∀ v ∈ vals, v.Sound) (out : List Value) :
    decodeValues (codes vals) out = .ok (out ++ vals.map Value.norm) :=
  decodeLoop_codes h _ out (Nat.le_refl _)

@[simp] theorem norm_type (v : Value) : v.norm.type = v.type := rfl

/-- The fields cleared do not enter the code. -/
@[simp] theorem code_norm (v : Value) : v.norm.code = v.code := by
  have henc : encodeValue v.norm = encodeValue v := by
    unfold encodeValue
    rw [norm_type]
    split
    · next h => simp [Value.norm, h]
    split
    · next h => simp [Value.norm, h]
    split
    · next h => simp [Value.norm, h]
    split
    · next h => simp [Value.norm, h]
    · rfl
  unfold Value.code
  rw [henc]

@[simp] theorem codes_map_norm (vals : List Value) :
    codes (vals.map Value.norm) = codes vals := by
  induction vals with
  | nil => rfl
  | cons v vals ih => simp [ih]

@[simp] theorem norm_norm (v : Value) : v.norm.norm = v.norm := by
  simp +contextual [Value.norm]

-- ===================================================== tidy tuples

/-- Sound values with nothing in the fields that do not count. -/
def Tidy (vals : List Value) : Prop := ∀ v ∈ vals, v.Sound ∧ v.norm = v

instance (vals : List Value) : Decidable (Tidy vals) :=
  inferInstanceAs (Decidable (∀ v ∈ vals, _))

theorem tidy_map_norm {vals : List Value} (h : ∀ v ∈ vals, v.Sound) :
    Tidy (vals.map Value.norm) := by
  intro w hw
  obtain ⟨v, hv, rfl⟩ := List.mem_map.mp hw
  refine ⟨?_, norm_norm v⟩
  rcases h v hv with hkey | ⟨ht, hzero⟩
  · exact Or.inl hkey
  · exact Or.inr ⟨ht, by simp [Value.norm, hzero]⟩

theorem Tidy.typed {vals : List Value} (h : Tidy vals) : ∀ v ∈ vals, v.Typed :=
  fun v hv => (h v hv).1.typed

theorem Tidy.map_norm {vals : List Value} (h : Tidy vals) :
    vals.map Value.norm = vals :=
  (List.map_congr_left fun v hv => (h v hv).2).trans (List.map_id vals)

/-- Tidy tuples come back from their bytes as they are. -/
theorem Tidy.decode {vals : List Value} (h : Tidy vals) :
    decodeValues (codes vals) [] = .ok vals := by
  have hdec := decode_codes (fun v hv => (h v hv).1) []
  rwa [h.map_norm, List.nil_append] at hdec

theorem Tidy.codes_inj {a b : List Value} (ha : Tidy a) (hb : Tidy b)
    (h : codes a = codes b) : a = b := by
  have hdec := ha.decode
  rw [h, hb.decode] at hdec
  exact (Except.ok.inj hdec).symm

/-- Nor is a key of one length a front part of another. -/
theorem Tidy.keyCode_within {p : UInt32} {a b : List Value} (ha : Tidy a) (hb : Tidy b)
    (hlen : a.length = b.length) (h : keyCode p a <+: keyCode p b) : a = b := by
  obtain ⟨r, hr⟩ := h
  rw [keyCode, keyCode, List.append_assoc] at hr
  have hrest := (keyCode_front hr).2
  rw [← List.append_nil (codes b)] at hrest
  exact ha.codes_inj hb (codes_append_inj ha.typed hb.typed hlen hrest)

theorem Tidy.keyCode_inj {p q : UInt32} {a b : List Value} (ha : Tidy a) (hb : Tidy b)
    (h : keyCode p a = keyCode q b) : p = q ∧ a = b := by
  obtain ⟨hp, hrest⟩ := keyCode_front h
  exact ⟨hp, ha.codes_inj hb hrest⟩

end Svacara.Kvstore
