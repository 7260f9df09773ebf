/-
Where the bound of a partial key falls.

A bound is the encoding of some leading columns, with a byte 0xff behind
it for some comparison codes. Against a key with other leading columns the
first column that differs decides, in front of that byte. Against a key
with the same ones the byte decides: without it the bound is in front of
all such keys, with it behind all of them, since no column starts with
0xff (`leading_lt`).

The codes that get the byte are 1 and -3. That is right for CmpLT and
CmpEQ, which need none. But CmpGT and CmpLE, which are 2 and -2, get none
either, and CmpGE, which is 1, gets it (`placed_iff`).
-/
import Svacara.Kvstore.Proofs.KeyOrder

namespace Svacara.Kvstore

open Buf Outcome Btree

-- ================================================= leading columns

/-- The tuple `p` is the first columns of `k`. -/
def Leads (p k : List Value) : Prop := List.Forall₂ Value.Same p (k.take p.length)

theorem Value.Same.not_before {v w : Value} (h : v.Same w) (hv : v.IsKey) :
    ¬ v.Before w ∧ ¬ w.Before v := by
  unfold Value.Before
  rw [← h.type]
  rcases hv with ht | ht | ht
  · rw [if_pos ht, if_pos ht, h.i64 ht]
    exact ⟨lt_irrefl _, lt_irrefl _⟩
  · have h₁ : v.type ≠ typeInt64 := by rw [ht]; decide
    rw [if_neg h₁, if_pos ht, if_neg h₁, if_pos ht, h.str ht]
    exact ⟨lt_irrefl _, lt_irrefl _⟩
  · have h₁ : v.type ≠ typeInt64 := by rw [ht]; decide
    have h₂ : v.type ≠ typeBytes := by rw [ht]; decide
    rw [if_neg h₁, if_neg h₂, if_neg h₁, if_neg h₂, h.bool ht]
    simp

theorem Value.same_of_not_before {v w : Value} (ht : v.type = w.type)
    (h : ¬ v.Before w) (h' : ¬ w.Before v) : v.Same w := by
  unfold Value.Before at h h'
  rw [← ht] at h'
  refine ⟨ht, fun h₁ => ?_, fun h₂ => ?_, fun h₃ => ?_⟩
  · rw [if_pos h₁] at h h'
    exact Int64.toInt_inj.mp (by omega)
  · have h₁ : v.type ≠ typeInt64 := by rw [h₂]; decide
    rw [if_neg h₁, if_pos h₂] at h h'
    exact le_antisymm (not_lt.mp h') (not_lt.mp h)
  · have h₁ : v.type ≠ typeInt64 := by rw [h₃]; decide
    have h₂ : v.type ≠ typeBytes := by rw [h₃]; decide
    rw [if_neg h₁, if_neg h₂] at h h'
    cases hv : v.bool <;> cases hw : w.bool <;> simp_all

/-- How a tuple stands to a key at least as long: it leads it, or the
bytes differ in front of its end, the way the columns do. -/
inductive Stands (p k : List Value) : Prop where
  | leads (h : Leads p k) (bytes : valuesBytes k = valuesBytes p ++ valuesBytes (k.drop p.length))
  | below (h : ¬ Leads p k) (bytes : Below (valuesBytes p) (valuesBytes k))
      (order : compareTuples p (k.take p.length) = -1)
  | above (h : ¬ Leads p k) (bytes : Below (valuesBytes k) (valuesBytes p))
      (order : compareTuples p (k.take p.length) = 1)

theorem leads_cons {v w : Value} {p k : List Value} :
    Leads (v :: p) (w :: k) ↔ v.Same w ∧ Leads p k := by
  unfold Leads
  rw [List.length_cons, List.take_succ_cons, List.forall₂_cons]

/-- The induction is on the tuple: equal columns are a common front part,
and the first ones that differ decide. -/
theorem stands : ∀ (p k : List Value), (∀ v ∈ p, v.IsKey) → SameTypes p k →
    p.length ≤ k.length → Stands p k := by
  intro p
  induction p with
  | nil =>
      intro k _ _ _
      exact .leads List.Forall₂.nil rfl
  | cons v p ih =>
      intro k hp hty hlen
      cases k with
      | nil => exact absurd hlen (Nat.not_succ_le_zero _)
      | cons w k =>
          obtain ⟨hv, hp⟩ := List.forall_mem_cons.mp hp
          have ht : v.type = w.type := hty (v, w) (List.mem_cons_self ..)
          have htail : SameTypes p k := fun vw hmem => hty vw (List.mem_cons_of_mem _ hmem)
          by_cases hvw : v.Before w
          · refine .below (fun h => (Value.Same.not_before (leads_cons.mp h).1 hv).1 hvw) ?_ ?_
            · rw [valuesBytes_cons, valuesBytes_cons, ← ht]
              exact ((below_body ht hvw).append _ _).cons _
            · rw [List.length_cons, List.take_succ_cons, compareTuples, if_pos hvw]
          · by_cases hwv : w.Before v
            · refine .above (fun h => (Value.Same.not_before (leads_cons.mp h).1 hv).2 hwv) ?_ ?_
              · rw [valuesBytes_cons, valuesBytes_cons, ← ht]
                exact ((below_body ht.symm hwv).append _ _).cons _
              · rw [List.length_cons, List.take_succ_cons, compareTuples, if_neg hvw, if_pos hwv]
            · have hsame := Value.same_of_not_before ht hvw hwv
              have hbytes := body_eq ht hvw hwv
              have horder : compareTuples (v :: p) ((w :: k).take (p.length + 1))
                  = compareTuples p (k.take p.length) := by
                rw [List.take_succ_cons, compareTuples, if_neg hvw, if_neg hwv]
              cases ih k hp htail (Nat.le_of_succ_le_succ hlen) with
              | leads h bytes =>
                  refine .leads (leads_cons.mpr ⟨hsame, h⟩) ?_
                  rw [valuesBytes_cons, valuesBytes_cons, bytes, ht, hbytes, List.length_cons,
                    List.drop_succ_cons, List.cons_append, List.append_assoc]
              | below h bytes order =>
                  refine .below (fun hl => h (leads_cons.mp hl).2) ?_ (horder.trans order)
                  rw [valuesBytes_cons, valuesBytes_cons, ht, hbytes]
                  exact (bytes.prepend _).cons _
              | above h bytes order =>
                  refine .above (fun hl => h (leads_cons.mp hl).2) ?_ (horder.trans order)
                  rw [valuesBytes_cons, valuesBytes_cons, ht, hbytes]
                  exact (bytes.prepend _).cons _

-- ======================================================= the bytes

/-- What a code puts behind the columns. -/
def suffixOf (c : Int) : Bytes := if c = 1 ∨ c = -3 then [0xff] else []

theorem encodeKeyPartial_eq (pfx : UInt32) {p : List Value} (hp : ∀ v ∈ p, v.IsKey) (c : Int) :
    encodeKeyPartial [] pfx p c
      = .ok (beBytes 4 pfx.toNat ++ (valuesBytes p ++ suffixOf c)) := by
  have hkey : encodeKey [] pfx p = .ok (beBytes 4 pfx.toNat ++ valuesBytes p) := by
    rw [encodeKey, encodeValues_eq hp, List.nil_append]
  unfold encodeKeyPartial suffixOf
  rw [hkey, ok_bind]
  split
  · rw [← List.append_assoc]
    rfl
  · rw [List.append_nil]
    rfl

/-- No column starts with 0xff. -/
theorem leading_lt {k : List Value} (hk : ∀ v ∈ k, v.IsKey) : valuesBytes k < [0xff] := by
  cases k with
  | nil => exact List.nil_lt_cons _ _
  | cons v k =>
      rw [valuesBytes_cons]
      refine (Below.of_head ?_ _ _).lt
      rcases hk v (List.mem_cons_self ..) with h | h | h
      · rw [h]
        decide
      · rw [h]
        decide
      · rw [h]
        decide

/-- Behind leading columns the byte decides. -/
theorem cmp_suffixOf {k : List Value} (hk : ∀ v ∈ k, v.IsKey) (c : Int) :
    0 < Btree.cmp (suffixOf c) (valuesBytes k) ↔ c = 1 ∨ c = -3 := by
  unfold suffixOf
  by_cases h : c = 1 ∨ c = -3
  · rw [if_pos h, cmp_pos_iff]
    exact ⟨fun _ => h, fun _ => leading_lt hk⟩
  · rw [if_neg h, cmp_pos_iff]
    exact ⟨fun hlt => absurd hlt (List.not_lt_nil _), fun hc => absurd hc h⟩

-- ========================================================= results

/-- The bound of `p` with the code `c` is on the right side of the key
`k`. -/
def Placed (pfx : UInt32) (p k : List Value) (c : Int) : Prop :=
  ∃ bound key, encodeKeyPartial [] pfx p c = .ok bound ∧ encodeKey [] pfx k = .ok key
    ∧ (Leads p k → (c = cmpGT ∨ c = cmpLE → 0 < compareKeys bound key)
      ∧ (c = cmpGE ∨ c = cmpLT ∨ c = cmpEQ → compareKeys bound key ≤ 0))
    ∧ (¬ Leads p k → compareKeys bound key = compareTuples p (k.take p.length))

theorem placed_of_not_leads {pfx : UInt32} {p k : List Value} {c : Int}
    (hp : ∀ v ∈ p, v.IsKey) (hk : ∀ v ∈ k, v.IsKey) (hstands : Stands p k)
    (h : ¬ Leads p k) : Placed pfx p k c := by
  refine ⟨_, _, encodeKeyPartial_eq pfx hp c, encodeValues_eq hk _, fun hl => absurd hl h, ?_⟩
  intro _
  rw [List.nil_append, compareKeys, cmp_append_left]
  have hend : valuesBytes k = valuesBytes k ++ [] := (List.append_nil _).symm
  cases hstands with
  | leads hl => exact absurd hl h
  | below _ bytes order =>
      rw [order, hend]
      exact cmp_of_lt (bytes.append (suffixOf c) []).lt
  | above _ bytes order =>
      rw [order, hend]
      exact cmp_of_gt (bytes.append [] (suffixOf c)).lt

theorem placed_of_leads {pfx : UInt32} {p k : List Value} {c : Int}
    (hp : ∀ v ∈ p, v.IsKey) (hk : ∀ v ∈ k, v.IsKey)
    (hbytes : valuesBytes k = valuesBytes p ++ valuesBytes (k.drop p.length))
    (h : Leads p k) :
    Placed pfx p k c ↔ (c = cmpGT ∨ c = cmpLE → c = 1 ∨ c = -3)
      ∧ (c = cmpGE ∨ c = cmpLT ∨ c = cmpEQ → ¬ (c = 1 ∨ c = -3)) := by
  have hdrop : ∀ v ∈ k.drop p.length, v.IsKey := fun v hv => hk v (List.mem_of_mem_drop hv)
  have hcmp : compareKeys (beBytes 4 pfx.toNat ++ (valuesBytes p ++ suffixOf c))
      (beBytes 4 pfx.toNat ++ valuesBytes k)
        = Btree.cmp (suffixOf c) (valuesBytes (k.drop p.length)) := by
    rw [compareKeys, hbytes, cmp_append_left, cmp_append_left]
  unfold Placed
  rw [encodeKeyPartial_eq pfx hp c, encodeKey, encodeValues_eq hk, List.nil_append]
  constructor
  · intro hplaced
    obtain ⟨bound, key, hbound, hkey, hsides, -⟩ := hplaced
    cases hbound
    cases hkey
    rw [hcmp, cmp_suffixOf hdrop, ← not_lt, cmp_suffixOf hdrop] at hsides
    exact hsides h
  · intro hsides
    refine ⟨_, _, rfl, rfl, fun _ => ?_, fun hl => absurd h hl⟩
    rw [hcmp, cmp_suffixOf hdrop, ← not_lt, cmp_suffixOf hdrop]
    exact hsides

/-- A bound is on the right side exactly if the key has other leading
columns or the code is CmpLT or CmpEQ. -/
theorem placed_iff (pfx : UInt32) (p k : List Value) (c : Int)
    (hp : ∀ v ∈ p, v.IsKey) (hk : ∀ v ∈ k, v.IsKey) (hty : SameTypes p k)
    (hlen : p.length ≤ k.length) (hc : c ∈ [cmpGT, cmpLE, cmpGE, cmpLT, cmpEQ]) :
    Placed pfx p k c ↔ ¬ Leads p k ∨ c = cmpLT ∨ c = cmpEQ := by
  have hstands := stands p k hp hty hlen
  by_cases h : Leads p k
  · have hbytes : valuesBytes k = valuesBytes p ++ valuesBytes (k.drop p.length) := by
      cases hstands with
      | leads _ bytes => exact bytes
      | below hl => exact absurd h hl
      | above hl => exact absurd h hl
    rw [placed_of_leads hp hk hbytes h]
    simp only [List.mem_cons, List.not_mem_nil, or_false] at hc
    rcases hc with rfl | rfl | rfl | rfl | rfl <;>
      simp [h, cmpGT, cmpLE, cmpGE, cmpLT, cmpEQ]
  · exact ⟨fun _ => Or.inl h, fun _ => placed_of_not_leads hp hk hstands h⟩

/-- A bound on one column for CmpEQ, in front of a key of two. -/
theorem placed_iff_equal :
    Placed 7 [{ type := 1, i64 := 3 }] [{ type := 1, i64 := 3 }, { type := 3, bool := true }]
      cmpEQ :=
  (placed_iff 7 [{ type := 1, i64 := 3 }]
    [{ type := 1, i64 := 3 }, { type := 3, bool := true }] cmpEQ (by decide) (by decide)
    (by decide) (by decide) (by decide)).mpr (Or.inr (Or.inr rfl))

/-- The bound for values greater than 3 is in front of the key 3, and the
bound for those at least 3 behind it. -/
theorem bounds_misplaced :
    ¬ Placed 7 [{ type := 1, i64 := 3 }] [{ type := 1, i64 := 3 }] cmpGT
      ∧ ¬ Placed 7 [{ type := 1, i64 := 3 }] [{ type := 1, i64 := 3 }] cmpGE
      ∧ ¬ Placed 7 [{ type := 1, i64 := 3 }] [{ type := 1, i64 := 3 }] cmpLE := by
  have hkey : ∀ v ∈ [({ type := 1, i64 := 3 } : Value)], v.IsKey := by decide
  have hleads : Leads [{ type := 1, i64 := 3 }] [{ type := 1, i64 := 3 }] :=
    .cons ⟨rfl, fun _ => rfl, fun _ => rfl, fun _ => rfl⟩ .nil
  have hplaced : ∀ c, Placed 7 [{ type := 1, i64 := 3 }] [{ type := 1, i64 := 3 }] c ↔ _ :=
    fun c => placed_of_leads hkey hkey (by decide) hleads
  rw [hplaced, hplaced, hplaced]
  simp [cmpGT, cmpLE, cmpGE, cmpLT, cmpEQ]

end Svacara.Kvstore
