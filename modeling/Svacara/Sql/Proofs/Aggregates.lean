/-
MIN and MAX against the order of the keys.

`valCompare` looks at the type first, as the encoding does, and then
orders integers and strings as their encodings are ordered. Values of
another type it takes for equal (`coarse`). So MIN and MAX are the first
values of the column that are extreme in that coarser order
(`aggregateMinMax_min`, `aggregateMinMax_max`), and where these are Bools,
the first Bool of the column, whatever the others are
(`minMax_agree_iff`).
-/
import Svacara.Sql.Executor
import Svacara.Kvstore.Proofs.KeyOrder
import Mathlib.Data.List.MinMax
import Mathlib.Data.List.Find

namespace Svacara.Sql

open Kvstore Relational Buf Outcome

-- ================================================== first extremes

section

variable {α β : Type} [LinearOrder β] {f : α → β}

/-- The first of the greatest values. -/
def firstGreatest (f : α → β) (l : List α) : Option α := l.argmax f

/-- The first of the least values. -/
def firstLeast (f : α → β) (l : List α) : Option α := l.argmin f

/-- A loop that replaces its value by greater ones. -/
theorem foldl_firstGreatest {step : Option α → α → Option α} (hfirst : ∀ v, step none v = some v)
    (hgreater : ∀ b v, f b < f v → step (some b) v = some v)
    (hother : ∀ b v, ¬ f b < f v → step (some b) v = some b) (l : List α) :
    l.foldl step none = firstGreatest f l := by
  have hstep : step = List.argAux fun v b => f b < f v := by
    funext best v
    cases best with
    | none => exact hfirst v
    | some b =>
        by_cases h : f b < f v
        · rw [hgreater b v h]
          exact (if_pos h).symm
        · rw [hother b v h]
          exact (if_neg h).symm
  rw [hstep]
  rfl

theorem foldl_firstLeast {step : Option α → α → Option α} (hfirst : ∀ v, step none v = some v)
    (hless : ∀ b v, f v < f b → step (some b) v = some v)
    (hother : ∀ b v, ¬ f v < f b → step (some b) v = some b) (l : List α) :
    l.foldl step none = firstLeast f l :=
  foldl_firstGreatest (β := βᵒᵈ) hfirst hless hother l

theorem find?_firstGreatest {l : List α} {m : α} (h : firstGreatest f l = some m) :
    l.find? (fun x => f m ≤ f x) = some m := by
  unfold firstGreatest at h
  induction l generalizing m with
  | nil => simp at h
  | cons a l ih =>
      rw [List.argmax_cons] at h
      cases hl : l.argmax f with
      | none =>
          rw [hl] at h
          cases h
          simp
      | some b =>
          rw [hl] at h
          dsimp only at h
          split at h
          · next hlt =>
              cases h
              rw [List.find?_cons_of_neg (by simpa using hlt)]
              exact ih hl
          · cases h
            simp

theorem find?_firstLeast {l : List α} {m : α} (h : firstLeast f l = some m) :
    l.find? (fun x => f x ≤ f m) = some m :=
  find?_firstGreatest (β := βᵒᵈ) h

theorem firstGreatest_mem {l : List α} {m : α} (h : firstGreatest f l = some m) :
    m ∈ l ∧ ∀ v ∈ l, f v ≤ f m :=
  ⟨List.argmax_mem h, fun _ hv => List.le_of_mem_argmax hv h⟩

theorem firstLeast_mem {l : List α} {m : α} (h : firstLeast f l = some m) :
    m ∈ l ∧ ∀ v ∈ l, f m ≤ f v :=
  ⟨List.argmin_mem h, fun _ hv => List.le_of_mem_argmin hv h⟩

theorem firstGreatest_of_ne_nil {l : List α} (h : l ≠ []) : ∃ m, firstGreatest f l = some m :=
  Option.ne_none_iff_exists'.mp (mt List.argmax_eq_none.mp h)

theorem firstLeast_of_ne_nil {l : List α} (h : l ≠ []) : ∃ m, firstLeast f l = some m :=
  Option.ne_none_iff_exists'.mp (mt List.argmin_eq_none.mp h)

end

-- ====================================================== the column

/-- The values that stand under a name, row by row. -/
def column (col : Bytes) (rows : List Record) : List Value :=
  ((cells rows).filter fun c => c.1 = col).map Prod.snd

/-- The loop looks at the cells of its column only. -/
theorem foldl_betterOf (col : Bytes) (dir : Int) (cs : List (Bytes × Value))
    (best : Option Value) :
    cs.foldl (betterOf col dir) best
      = ((cs.filter fun c => c.1 = col).map Prod.snd).foldl
          (fun best v => betterOf col dir best (col, v)) best := by
  induction cs generalizing best with
  | nil => rfl
  | cons cell cs ih =>
      obtain ⟨name, v⟩ := cell
      rw [List.foldl_cons, ih]
      by_cases h : name = col
      · rw [List.filter_cons_of_pos (by simpa using h), h]
        rfl
      · have hskip : betterOf col dir best (name, v) = best := if_neg h
        rw [List.filter_cons_of_neg (by simpa using h), hskip]

theorem aggregateMinMax_eq (col : Bytes) (rows : List Record) (dir : Int) :
    aggregateMinMax col rows dir
      = ((column col rows).foldl (fun best v => betterOf col dir best (col, v)) none).getD {} := by
  unfold aggregateMinMax column
  by_cases h : rows = []
  · rw [if_pos h, h]
    rfl
  · rw [if_neg h, foldl_betterOf]

-- ============================================== the order compared

/-- What `valCompare` sees of a value: integers and strings as the bytes
of their encoding, of other values the type only. -/
def coarse (v : Value) : Bytes :=
  if v.type = typeInt64 ∨ v.type = typeBytes then v.type :: v.body else [v.type]

theorem coarse_lt_of_type {a b : Value} (h : a.type < b.type) : coarse a < coarse b := by
  unfold coarse
  split
  · split
    · exact (Below.of_head h _ _).lt
    · exact (Below.of_head h _ _).lt
  · split
    · exact (Below.of_head h _ _).lt
    · exact (Below.of_head h _ _).lt

theorem coarse_lt_iff_before {a b : Value} (ht : a.type = b.type)
    (h : a.type = typeInt64 ∨ a.type = typeBytes) : coarse a < coarse b ↔ a.Before b := by
  have hcons : ∀ {x y : Value}, x.type = y.type → x.Before y →
      x.type :: x.body < y.type :: y.body :=
    fun hty hxy => by
      rw [hty]
      exact ((below_body hty hxy).cons _).lt
  unfold coarse
  rw [if_pos h, if_pos (ht ▸ h)]
  constructor
  · intro hlt
    by_contra hab
    by_cases hba : b.Before a
    · exact absurd hlt (not_lt_of_gt (hcons ht.symm hba))
    · rw [ht, body_eq ht hab hba] at hlt
      exact absurd hlt (lt_irrefl _)
  · exact hcons ht

/-- A comparison that asks for less and then for greater. -/
theorem threeWay_neg_iff {P Q : Prop} [Decidable P] [Decidable Q] :
    (if P then -1 else if Q then 1 else (0 : Int)) < 0 ↔ P := by
  by_cases hP : P
  · simp [hP]
  · by_cases hQ : Q
    · simp [hP, hQ]
    · simp [hP, hQ]

theorem threeWay_pos_iff {P Q : Prop} [Decidable P] [Decidable Q] (h : P → ¬ Q) :
    0 < (if P then -1 else if Q then 1 else (0 : Int)) ↔ Q := by
  by_cases hP : P
  · simp [hP, h hP]
  · by_cases hQ : Q
    · simp [hP, hQ]
    · simp [hP, hQ]

theorem valCompare_neg_iff (a b : Value) : valCompare a b < 0 ↔ coarse a < coarse b := by
  unfold valCompare
  by_cases ht : a.type = b.type
  · rw [if_neg (not_not.mpr ht)]
    by_cases h₁ : a.type = typeInt64
    · rw [if_pos h₁, threeWay_neg_iff, coarse_lt_iff_before ht (Or.inl h₁), Value.Before,
        if_pos h₁, Int64.lt_iff_toInt_lt]
    · rw [if_neg h₁]
      by_cases h₂ : a.type = typeBytes
      · rw [if_pos h₂, threeWay_neg_iff, coarse_lt_iff_before ht (Or.inr h₂), Value.Before,
          if_neg h₁, if_pos h₂]
      · rw [if_neg h₂, coarse, coarse, if_neg (not_or.mpr ⟨h₁, h₂⟩),
          if_neg (ht ▸ not_or.mpr ⟨h₁, h₂⟩), ht]
        simp
  · rw [if_pos ht]
    rcases lt_or_gt_of_ne ht with h | h
    · have hnat := UInt8.lt_iff_toNat_lt.mp h
      exact ⟨fun _ => coarse_lt_of_type h, fun _ => by omega⟩
    · have hnat := UInt8.lt_iff_toNat_lt.mp h
      exact ⟨fun hneg => by omega, fun hlt => absurd hlt (not_lt_of_gt (coarse_lt_of_type h))⟩

theorem valCompare_pos_iff (a b : Value) : 0 < valCompare a b ↔ valCompare b a < 0 := by
  unfold valCompare
  by_cases ht : a.type = b.type
  · rw [if_neg (not_not.mpr ht), if_neg (not_not.mpr ht.symm), ht]
    by_cases h₁ : b.type = typeInt64
    · have hasymm : a.i64 < b.i64 → ¬ b.i64 < a.i64 := by
        rw [Int64.lt_iff_toInt_lt, Int64.lt_iff_toInt_lt]
        exact not_lt_of_gt
      rw [if_pos h₁, if_pos h₁, threeWay_neg_iff, threeWay_pos_iff hasymm]
    · rw [if_neg h₁, if_neg h₁]
      by_cases h₂ : b.type = typeBytes
      · rw [if_pos h₂, if_pos h₂, threeWay_neg_iff, threeWay_pos_iff not_lt_of_gt]
      · rw [if_neg h₂, if_neg h₂]
  · rw [if_pos ht, if_pos (Ne.symm ht)]
    omega

theorem aggregateMinMax_min (col : Bytes) (rows : List Record) :
    aggregateMinMax col rows (-1) = (firstLeast coarse (column col rows)).getD {} := by
  rw [aggregateMinMax_eq, foldl_firstLeast (f := coarse)]
  · intro v
    simp [betterOf]
  · intro b v h
    simp [betterOf, (valCompare_neg_iff v b).mpr h]
  · intro b v h
    simp [betterOf, mt (valCompare_neg_iff v b).mp h]

theorem aggregateMinMax_max (col : Bytes) (rows : List Record) :
    aggregateMinMax col rows 1 = (firstGreatest coarse (column col rows)).getD {} := by
  have hpos : ∀ b v, 0 < valCompare v b ↔ coarse b < coarse v := fun b v =>
    (valCompare_pos_iff v b).trans (valCompare_neg_iff b v)
  rw [aggregateMinMax_eq, foldl_firstGreatest (f := coarse)]
  · intro v
    simp [betterOf]
  · intro b v h
    simp [betterOf, (hpos b v).mpr h]
  · intro b v h
    simp [betterOf, mt (hpos b v).mp h]

-- =============================================== the order of keys

/-- The bytes a value of a key is encoded as. -/
def keyBytes (v : Value) : Bytes := v.type :: v.body

theorem encodeValues_single {v : Value} (hv : v.IsKey) :
    encodeValues [] [v] = .ok (keyBytes v) := by
  rw [encodeValues_eq (List.forall_mem_singleton.mpr hv), List.nil_append, keyBytes, valuesBytes,
    List.flatMap_singleton]

/-- Of values that are not both Bools the encodings compare as
`valCompare` does. -/
theorem keyBytes_le {v w : Value} (hv : v.IsKey) (hw : w.IsKey)
    (hbool : v.type ≠ typeBool ∨ w.type ≠ typeBool) (h : coarse v ≤ coarse w) :
    keyBytes v ≤ keyBytes w := by
  have hsplit : ∀ {u : Value}, u.IsKey → u.type ≠ typeBool →
      u.type < typeBool ∧ coarse u = keyBytes u := by
    intro u hu hne
    rcases hu with hu | hu | hu
    · exact ⟨by rw [hu]; decide, if_pos (Or.inl hu)⟩
    · exact ⟨by rw [hu]; decide, if_pos (Or.inr hu)⟩
    · exact absurd hu hne
  by_cases hvb : v.type = typeBool
  · have hwb := hbool.resolve_left (not_not.mpr hvb)
    have hlt : w.type < v.type := by
      rw [hvb]
      exact (hsplit hw hwb).1
    exact absurd h (not_le_of_gt (coarse_lt_of_type hlt))
  · by_cases hwb : w.type = typeBool
    · have hlt : v.type < w.type := by
        rw [hwb]
        exact (hsplit hv hvb).1
      exact (Below.of_head hlt _ _).lt.le
    · rwa [(hsplit hv hvb).2, (hsplit hw hwb).2] at h

theorem keyBytes_le_bool {v w : Value} (hv : v.type = typeBool) (hw : w.type = typeBool) :
    keyBytes v ≤ keyBytes w ↔ v.bool ≤ w.bool := by
  have hbody : ∀ {u : Value}, u.type = typeBool →
      keyBytes u = [typeBool, if u.bool then 1 else 0] := by
    intro u hu
    rw [keyBytes, Value.body, hu, if_neg (by decide), if_neg (by decide)]
  rw [hbody hv, hbody hw]
  cases v.bool <;> cases w.bool <;> decide

/-- Against a Bool the coarser order only asks whether a value is one. -/
theorem coarse_ge_bool {m v : Value} (hm : m.type = typeBool) (hv : v.IsKey) :
    coarse m ≤ coarse v ↔ v.type = typeBool := by
  have hcoarse : ∀ {u : Value}, u.type = typeBool → coarse u = [typeBool] := by
    intro u hu
    rw [coarse, hu, if_neg (by decide)]
  constructor
  · intro h
    by_contra hne
    have hlt : v.type < m.type := by
      rw [hm]
      rcases hv with hv | hv | hv
      · rw [hv]; decide
      · rw [hv]; decide
      · exact absurd hv hne
    exact absurd h (not_le_of_gt (coarse_lt_of_type hlt))
  · intro h
    rw [hcoarse hm, hcoarse h]

-- ========================================================= results

/-- `m` is in the column and no encoding is below its own. -/
def KeyLeast (m : Value) (vs : List Value) : Prop :=
  m ∈ vs ∧ ∃ em, encodeValues [] [m] = .ok em
    ∧ ∀ v ∈ vs, ∃ ev, encodeValues [] [v] = .ok ev ∧ Btree.compareKeys em ev ≤ 0

/-- `m` is in the column and no encoding is above its own. -/
def KeyGreatest (m : Value) (vs : List Value) : Prop :=
  m ∈ vs ∧ ∃ em, encodeValues [] [m] = .ok em
    ∧ ∀ v ∈ vs, ∃ ev, encodeValues [] [v] = .ok ev ∧ 0 ≤ Btree.compareKeys em ev

def firstBool (vs : List Value) : Option Value := vs.find? fun v => v.type = typeBool

section

variable {vs : List Value} (hkey : ∀ v ∈ vs, v.IsKey)

include hkey

theorem keyLeast_iff {m : Value} (hm : m ∈ vs) :
    KeyLeast m vs ↔ ∀ v ∈ vs, keyBytes m ≤ keyBytes v := by
  unfold KeyLeast
  rw [encodeValues_single (hkey m hm)]
  constructor
  · intro h v hv
    obtain ⟨-, em, hem, hall⟩ := h
    obtain ⟨ev, hev, hle⟩ := hall v hv
    rw [encodeValues_single (hkey v hv)] at hev
    cases hem
    cases hev
    exact Btree.cmp_le_zero_iff.mp hle
  · intro h
    exact ⟨hm, _, rfl, fun v hv => ⟨_, encodeValues_single (hkey v hv),
      Btree.cmp_le_zero_iff.mpr (h v hv)⟩⟩

theorem keyGreatest_iff {m : Value} (hm : m ∈ vs) :
    KeyGreatest m vs ↔ ∀ v ∈ vs, keyBytes v ≤ keyBytes m := by
  unfold KeyGreatest
  rw [encodeValues_single (hkey m hm)]
  constructor
  · intro h v hv
    obtain ⟨-, em, hem, hall⟩ := h
    obtain ⟨ev, hev, hle⟩ := hall v hv
    rw [encodeValues_single (hkey v hv)] at hev
    cases hem
    cases hev
    exact Btree.zero_le_cmp_iff.mp hle
  · intro h
    exact ⟨hm, _, rfl, fun v hv => ⟨_, encodeValues_single (hkey v hv),
      Btree.zero_le_cmp_iff.mpr (h v hv)⟩⟩

/-- A least value that is a Bool is the first value of a column of
Bools. -/
theorem firstBool_least {m : Value} (h : firstLeast coarse vs = some m)
    (hm : m.type = typeBool) : firstBool vs = some m ∧ ∀ v ∈ vs, v.type = typeBool := by
  obtain ⟨hmem, hle⟩ := firstLeast_mem h
  have hall : ∀ v ∈ vs, v.type = typeBool := fun v hv =>
    (coarse_ge_bool hm (hkey v hv)).mp (hle v hv)
  refine ⟨?_, hall⟩
  rw [← find?_firstLeast h]
  refine List.find?_congr fun v hv => ?_
  have hge := (coarse_ge_bool (hall v hv) (hkey m hmem)).mpr hm
  simp [hall v hv, hge]

/-- A greatest value that is a Bool is the first Bool of the column. -/
theorem firstBool_greatest {m : Value} (h : firstGreatest coarse vs = some m)
    (hm : m.type = typeBool) : firstBool vs = some m := by
  rw [← find?_firstGreatest h]
  refine List.find?_congr fun v hv => ?_
  simp [coarse_ge_bool hm (hkey v hv)]

theorem least_iff {m : Value} (h : firstLeast coarse vs = some m) :
    KeyLeast m vs ↔ (∃ v ∈ vs, v.type ≠ typeBool)
      ∨ ∀ b, firstBool vs = some b → ∀ v ∈ vs, b.bool ≤ v.bool := by
  obtain ⟨hmem, hleast⟩ := firstLeast_mem h
  rw [keyLeast_iff hkey hmem]
  by_cases hm : m.type = typeBool
  · obtain ⟨hfirst, hall⟩ := firstBool_least hkey h hm
    constructor
    · intro hle
      right
      intro b hb v hv
      rw [hfirst] at hb
      cases hb
      exact (keyBytes_le_bool hm (hall v hv)).mp (hle v hv)
    · intro hor v hv
      rcases hor with hother | hbools
      · obtain ⟨w, hw, hne⟩ := hother
        exact absurd (hall w hw) hne
      · exact (keyBytes_le_bool hm (hall v hv)).mpr (hbools m hfirst v hv)
  · constructor
    · intro _
      exact Or.inl ⟨m, hmem, hm⟩
    · intro _ v hv
      exact keyBytes_le (hkey m hmem) (hkey v hv) (Or.inl hm) (hleast v hv)

theorem greatest_iff {m : Value} (h : firstGreatest coarse vs = some m) :
    KeyGreatest m vs ↔
      ∀ b, firstBool vs = some b → ∀ v ∈ vs, v.type = typeBool → v.bool ≤ b.bool := by
  obtain ⟨hmem, hgreatest⟩ := firstGreatest_mem h
  rw [keyGreatest_iff hkey hmem]
  by_cases hm : m.type = typeBool
  · have hfirst := firstBool_greatest hkey h hm
    constructor
    · intro hle b hb v hv hvb
      rw [hfirst] at hb
      cases hb
      exact (keyBytes_le_bool hvb hm).mp (hle v hv)
    · intro hbools v hv
      by_cases hvb : v.type = typeBool
      · exact (keyBytes_le_bool hvb hm).mpr (hbools m hfirst v hv hvb)
      · exact keyBytes_le (hkey v hv) (hkey m hmem) (Or.inl hvb) (hgreatest v hv)
  · constructor
    · intro _ b hb
      -- a Bool would be greater than `m`
      have hbm := hgreatest b (List.mem_of_find?_eq_some hb)
      have hbb : b.type = typeBool := by simpa using List.find?_some hb
      exact absurd ((coarse_ge_bool hbb (hkey m hmem)).mp hbm) hm
    · intro _ v hv
      exact keyBytes_le (hkey v hv) (hkey m hmem) (Or.inr hm) (hgreatest v hv)

end

/-- MIN is the least key of a column exactly if the column has a value
that is no Bool or its first Bool is the least one; MAX is the greatest
exactly if the first Bool, if there is one, is the greatest one. -/
theorem minMax_agree_iff (col : Bytes) (rows : List Record) (hne : column col rows ≠ [])
    (hkey : ∀ v ∈ column col rows, v.IsKey) :
    (KeyLeast (aggregateMinMax col rows (-1)) (column col rows)
        ↔ (∃ v ∈ column col rows, v.type ≠ typeBool)
          ∨ ∀ b, firstBool (column col rows) = some b →
            ∀ v ∈ column col rows, b.bool ≤ v.bool)
      ∧ (KeyGreatest (aggregateMinMax col rows 1) (column col rows)
        ↔ ∀ b, firstBool (column col rows) = some b →
          ∀ v ∈ column col rows, v.type = typeBool → v.bool ≤ b.bool) := by
  rw [aggregateMinMax_min, aggregateMinMax_max]
  constructor
  · obtain ⟨m, hm⟩ := firstLeast_of_ne_nil (f := coarse) hne
    rw [hm]
    exact least_iff hkey hm
  · obtain ⟨m, hm⟩ := firstGreatest_of_ne_nil (f := coarse) hne
    rw [hm]
    exact greatest_iff hkey hm

/-- Rows of one column, given by its values. -/
def rowsOf (vals : List Value) : List Record := vals.map fun v => ⟨[lit "a"], [v]⟩

def boolValue (b : Bool) : Value := { type := typeBool, bool := b }

/-- A column of a Bool, a string and an integer. -/
def mixed : List Value := [boolValue true, { type := 2, str := [7] }, { type := 1, i64 := 2 }]

theorem minMax_agree_iff_mixed :
    KeyLeast (aggregateMinMax (lit "a") (rowsOf mixed) (-1)) mixed
      ∧ KeyGreatest (aggregateMinMax (lit "a") (rowsOf mixed) 1) mixed := by
  have hcol : column (lit "a") (rowsOf mixed) = mixed := by decide +kernel
  have hfirst : firstBool mixed = some (boolValue true) := by decide
  have h := minMax_agree_iff (lit "a") (rowsOf mixed) (by rw [hcol]; simp [mixed])
    (by rw [hcol]; decide)
  rw [hcol] at h
  refine ⟨h.1.mpr (Or.inl (by decide)), h.2.mpr ?_⟩
  intro b hb v _ _
  rw [hfirst] at hb
  cases hb
  exact Bool.le_true _

/-- MIN of true and false is true, and MAX of false and true is false. -/
theorem minMax_of_bools :
    ¬ KeyLeast (aggregateMinMax (lit "a") (rowsOf [boolValue true, boolValue false]) (-1))
        (column (lit "a") (rowsOf [boolValue true, boolValue false]))
      ∧ ¬ KeyGreatest (aggregateMinMax (lit "a") (rowsOf [boolValue false, boolValue true]) 1)
        (column (lit "a") (rowsOf [boolValue false, boolValue true])) := by
  have hmin : aggregateMinMax (lit "a") (rowsOf [boolValue true, boolValue false]) (-1)
      = boolValue true := by decide +kernel
  have hmax : aggregateMinMax (lit "a") (rowsOf [boolValue false, boolValue true]) 1
      = boolValue false := by decide +kernel
  have hcol : ∀ a b, column (lit "a") (rowsOf [boolValue a, boolValue b])
      = [boolValue a, boolValue b] := by decide +kernel
  have hkey : ∀ a b, ∀ v ∈ [boolValue a, boolValue b], v.IsKey := by decide
  rw [hmin, hmax, hcol, hcol, keyLeast_iff (hkey true false) (by simp),
    keyGreatest_iff (hkey false true) (by simp)]
  constructor
  · intro h
    exact absurd (h (boolValue false) (by simp)) (by decide)
  · intro h
    exact absurd (h (boolValue true) (by simp)) (by decide)

end Svacara.Sql
