/-
AVG against the mean.

The sum of a column is an int64 and wraps, partial sums included, so what
counts is the sum as an integer: if it fits, the wrapped one is equal to
it, whatever the partial sums were, and if not, the two are at least 2^64
apart. The quotients by the number of rows, which is below 2^63, are then
different too (`average_iff`). The mean lies between the least and the
greatest value because rounding towards zero does not leave an interval
between integers (`tdiv_between`).
-/
import Svacara.Sql.Proofs.Aggregates
import Mathlib.Algebra.Order.BigOperators.Group.List
import Mathlib.Tactic.Linarith

namespace Svacara.Sql

open Kvstore Relational Outcome

-- ====================================================== arithmetic

theorem tdiv_between {S lo hi n : Int} (hn : 0 < n) (hlo : n * lo ≤ S) (hhi : S ≤ n * hi) :
    lo ≤ S.tdiv n ∧ S.tdiv n ≤ hi := by
  have h₁ := Int.tdiv_le_tdiv hn hlo
  have h₂ := Int.tdiv_le_tdiv hn hhi
  rw [Int.mul_tdiv_cancel_left lo (by omega)] at h₁
  rw [Int.mul_tdiv_cancel_left hi (by omega)] at h₂
  exact ⟨h₁, h₂⟩

/-- Numbers with one quotient are less than two divisors apart. -/
theorem lt_of_tdiv_eq {S W n : Int} (hn : 0 < n) (h : W.tdiv n = S.tdiv n) :
    S - W < 2 * n ∧ W - S < 2 * n := by
  have hS := Int.mul_tdiv_add_tmod S n
  have hW := Int.mul_tdiv_add_tmod W n
  rw [h] at hW
  have h₁ := Int.tmod_lt_of_pos S hn
  have h₂ := Int.lt_tmod_of_pos S hn
  have h₃ := Int.tmod_lt_of_pos W hn
  have h₄ := Int.lt_tmod_of_pos W hn
  constructor
  · omega
  · omega

/-- A sum that does not fit wraps to one that is 2^64 or more away. -/
theorem bmod_far {S : Int} (h : ¬ (-2 ^ 63 ≤ S ∧ S < 2 ^ 63)) :
    2 ^ 64 ≤ S - S.bmod (2 ^ 64) ∨ 2 ^ 64 ≤ S.bmod (2 ^ 64) - S := by
  rw [Int.bmod_def]
  split
  · omega
  · omega

theorem bmod_of_fits {S : Int} (h : -2 ^ 63 ≤ S ∧ S < 2 ^ 63) : S.bmod (2 ^ 64) = S := by
  apply Int.bmod_eq_of_le
  · omega
  · omega

/-- Go's division of an int64 by a length. -/
theorem toInt_div_ofNat (a : Int64) {n : Nat} (hpos : 0 < n) (hn : n < 2 ^ 63) :
    (a / Int64.ofNat n).toInt = a.toInt.tdiv n := by
  have hlo := a.le_toInt
  have hhi := a.toInt_lt
  have hn' : (1 : Int) ≤ n := by omega
  have hq : -2 ^ 63 ≤ a.toInt.tdiv n ∧ a.toInt.tdiv n ≤ 2 ^ 63 - 1 := by
    refine tdiv_between (by omega) ?_ ?_
    · linarith
    · linarith
  rw [Int64.toInt_div, Int64.toInt_ofNat_of_lt hn]
  exact bmod_of_fits ⟨hq.1, by omega⟩

-- ========================================================= the sum

/-- The sum of a column as an integer. -/
def columnSum (col : Bytes) (rows : List Record) : Int :=
  ((column col rows).map fun v => v.i64.toInt).sum

/-- The loop adds up the cells of its column, modulo 2^64. -/
theorem foldl_sum (col : Bytes) (cs : List (Bytes × Value))
    (hint : ∀ v ∈ (cs.filter fun c => c.1 = col).map Prod.snd, v.type = typeInt64) (sum : Int64) :
    (cs.foldl (fun sum c => if c.1 = col ∧ c.2.type = typeInt64 then sum + c.2.i64 else sum)
        sum).toInt
      = (sum.toInt + (((cs.filter fun c => c.1 = col).map Prod.snd).map
          fun v => v.i64.toInt).sum).bmod (2 ^ 64) := by
  induction cs generalizing sum with
  | nil => simp
  | cons cell cs ih =>
      obtain ⟨name, v⟩ := cell
      by_cases h : name = col
      · rw [List.filter_cons_of_pos (by simpa using h), List.map_cons] at hint ⊢
        obtain ⟨hv, hint⟩ := List.forall_mem_cons.mp hint
        rw [List.foldl_cons, if_pos ⟨h, hv⟩, ih hint, Int64.toInt_add, Int.bmod_add_bmod,
          List.map_cons, List.sum_cons, Int.add_assoc]
      · rw [List.filter_cons_of_neg (by simpa using h)] at hint ⊢
        rw [List.foldl_cons, if_neg fun hcell => h hcell.1, ih hint]

theorem aggregateSum_toInt {col : Bytes} {rows : List Record}
    (hint : ∀ v ∈ column col rows, v.type = typeInt64) :
    (aggregateSum col rows).i64.toInt = (columnSum col rows).bmod (2 ^ 64) := by
  have h := foldl_sum col (cells rows) hint 0
  rw [Int64.toInt_zero, Int.zero_add] at h
  exact h

-- ======================================================== the rows

/-- The row's columns have different names and a value each, and the one
under `col` is an integer. -/
structure HoldsInt (col : Bytes) (r : Record) : Prop where
  distinct : r.cols.Nodup
  full : r.vals.length = r.cols.length
  int : ∃ v, (col, v) ∈ r.cols.zip r.vals ∧ v.type = typeInt64

/-- Such a row adds one value to its column. -/
theorem HoldsInt.single {col : Bytes} {r : Record} (h : HoldsInt col r) :
    ∃ v, column col [r] = [v] ∧ v.type = typeInt64 := by
  obtain ⟨v, hmem, hv⟩ := h.int
  have hfst : (r.cols.zip r.vals).map Prod.fst = r.cols := List.map_fst_zip h.full.ge
  have hcol : col ∈ r.cols := hfst ▸ List.mem_map_of_mem hmem
  have hlen : (column col [r]).length = 1 := by
    have hcount : (r.cols.zip r.vals).countP (fun c => c.1 = col) = r.cols.count col := by
      rw [List.count, ← hfst, List.countP_map, hfst]
      refine List.countP_congr fun c _ => ?_
      simp
    rw [column, cells, List.flatMap_singleton, List.length_map, ← List.countP_eq_length_filter,
      hcount, List.count_eq_one_of_mem h.distinct hcol]
  have hin : v ∈ column col [r] := by
    rw [column, cells, List.flatMap_singleton]
    exact List.mem_map.mpr ⟨(col, v), List.mem_filter.mpr ⟨hmem, by simp⟩, rfl⟩
  obtain ⟨w, hw⟩ := List.length_eq_one_iff.mp hlen
  rw [hw, List.mem_singleton] at hin
  exact ⟨w, hw, hin ▸ hv⟩

theorem column_cons (col : Bytes) (r : Record) (rows : List Record) :
    column col (r :: rows) = column col [r] ++ column col rows := by
  simp [column, cells]

/-- The column has as many values as there are rows, all integers. -/
theorem column_ints {col : Bytes} {rows : List Record} (h : ∀ r ∈ rows, HoldsInt col r) :
    (column col rows).length = rows.length ∧ ∀ v ∈ column col rows, v.type = typeInt64 := by
  induction rows with
  | nil => exact ⟨rfl, fun v hv => absurd hv List.not_mem_nil⟩
  | cons r rows ih =>
      obtain ⟨hr, hrows⟩ := List.forall_mem_cons.mp h
      obtain ⟨hlen, hall⟩ := ih hrows
      obtain ⟨v, hv, hint⟩ := hr.single
      rw [column_cons, hv, List.singleton_append, List.length_cons, List.length_cons, hlen]
      exact ⟨rfl, List.forall_mem_cons.mpr ⟨hint, hall⟩⟩

-- ===================================================== the answers

/-- The name under which an aggregate stands in the result. -/
def aggregateName (f : String) (col : Bytes) : Bytes := lit f ++ lit "(" ++ col ++ lit ")"

/-- `v` stands under a name in what `computeAggregates` returns for these
rows, to some statement. -/
def Gives (rows : List Record) (name : Bytes) (v : Value) : Prop :=
  ∃ stmt rec, computeAggregates stmt rows = .ok [rec] ∧ (name, v) ∈ rec.cols.zip rec.vals

/-- The quotient that `computeAggregates` forms. -/
def average (col : Bytes) (rows : List Record) : Value :=
  { type := typeInt64
    i64 := if 0 < rows.length then (aggregateSum col rows).i64 / Int64.ofNat rows.length else 0 }

/-- What stands under the name of an aggregate. -/
def aggregateValue (f : String) (col : Bytes) (rows : List Record) : Value :=
  if f = "sum" then aggregateSum col rows
  else if f = "avg" then average col rows
  else if f = "min" then aggregateMinMax col rows (-1)
  else aggregateMinMax col rows 1

theorem aggregateName_inj {f g : String} (hf : (lit f).length = (lit g).length)
    {c d : Bytes} (h : aggregateName f c = aggregateName g d) : lit f = lit g ∧ c = d := by
  unfold aggregateName at h
  obtain ⟨h, -⟩ := List.append_inj' h rfl
  rw [List.append_assoc, List.append_assoc] at h
  obtain ⟨hfg, h⟩ := List.append_inj h hf
  exact ⟨hfg, (List.append_inj h rfl).2⟩

/-- One output: it adds nothing, the count, or one of the named values. -/
theorem aggregateOutput_cell {rows : List Record} {o : QLNode} {out : List (Bytes × Value)}
    (h : aggregateOutput rows o = .ok out) {name : Bytes} {v : Value} (hmem : (name, v) ∈ out) :
    name = lit "count"
      ∨ ∃ f ∈ ["sum", "avg", "min", "max"], ∃ col,
        name = aggregateName f col ∧ v = aggregateValue f col rows := by
  unfold aggregateOutput at h
  by_cases htype : o.type ≠ .func
  · rw [if_pos htype] at h
    cases h
    cases hmem
  · rw [if_neg htype] at h
    cases hkids : o.kids with
    | nil =>
        rw [hkids] at h
        cases h
    | cons kid kids =>
        rw [hkids] at h
        dsimp only at h
        split at h
        · cases h
          left
          simpa using congrArg Prod.fst (List.mem_singleton.mp hmem)
        · right
          split at h
          · next hname =>
              cases h
              cases List.mem_singleton.mp hmem
              exact ⟨"sum", by simp, kid.str, by rw [hname]; rfl, rfl⟩
          · split at h
            · next hname =>
                cases h
                cases List.mem_singleton.mp hmem
                exact ⟨"avg", by simp, kid.str, by rw [hname]; rfl, rfl⟩
            · split at h
              · next hname =>
                  cases h
                  cases List.mem_singleton.mp hmem
                  exact ⟨"min", by simp, kid.str, by rw [hname]; rfl, rfl⟩
              · split at h
                · next hname =>
                    cases h
                    cases List.mem_singleton.mp hmem
                    exact ⟨"max", by simp, kid.str, by rw [hname]; rfl, rfl⟩
                · cases h
                  cases hmem

/-- Statements give one value under the name of an aggregate. -/
theorem Gives.eq {rows : List Record} {f : String} (hf : f ∈ ["sum", "avg", "min", "max"])
    {col : Bytes} {v : Value} (h : Gives rows (aggregateName f col) v) :
    v = aggregateValue f col rows := by
  obtain ⟨stmt, rec, hcompute, hmem⟩ := h
  obtain ⟨outputs, houtputs, hrec⟩ := bind_eq_ok.mp hcompute
  obtain rfl : _ = rec := List.singleton_inj.mp (Except.ok.inj hrec)
  rw [← List.zip_of_prod rfl rfl] at hmem
  obtain ⟨out, hout, hmem⟩ := List.mem_flatten.mp hmem
  obtain ⟨o, -, ho⟩ := mapM_mem_ok houtputs hout
  rcases aggregateOutput_cell ho hmem with hname | ⟨g, hg, d, hname, hv⟩
  · -- no name of an aggregate starts as `count` does
    have hhead := congrArg List.head? hname
    simp only [List.mem_cons, List.not_mem_nil, or_false] at hf
    rcases hf with rfl | rfl | rfl | rfl
    all_goals
      unfold aggregateName at hhead
      rw [List.append_assoc, List.append_assoc, List.head?_append_of_ne_nil _ (by decide +kernel)]
        at hhead
      exact absurd hhead (by decide +kernel)
  · have hlen : (lit f).length = (lit g).length := by
      have hthree : ∀ f ∈ ["sum", "avg", "min", "max"], (lit f).length = 3 := by decide +kernel
      rw [hthree f hf, hthree g hg]
    obtain ⟨hfg, rfl⟩ := aggregateName_inj hlen hname
    have hinj : ∀ f ∈ ["sum", "avg", "min", "max"], ∀ g ∈ ["sum", "avg", "min", "max"],
        lit f = lit g → f = g := by decide +kernel
    rw [hv, hinj f hf g hg hfg]

/-- The select of one aggregate. -/
def selectAggregate (f : String) (col : Bytes) : QLSelect :=
  { output := [{ type := .func, str := lit f, kids := [{ type := .ident, str := col }] }] }

theorem gives (rows : List Record) {f : String} (hf : f ∈ ["sum", "avg", "min", "max"])
    (col : Bytes) : Gives rows (aggregateName f col) (aggregateValue f col rows) := by
  have hdistinct : ∀ f ∈ ["count", "sum", "avg", "min", "max"],
      ∀ g ∈ ["count", "sum", "avg", "min", "max"], lit f = lit g ↔ f = g := by decide +kernel
  refine ⟨selectAggregate f col,
    ⟨[aggregateName f col], [aggregateValue f col rows]⟩, ?_, by simp⟩
  simp only [List.mem_cons, List.not_mem_nil, or_false] at hf
  rcases hf with rfl | rfl | rfl | rfl
  all_goals
    simp [computeAggregates, selectAggregate, aggregateOutput, hdistinct, aggregateValue,
      aggregateName, average]

-- ========================================================= results

/-- AVG is the sum divided by the number of rows, rounded towards zero,
and lies between MIN and MAX. -/
def IsMean (col : Bytes) (rows : List Record) : Prop :=
  ∀ avg lo hi, Gives rows (aggregateName "avg" col) avg →
    Gives rows (aggregateName "min" col) lo → Gives rows (aggregateName "max" col) hi →
    avg.type = typeInt64 ∧ avg.i64.toInt = (columnSum col rows).tdiv rows.length
      ∧ lo.i64.toInt ≤ avg.i64.toInt ∧ avg.i64.toInt ≤ hi.i64.toInt

/-- Among integers the coarser order is the order of the integers. -/
theorem toInt_le_of_coarse {a b : Value} (ha : a.type = typeInt64) (hb : b.type = typeInt64)
    (h : coarse a ≤ coarse b) : a.i64.toInt ≤ b.i64.toInt := by
  rw [← not_lt, coarse_lt_iff_before (hb.trans ha.symm) (Or.inl hb), Value.Before,
    if_pos hb] at h
  omega

section

variable {col : Bytes} {rows : List Record} (hne : rows ≠ [])
  (hrows : ∀ r ∈ rows, HoldsInt col r)

include hne hrows

/-- The mean of a column lies between its MIN and its MAX. -/
theorem minMax_around :
    (aggregateMinMax col rows (-1)).i64.toInt ≤ (columnSum col rows).tdiv rows.length
      ∧ (columnSum col rows).tdiv rows.length ≤ (aggregateMinMax col rows 1).i64.toInt := by
  obtain ⟨hlen, hint⟩ := column_ints hrows
  have hpos : 0 < rows.length := List.length_pos_iff.mpr hne
  have hcol : column col rows ≠ [] := by
    rw [← List.length_pos_iff, hlen]
    exact hpos
  obtain ⟨lo, hlo⟩ := firstLeast_of_ne_nil (f := coarse) hcol
  obtain ⟨hi, hhi⟩ := firstGreatest_of_ne_nil (f := coarse) hcol
  obtain ⟨hlomem, hleast⟩ := firstLeast_mem hlo
  obtain ⟨hhimem, hgreatest⟩ := firstGreatest_mem hhi
  rw [aggregateMinMax_min, aggregateMinMax_max, hlo, hhi, Option.getD_some, Option.getD_some]
  refine tdiv_between (by omega) ?_ ?_
  · have h := List.card_nsmul_le_sum ((column col rows).map fun v => v.i64.toInt) lo.i64.toInt
      (List.forall_mem_map.mpr fun v hv =>
        toInt_le_of_coarse (hint lo hlomem) (hint v hv) (hleast v hv))
    rw [List.length_map, hlen, nsmul_eq_mul] at h
    exact h
  · have h := List.sum_le_card_nsmul ((column col rows).map fun v => v.i64.toInt) hi.i64.toInt
      (List.forall_mem_map.mpr fun v hv =>
        toInt_le_of_coarse (hint v hv) (hint hi hhimem) (hgreatest v hv))
    rw [List.length_map, hlen, nsmul_eq_mul] at h
    exact h

theorem average_toInt (hlt : rows.length < 2 ^ 63) :
    (average col rows).i64.toInt
      = ((columnSum col rows).bmod (2 ^ 64)).tdiv rows.length := by
  have hpos : 0 < rows.length := List.length_pos_iff.mpr hne
  unfold average
  dsimp only
  rw [if_pos hpos, toInt_div_ofNat _ hpos hlt, aggregateSum_toInt (column_ints hrows).2]

end

/-- AVG is the mean of a column exactly if the sum of the column fits an
int64. A list of rows has fewer than 2^63 of them. -/
theorem average_iff (col : Bytes) (rows : List Record) (hne : rows ≠ [])
    (hrows : ∀ r ∈ rows, HoldsInt col r) (hlt : rows.length < 2 ^ 63) :
    IsMean col rows ↔ -2 ^ 63 ≤ columnSum col rows ∧ columnSum col rows < 2 ^ 63 := by
  have hpos : (0 : Int) < rows.length := by
    have := List.length_pos_iff.mpr hne
    omega
  have havg := average_toInt hne hrows hlt
  constructor
  · intro h
    by_contra hwide
    obtain ⟨-, hmean, -⟩ := h _ _ _ (gives rows (f := "avg") (by simp) col)
      (gives rows (f := "min") (by simp) col) (gives rows (f := "max") (by simp) col)
    have heq : ((columnSum col rows).bmod (2 ^ 64)).tdiv rows.length
        = (columnSum col rows).tdiv rows.length := havg.symm.trans hmean
    obtain ⟨h₁, h₂⟩ := lt_of_tdiv_eq hpos heq
    rcases bmod_far hwide with hfar | hfar
    · omega
    · omega
  · intro hfits avg lo hi ha hl hh
    obtain rfl := ha.eq (by simp)
    obtain rfl := hl.eq (by simp)
    obtain rfl := hh.eq (by simp)
    rw [bmod_of_fits hfits] at havg
    obtain ⟨hlo, hhi⟩ := minMax_around hne hrows
    exact ⟨rfl, havg, havg ▸ hlo, havg ▸ hhi⟩

def intValue (n : Int64) : Value := { type := typeInt64, i64 := n }

theorem holdsInt_rowsOf {vals : List Value} (h : ∀ v ∈ vals, v.type = typeInt64) :
    ∀ r ∈ rowsOf vals, HoldsInt (lit "a") r := by
  intro r hr
  obtain ⟨v, hv, rfl⟩ := List.mem_map.mp hr
  exact ⟨List.nodup_singleton _, rfl, v, List.mem_singleton_self _, h v hv⟩

/-- The values 5 and -2, whose sum is 3 and whose mean is 1. -/
theorem average_iff_small : IsMean (lit "a") (rowsOf [intValue 5, intValue (-2)]) :=
  (average_iff (lit "a") (rowsOf [intValue 5, intValue (-2)]) (by simp [rowsOf])
    (holdsInt_rowsOf (by decide)) (by decide)).mpr (by decide +kernel)

/-- The largest int64 twice: the sum wraps to -2, and AVG is -1. -/
theorem average_of_largest :
    (∀ r ∈ rowsOf [intValue Int64.maxValue, intValue Int64.maxValue], HoldsInt (lit "a") r)
      ∧ (average (lit "a") (rowsOf [intValue Int64.maxValue, intValue Int64.maxValue])).i64 = -1
      ∧ ¬ IsMean (lit "a") (rowsOf [intValue Int64.maxValue, intValue Int64.maxValue]) := by
  have havg : (average (lit "a")
      (rowsOf [intValue Int64.maxValue, intValue Int64.maxValue])).i64 = -1 := by decide +kernel
  refine ⟨holdsInt_rowsOf (by decide), havg, fun h => ?_⟩
  obtain ⟨-, hmean, -⟩ := h _ _ _ (gives _ (f := "avg") (by simp) (lit "a"))
    (gives _ (f := "min") (by simp) (lit "a")) (gives _ (f := "max") (by simp) (lit "a"))
  have hmean' : (average (lit "a")
      (rowsOf [intValue Int64.maxValue, intValue Int64.maxValue])).i64.toInt = _ := hmean
  rw [havg] at hmean'
  exact absurd hmean' (by decide +kernel)

end Svacara.Sql
