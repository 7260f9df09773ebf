/-
LIMIT and OFFSET as a window.

A plain select returns the rows from its offset on, as many as its limit
says, where the sum of the two is an int64 (`execSelect_window_iff`). A
larger sum wraps to a negative number, which every count has passed: the
loop ends at the first row behind the offset. Nothing is lost by that only
if there is no such row. A limit that is left out is the largest int64, so
with it every offset above 0 is such a sum.
-/
import Svacara.Sql.Proofs.Select

namespace Svacara.Sql

open Kvstore Relational Outcome

variable {σ : Type} {kv : Storage σ} {T : TableDef}

-- ============================================= the end of a window

theorem toInt_end {offset limit : Int64}
    (hsum : offset.toInt + limit.toInt < 2 ^ 63) (hoffset : 0 ≤ offset.toInt)
    (hlimit : 0 ≤ limit.toInt) :
    (offset + limit).toInt = offset.toInt + limit.toInt := by
  rw [Int64.toInt_add]
  apply Int.bmod_eq_of_le
  · omega
  · omega

/-- Two numbers that are not negative wrap to one that is. -/
theorem toInt_end_wrapped {offset limit : Int64}
    (hsum : 2 ^ 63 ≤ offset.toInt + limit.toInt) : (offset + limit).toInt < 0 := by
  have hoff := offset.toInt_lt
  have hlim := limit.toInt_lt
  have hwrap : (offset.toInt + limit.toInt).bmod (2 ^ 64)
      = offset.toInt + limit.toInt - 2 ^ 64 := by
    rw [← Int.sub_bmod_right]
    apply Int.bmod_eq_of_le
    · omega
    · omega
  rw [Int64.toInt_add, hwrap]
  omega

/-- The rows at the positions from the offset to below offset and limit,
added as integers. -/
def window (offset limit : Int64) (rows : List Record) : List Record :=
  (rows.drop offset.toInt.toNat).take limit.toInt.toNat

theorem slots_window {offset limit : Int64} (hoffset : 0 ≤ offset.toInt) (rows : List Record) :
    slots offset.toInt (offset.toInt + limit.toInt) rows = window offset limit rows := by
  rw [slots, window]
  congr 1
  omega

-- ====================================================== the select

theorem execSelect_plain {stmt : QLSelect} {db : DB σ} {s : Scanner} {rows : List Record}
    (htable : db.tableDef stmt.table = some T) (hplain : isAggregate stmt = false)
    (hscan : scan kv T (keyVals stmt.key1) (keyVals stmt.key2) 0 0 db = .ok s)
    (hrows : s.rows = .ok rows) :
    execSelect kv stmt db
      = .ok (.ok (slots stmt.offset.toInt (stmt.offset + stmt.limit).toInt rows)) := by
  obtain ⟨-, -, rfl⟩ := scan_ok_iff.mp hscan
  have hloop := selectLoop_rows stmt.offset stmt.limit 0 le_rfl hrows
  rw [Int64.toInt_zero, Int.sub_zero, Int.sub_zero] at hloop
  have hrecords : selectRecords kv T stmt.toQLScan db
      = .ok (slots stmt.offset.toInt (stmt.offset + stmt.limit).toInt rows) := by
    rw [selectRecords, hscan, ok_bind]
    exact hloop
  unfold execSelect
  rw [htable]
  dsimp only
  rw [hrecords, ok_bind, hplain]
  rfl

/-- A plain select returns the window of the rows its scanner yields, if
and only if the end of the window is an int64 or no row is behind the
offset. -/
theorem execSelect_window_iff (stmt : QLSelect) (db : DB σ) (s : Scanner) (rows : List Record)
    (htable : db.tableDef stmt.table = some T) (hplain : isAggregate stmt = false)
    (hscan : scan kv T (keyVals stmt.key1) (keyVals stmt.key2) 0 0 db = .ok s)
    (hrows : s.rows = .ok rows) (hoffset : 0 ≤ stmt.offset) (hlimit : 0 ≤ stmt.limit) :
    execSelect kv stmt db = .ok (.ok (window stmt.offset stmt.limit rows))
      ↔ stmt.offset.toInt + stmt.limit.toInt < 2 ^ 63
        ∨ (rows.length : Int) ≤ stmt.offset.toInt := by
  rw [Int64.le_iff_toInt_le, Int64.toInt_zero] at hoffset hlimit
  rw [execSelect_plain htable hplain hscan hrows, Except.ok.injEq, Except.ok.injEq]
  by_cases hsum : stmt.offset.toInt + stmt.limit.toInt < 2 ^ 63
  · rw [toInt_end hsum hoffset hlimit, slots_window hoffset]
    exact ⟨fun _ => Or.inl hsum, fun _ => rfl⟩
  · -- the loop returns nothing, and a limit of 0 cannot have wrapped
    have hwrapped := toInt_end_wrapped (not_lt.mp hsum)
    have hoff := stmt.offset.toInt_lt
    have hpositive : stmt.limit.toInt.toNat ≠ 0 := by omega
    rw [slots_closed (by omega), eq_comm, window, List.take_eq_nil_iff, List.drop_eq_nil_iff]
    constructor
    · intro h
      exact Or.inr (by omega)
    · intro h
      exact Or.inr (by omega)

/-- All of a table but its first `offset` rows, up to `limit` of them. -/
def restOf (table : Bytes) (offset limit : Int64) : QLSelect :=
  selectAll { table, offset, limit }

/-- What the table `a` of `fourRows` yields to a scan without bounds. -/
def rowsOfA : List Record := [⟨[lit "id"], []⟩, ⟨[lit "id"], []⟩]

theorem scan_rowsOfA :
    ∃ s, scan memory (oneKey (lit "a")) [] [] 0 0 fourRows = .ok s ∧ s.rows = .ok rowsOfA :=
  ⟨_, scan_eq (by simp) (by simp) fourRows, by decide +kernel⟩

theorem execSelect_window_iff_second :
    execSelect memory (restOf (lit "a") 1 5) fourRows
      = .ok (.ok (window 1 5 rowsOfA)) := by
  obtain ⟨s, hscan, hrows⟩ := scan_rowsOfA
  exact (execSelect_window_iff (restOf (lit "a") 1 5) fourRows s rowsOfA
    (by decide +kernel) rfl hscan hrows (by decide) (by decide)).mpr (Or.inl (by decide))

/-- `SELECT * FROM a LIMIT OFFSET 1`, the limit left out, on a table of two
rows returns none. -/
theorem select_offset_lost :
    (∃ s, scan memory (oneKey (lit "a")) [] [] 0 0 fourRows = .ok s ∧ s.rows = .ok rowsOfA)
      ∧ execSelect memory (restOf (lit "a") 1 Int64.maxValue) fourRows = .ok (.ok [])
      ∧ window 1 Int64.maxValue rowsOfA = [⟨[lit "id"], []⟩] := by
  obtain ⟨s, hscan, hrows⟩ := scan_rowsOfA
  refine ⟨⟨s, hscan, hrows⟩, ?_, by decide +kernel⟩
  have htable : fourRows.tableDef (lit "a") = some (oneKey (lit "a")) := by decide +kernel
  have hselect : execSelect memory (restOf (lit "a") 1 Int64.maxValue) fourRows
      = .ok (.ok (slots 1 (1 + Int64.maxValue).toInt rowsOfA)) :=
    execSelect_plain htable rfl hscan hrows
  rw [hselect, slots_closed (by decide)]

end Svacara.Sql
