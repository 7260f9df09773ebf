/-
The server's result messages and the client that prints them.

A cell that was encoded from at most 65535 bytes reads back whatever
follows it, so a list of cells does, and so do the rows: the loop has
used up the payload exactly when it has printed the last of them. The
number of columns is the one field that can be wrong: it is a byte.
-/
import Svacara.Cli.PrintResult
import Svacara.Protocol.Proofs.Message

namespace Svacara.Cli

open Buf Protocol Outcome

/-- What a result should be printed as. -/
def resultLines (cols : List Bytes) (rows : List Row) : List Line :=
  .header cols :: .rule (joinTabs cols).length :: rows.map fun row => .row (cols.map row.at)

/-- The part of a frame behind its header. -/
def payloadOf (frame : Bytes) : Bytes := frame.drop 5

theorem payloadOf_encodeMessage (t : UInt8) (p : Bytes) :
    payloadOf (encodeMessage t p) = p := by
  simp [payloadOf, encodeMessage]

-- =========================================================== cells

theorem readCell_encodeString (s rest : Bytes) (h : s.length ≤ 65535) :
    readCell (encodeString s ++ rest) = .ok (some (s, rest)) := by
  have hsplit : encodeString s ++ rest = beBytes 2 s.length ++ (s ++ rest) := by
    rw [encodeString, Nat.mod_eq_of_lt (by omega), List.append_assoc]
  have hlen : (beBytes 2 s.length ++ (s ++ rest)).length = 2 + s.length + rest.length := by
    simp only [List.length_append, length_beBytes]
    omega
  have hfield : beNat (slice (beBytes 2 s.length ++ (s ++ rest)) 0 2) = s.length := by
    rw [slice_zero, List.take_left' (length_beBytes ..), beNat_beBytes (by omega)]
  have hcell : slice (beBytes 2 s.length ++ (s ++ rest)) 2 s.length = s :=
    slice_mid _ s rest (length_beBytes ..).symm rfl
  have hdrop : (beBytes 2 s.length ++ (s ++ rest)).drop (2 + s.length) = rest := by
    rw [← List.append_assoc]
    apply List.drop_left'
    simp
  rw [hsplit, readCell, if_neg (by omega)]
  simp only [hfield, subslice, Nat.add_sub_cancel_left, hcell, hdrop]
  rw [if_pos (by omega)]
  rfl

theorem readCells_encode (cells : List Bytes) (rest : Bytes)
    (h : ∀ s ∈ cells, s.length ≤ 65535) :
    readCells cells.length (cells.flatMap encodeString ++ rest) = .ok (some (cells, rest)) := by
  induction cells with
  | nil => rfl
  | cons s cells ih =>
      have hs := readCell_encodeString s (cells.flatMap encodeString ++ rest) (h s (by simp))
      have hcells := ih fun c hc => h c (by simp [hc])
      simp [readCells, hs, hcells]

/-- A line has as many cells as were asked for. -/
theorem length_of_readCells {n : Nat} {data rest : Bytes} {cells : List Bytes}
    (h : readCells n data = .ok (some (cells, rest))) : cells.length = n := by
  induction n generalizing data cells with
  | zero =>
      simp only [readCells, Except.ok.injEq, Option.some.injEq, Prod.mk.injEq] at h
      simp [← h.1]
  | succ n ih =>
      obtain ⟨c, hcell, h⟩ := bind_eq_ok.mp h
      cases c with
      | none => simp at h
      | some c =>
          obtain ⟨cs, hcells, h⟩ := bind_eq_ok.mp h
          cases cs with
          | none => simp at h
          | some cs =>
              obtain ⟨rfl, rfl⟩ : c.1 :: cs.1 = cells ∧ cs.2 = rest := by simpa using h
              rw [List.length_cons, ih hcells]

-- ============================================================ rows

/-- Every row takes at least the two bytes of a length, so there is one
more round than there are rows. -/
theorem printRows_encode (cols : List Bytes) (rows : List Row) (hcols : cols ≠ [])
    (h : ∀ row ∈ rows, ∀ c, (row.at c).length ≤ 65535) :
    printRows cols.length (rows.length + 1)
        (rows.flatMap fun row => cols.flatMap fun c => encodeString (row.at c))
      = .ok (rows.map fun row => .row (cols.map row.at)) := by
  induction rows with
  | nil => rfl
  | cons row rows ih =>
      have hcells := readCells_encode (cols.map row.at)
        (rows.flatMap fun row => cols.flatMap fun c => encodeString (row.at c))
        (by simpa using fun c _ => h row (by simp) c)
      rw [List.length_map, List.flatMap_map] at hcells
      have hrest := ih fun r hr => h r (by simp [hr])
      have hne : (cols.flatMap fun c => encodeString (row.at c)) ≠ [] := by
        obtain ⟨c, cols, rfl⟩ := List.exists_cons_of_ne_nil hcols
        simp [encodeString, beBytes]
      simp only [List.flatMap_cons, List.length_cons, List.map_cons]
      rw [printRows, if_neg (by simp [hne]), hcells, ok_bind]
      simp [hrest]

/-- Rows without columns never end. -/
theorem printRows_zero (fuel : Nat) {data : Bytes} (h : data ≠ []) :
    printRows 0 fuel data = .error .fuel := by
  induction fuel with
  | zero => rfl
  | succ fuel ih => simp [printRows, h, readCells, ih]

-- ========================================================= results

/-- A header of all the columns has a byte's worth of them. -/
theorem lt_of_printResult {fuel : Nat} {cols : List Bytes} {rows : List Row}
    (h : printResult fuel (resultPayload cols rows) = .ok (resultLines cols rows)) :
    cols.length < 256 := by
  obtain ⟨r, hcells, h⟩ := bind_eq_ok.mp h
  cases r with
  | none => simp [resultLines] at h
  | some r =>
      obtain ⟨lines, -, h⟩ := bind_eq_ok.mp h
      have hcols : r.1 = cols := by
        simp only [resultLines, pure_eq_ok, Except.ok.injEq, List.cons.injEq,
          Line.header.injEq] at h
        exact h.1
      have hlen := length_of_readCells hcells
      rw [← hcols]
      rw [hlen]
      exact UInt8.toNat_lt _

/-- The client recovers a result just when the number of columns fits the
byte it is sent in. -/
theorem printResult_encodeResult_iff (cols : List Bytes) (rows : List Row)
    (hcols : cols ≠ []) (hname : ∀ c ∈ cols, c.length ≤ 65535)
    (hcell : ∀ row ∈ rows, ∀ c v, row c = some v → v.length ≤ 65535) :
    (∃ fuel, printResult fuel (payloadOf (encodeResult cols rows))
        = .ok (resultLines cols rows)) ↔ cols.length ≤ 255 := by
  rw [encodeResult, payloadOf_encodeMessage]
  constructor
  · rintro ⟨fuel, h⟩
    exact Nat.le_of_lt_succ (lt_of_printResult h)
  · intro hbyte
    have hat : ∀ row ∈ rows, ∀ c, (row.at c).length ≤ 65535 := by
      intro row hrow c
      rw [Row.at]
      cases hv : row c with
      | none => simp
      | some v => exact hcell row hrow c v hv
    have hncols : (UInt8.ofNat cols.length).toNat = cols.length := by
      rw [UInt8.toNat_ofNat', Nat.mod_eq_of_lt (by omega)]
    have hhead := readCells_encode cols
      (rows.flatMap fun row => cols.flatMap fun c => encodeString (row.at c)) hname
    have hrows := printRows_encode cols rows hcols hat
    refine ⟨rows.length + 1, ?_⟩
    rw [resultPayload, printResult, hncols, hhead, ok_bind]
    simp [hrows, resultLines]

/-- One column and a row that has it. -/
theorem printResult_one_column :
    ∃ fuel, printResult fuel (payloadOf (encodeResult [[97]] [fun _ => some [49, 50]]))
      = .ok (resultLines [[97]] [fun _ => some [49, 50]]) := by
  refine (printResult_encodeResult_iff [[97]] [fun _ => some [49, 50]] ?_ ?_ ?_).mpr ?_
  · simp
  · simp
  · simp
  · simp

/-- A multiple of 256 columns is announced as none: the header is lost,
and the loop over the rows never gets past the names. -/
theorem printResult_no_columns {cols : List Bytes} (rows : List Row) (fuel : Nat)
    (hcols : cols ≠ []) (hmod : cols.length % 256 = 0) :
    printResult fuel (resultPayload cols rows) = .error .fuel := by
  have hncols : (UInt8.ofNat cols.length).toNat = 0 := by
    rw [UInt8.toNat_ofNat']
    exact hmod
  have hne : cols.flatMap encodeString ≠ [] := by
    obtain ⟨c, cols, rfl⟩ := List.exists_cons_of_ne_nil hcols
    simp [encodeString, beBytes]
  rw [resultPayload, printResult, hncols, readCells, ok_bind]
  simp [printRows_zero, hne]

/-- 256 columns and no row. -/
theorem printResult_256_columns :
    (∀ fuel, printResult fuel (payloadOf (encodeResult (List.replicate 256 [97]) []))
        = .error .fuel) ∧
      ¬ ∃ fuel, printResult fuel (payloadOf (encodeResult (List.replicate 256 [97]) []))
        = .ok (resultLines (List.replicate 256 [97]) []) := by
  rw [encodeResult, payloadOf_encodeMessage]
  have hloop : ∀ fuel, printResult fuel (resultPayload (List.replicate 256 [97]) [])
      = .error .fuel := by
    intro fuel
    apply printResult_no_columns
    · exact List.ne_nil_of_length_pos (by rw [List.length_replicate]; omega)
    · rw [List.length_replicate]
  refine ⟨hloop, ?_⟩
  rintro ⟨fuel, h⟩
  rw [hloop] at h
  contradiction

end Svacara.Cli
