/-
`cmd/svacara-cli/main.go`: `printResult`, which reads the payload of a
result message back.

The position in `data` is kept as the bytes behind it. A cell is a
big-endian uint16 and as many bytes; where the two bytes are missing the
function returns with what it has printed so far, and where the bytes of
the cell are missing the slice panics. The loop over the rows runs while
there are bytes left. Nothing else bounds it, so it has fuel.
-/
import Svacara.Protocol.Message

namespace Svacara.Cli

open Buf Protocol

/-- What `printResult` prints, one line each: the names, a rule under
them and the rows. -/
inductive Line where
  | header (cols : List Bytes)
  | rule (width : Nat)
  | row (cells : List Bytes)
  deriving DecidableEq

/-- `strings.Join(cols, "\t")`. -/
def joinTabs (cols : List Bytes) : Bytes := [9].intercalate cols

/-- One cell and what follows it; `none` where the function returns. -/
def readCell (data : Bytes) : Except Fault (Option (Bytes × Bytes)) :=
  if data.length < 2 then .ok none
  else do
    let clen := beNat (slice data 0 2)
    let cell ← subslice data 2 (2 + clen)
    return some (cell, data.drop (2 + clen))

/-- The loop over the `ncols` cells of a line. -/
def readCells : Nat → Bytes → Except Fault (Option (List Bytes × Bytes))
  | 0, data => .ok (some ([], data))
  | n + 1, data => do
      match ← readCell data with
      | none => return none
      | some (cell, data) =>
          match ← readCells n data with
          | none => return none
          | some (cells, data) => return some (cell :: cells, data)

/-- The loop over the rows. -/
def printRows (ncols : Nat) : Nat → Bytes → Except Fault (List Line)
  | 0, _ => .error .fuel
  | fuel + 1, data =>
      if data = [] then .ok []
      else do
        match ← readCells ncols data with
        | none => return []
        | some (row, data) =>
            let lines ← printRows ncols fuel data
            return .row row :: lines

def printResult (fuel : Nat) : Bytes → Except Fault (List Line)
  | [] => .ok []
  | ncols :: data => do
      match ← readCells ncols.toNat data with
      | none => return []
      | some (cols, data) =>
          let lines ← printRows ncols.toNat fuel data
          return .header cols :: .rule (joinTabs cols).length :: lines

end Svacara.Cli
