/-
`internal/relational/types.go`: table definitions and records.

`ColType` has the four constants of the source and no other value. A
record is a list of column names and a list of values that need not be
as long; what the code indexes past the end of is a fault here.

`checkRecord` returns an error or the values, and may panic instead of
returning: the panic is the outer `Except`, the error the inner one.
-/
import Svacara.Kvstore.Encoding

namespace Svacara.Relational

open Kvstore

-- ===================================================== definitions

inductive ColType where
  | tInt64
  | tBytes
  | tBool
  | tFloat64
  deriving DecidableEq, Repr

/-- The constant's value, `uint8`. -/
def ColType.code : ColType → UInt8
  | .tInt64 => 1
  | .tBytes => 2
  | .tBool => 3
  | .tFloat64 => 4

structure ColumnDef where
  name : Bytes
  type : ColType
  deriving DecidableEq

structure IndexDef where
  name : Bytes
  keys : List Bytes
  unique : Bool := false
  deriving DecidableEq

structure TableDef where
  name : Bytes
  cols : List ColumnDef
  pkeys : Nat
  indexes : List IndexDef := []
  pfx : UInt32 := 0
  deriving DecidableEq

/-- The position of the first column with this name. -/
def TableDef.colIndex (tdef : TableDef) (col : Bytes) : Option Nat :=
  tdef.cols.findIdx? fun c => c.name = col

/-- The errors of the package. -/
inductive DbErr where
  | tableExists (name : Bytes)
  | noPrimaryKey
  | tableNotFound (name : Bytes)
  | columnNotFound (col : Bytes)
  | missingPrimaryKey (col : Bytes)
  /-- an error of the store, passed on -/
  | storage (msg : String)
  deriving DecidableEq

def DbErr.text : DbErr → Bytes
  | .tableExists name => lit "table " ++ name ++ lit " already exists"
  | .noPrimaryKey => lit "table must have at least one primary key column"
  | .tableNotFound name => lit "table not found: " ++ name
  | .columnNotFound col => lit "column not found: " ++ col
  | .missingPrimaryKey col => lit "missing primary key column: " ++ col
  | .storage msg => lit msg

-- ========================================================= records

structure Record where
  cols : List Bytes
  vals : List Value
  deriving DecidableEq

/-- `vals[i]`. -/
def valAt (vals : List Value) (i : Nat) : Except Fault Value :=
  match vals[i]? with
  | some v => .ok v
  | none => .error .index

/-- The value of the first column with this name, and its position. -/
def Record.get (r : Record) (col : Bytes) : Except Fault (Value × Int) :=
  match r.cols.findIdx? fun c => c = col with
  | none => .ok ({}, -1)
  | some i => do
      let v ← valAt r.vals i
      return (v, i)

/-- What `checkRecord` starts from: a zero of each column's type. -/
def defaults (tdef : TableDef) : List Value :=
  tdef.cols.map fun c => { type := typeByColType c.type.code }

/-- The loop of `checkRecord` over the record's columns, from the `i`-th
on: each value goes to the place of the first column with its name. -/
def layOut (tdef : TableDef) (given : List Value) :
    Nat → List Bytes → List Value → Except Fault (Except DbErr (List Value))
  | _, [], vals => .ok (.ok vals)
  | i, col :: cols, vals =>
      match tdef.colIndex col with
      | none => .ok (.error (.columnNotFound col))
      | some j => do
          let v ← valAt given i
          layOut tdef given (i + 1) cols (vals.set j v)

/-- `vals[:n]`. -/
def firstVals (vals : List Value) (n : Nat) : Except Fault (List Value) :=
  if n ≤ vals.length then .ok (vals.take n) else .error .index

/-- The loop over the key columns, from the `i`-th on with `n` to go:
the first one without a type is missing. -/
def missingKey (tdef : TableDef) (vals : List Value) :
    Nat → Nat → Except Fault (Option Bytes)
  | _, 0 => .ok none
  | i, n + 1 => do
      let v ← valAt vals i
      if v.type = 0 then
        match tdef.cols[i]? with
        | some c => return some c.name
        | none => .error .index
      else missingKey tdef vals (i + 1) n

def checkRecord (tdef : TableDef) (rec : Record) (n : Nat) :
    Except Fault (Except DbErr (List Value)) := do
  match ← layOut tdef rec.vals 0 rec.cols (defaults tdef) with
  | .error e => return .error e
  | .ok vals =>
      if n = tdef.pkeys then
        let vals ← firstVals vals tdef.pkeys
        return .ok vals
      else
        match ← missingKey tdef vals 0 tdef.pkeys with
        | some col => return .error (.missingPrimaryKey col)
        | none => return .ok vals

end Svacara.Relational
