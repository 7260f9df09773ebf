/-
`internal/sql/ast.go`: what the parser builds.

A node's `Type` is one of the constants of the source, and the column
types of a CREATE TABLE are written with the same constants and the
number 999 for a float. The fields that no function of the package reads
or sets (`Cmp`, `GroupBy`, `OrderBy`) are left out.

`Parse` returns an `interface{}`: one of the statements, a string, or an
error as a value. `Stmt` has a constructor for each.
-/
import Svacara.Basic

namespace Svacara.Sql

inductive QLType where
  | unknown
  | ident
  | i64
  | str
  | add
  | sub
  | mul
  | div
  | mod
  | and
  | or
  | not
  | lt
  | le
  | gt
  | ge
  | eq
  | ne
  | like
  | func
  /-- 999, the float of a column type -/
  | float
  deriving DecidableEq, Repr

structure QLNode where
  type : QLType := .unknown
  i64 : Int64 := 0
  str : Bytes := []
  kids : List QLNode := []

structure QLScan where
  table : Bytes := []
  key1 : QLNode := {}
  key2 : QLNode := {}
  filter : QLNode := {}
  offset : Int64 := 0
  limit : Int64 := 0

structure QLSelect extends QLScan where
  names : List Bytes := []
  output : List QLNode := []

structure QLInsert where
  table : Bytes := []
  names : List Bytes := []
  values : List QLNode := []

structure QLUpdate extends QLScan where
  names : List Bytes := []
  values : List QLNode := []

structure QLDelete extends QLScan

structure ColSpec where
  name : Bytes
  type : QLType

structure QLCreateTable where
  table : Bytes := []
  cols : List ColSpec := []
  pkeys : List Bytes := []

structure QLCreateIndex where
  table : Bytes := []
  name : Bytes := []
  keys : List Bytes := []
  unique : Bool := false

/-- What `pStmt` returns. -/
inductive Stmt where
  | createTable (stmt : QLCreateTable)
  | createIndex (stmt : QLCreateIndex)
  | select (stmt : QLSelect)
  | insert (stmt : QLInsert)
  | update (stmt : QLUpdate)
  | delete (stmt : QLDelete)
  /-- the string that shows the statement explained -/
  | explain (stmt : QLSelect)
  /-- "BEGIN", "COMMIT" or "ABORT" -/
  | text (s : String)
  /-- the error "unknown statement at", with the input shown -/
  | unknown (rest : Bytes)

end Svacara.Sql
