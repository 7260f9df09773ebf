/-
The primary key that a CREATE TABLE declares, and what INSERTs make of
it.

The statement lists the key's columns by name; the executor passes on
their number alone. `Enforced` is what the declaration promises: of two
rows that give every column a value, the second is a duplicate exactly
if it agrees with the first on the columns that the key names.
-/
import Svacara.Sql.Executor

namespace Svacara.Sql

open Kvstore Relational

/-- The value an INSERT gives for a column. -/
def QLInsert.given (ins : QLInsert) (col : Bytes) : Option Value :=
  (ins.names.zip (evalNodes ins.values)).lookup col

def QLCreateTable.colNames (stmt : QLCreateTable) : List Bytes := stmt.cols.map (·.name)

/-- Distinct columns, and a key of distinct names among them. -/
structure QLCreateTable.Declares (stmt : QLCreateTable) : Prop where
  cols : stmt.colNames.Nodup
  pkeys : stmt.pkeys.Nodup
  among : ∀ col ∈ stmt.pkeys, col ∈ stmt.colNames

/-- The INSERT gives each column of the table a value, in any order. -/
structure QLCreateTable.Filled (stmt : QLCreateTable) (ins : QLInsert) : Prop where
  table : ins.table = stmt.table
  names : ins.names.Perm stmt.colNames
  length : ins.values.length = ins.names.length
  values : ∀ node ∈ ins.values, (evalNode node).type ≠ 0

/-- The columns that make up the key: as many as the declaration names,
from the first on. -/
def QLCreateTable.leading (stmt : QLCreateTable) : List Bytes :=
  stmt.colNames.take stmt.pkeys.length

section Store

variable {σ : Type} (kv : Storage σ)

/-- The row is rejected as a duplicate. -/
def Duplicate (ins : QLInsert) (db : DB σ) : Prop :=
  (insert kv ins.table ⟨ins.names, evalNodes ins.values⟩ db).1 = .ok (false, none)

/-- Of any two INSERTs into the table just created, the second is
rejected exactly if the rows agree on the declared key. -/
def Enforced (stmt : QLCreateTable) (db : DB σ) : Prop :=
  ∀ ins₁ ins₂, stmt.Filled ins₁ → stmt.Filled ins₂ →
    (Duplicate kv ins₂ (execInsert kv ins₁ (execCreateTable stmt db).2).2
      ↔ ∀ col ∈ stmt.pkeys, ins₁.given col = ins₂.given col)

end Store

end Svacara.Sql
