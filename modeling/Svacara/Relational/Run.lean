/-
Runs of the calls that change rows.

A run is a list of calls, each on the table it names. A call that panics
ends there and keeps what it has written; the calls after it go on from
that state, as they do when the panic is caught above the database.
-/
import Svacara.Relational.Table

namespace Svacara.Relational

open Kvstore

/-- A call that may change rows, with its record. -/
inductive Call where
  | insert (rec : Record)
  | update (rec : Record)
  | delete (rec : Record)
  deriving DecidableEq

def Call.record : Call → Record
  | .insert rec => rec
  | .update rec => rec
  | .delete rec => rec

variable {σ : Type} (kv : Storage σ)

def Call.run (table : Bytes) : Call → DB σ → Except Fault Answer × DB σ
  | .insert rec, db => Relational.insert kv table rec db
  | .update rec, db => Relational.update kv table rec db
  | .delete rec, db => Relational.delete kv table rec db

section

variable {kv} {table : Bytes} {tdef : TableDef} {db : DB σ}
  (htab : db.tableDef table = some tdef) (rec : Record)

include htab

theorem run_insert : (Call.insert rec).run kv table db = dbUpdate kv tdef rec 0 db := by
  simp [Call.run, Relational.insert, onTable, htab]

theorem run_update : (Call.update rec).run kv table db = dbUpdate kv tdef rec 1 db := by
  simp [Call.run, Relational.update, onTable, htab]

theorem run_delete : (Call.delete rec).run kv table db = dbDelete kv tdef rec db := by
  simp [Call.run, Relational.delete, onTable, htab]

end

/-- The database behind a list of calls. -/
def after : List (Bytes × Call) → DB σ → DB σ
  | [], db => db
  | (table, call) :: calls, db => after calls (call.run kv table db).2

end Svacara.Relational
