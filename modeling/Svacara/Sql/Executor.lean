/-
`internal/sql/executor.go`: statements run on a database.

A call returns how it ended, a fault or its result, and the database it
leaves, as in the relational layer. The result is an error or what
`Execute` returns as an `interface{}`. `%q` in the error texts is a
parameter here.

`execUpdate` and `execDelete` run a select for the records first, and go
on with what it returned.
-/
import Svacara.Sql.Parser
import Svacara.Relational.Table

namespace Svacara.Sql

open Kvstore Relational

-- ======================================================== outcomes

inductive SqlErr where
  /-- input was left behind the statement -/
  | parse (rest : Bytes)
  | unknownStatement (rest : Bytes)
  | tableNotFound (table : Bytes)
  /-- an error of the relational layer, passed on -/
  | db (e : DbErr)
  deriving DecidableEq

def SqlErr.text (quote : Bytes → Bytes) : SqlErr → Bytes
  | .parse rest => lit "parse: unexpected trailing input: " ++ quote rest
  | .unknownStatement rest => lit "unknown statement at: " ++ quote rest
  | .tableNotFound table => lit "table not found: " ++ table
  | .db e => e.text

/-- What `Execute` returns without an error. -/
inductive Output where
  | nothing
  | records (rows : List Record)
  | text (s : String)
  | explain (stmt : QLSelect)

/-- A call's outcome and the database it leaves. -/
abbrev Run (σ α : Type) := Except Fault (Except SqlErr α) × DB σ

-- ====================================================== evaluation

/-- Numbers, strings and identifiers have a value; anything else is the
value without a type. -/
def evalNode (n : QLNode) : Value :=
  match n.type with
  | .i64 => { type := typeInt64, i64 := n.i64 }
  | .str => { type := typeBytes, str := n.str }
  | .ident => { type := typeBytes, str := n.str }
  | _ => {}

def evalNodes (nodes : List QLNode) : List Value := nodes.map evalNode

def sqlTypeToColType : QLType → ColType
  | .i64 => .tInt64
  | .str => .tBytes
  | .and => .tBool
  | .float => .tFloat64
  | _ => .tBytes

-- ====================================================== aggregates

/-- The names that `isAggregate` looks for. -/
def aggregateNames : List Bytes :=
  [lit "count", lit "sum", lit "avg", lit "min", lit "max"]

def isAggregate (stmt : QLSelect) : Bool :=
  stmt.output.any fun o => o.type = .func && aggregateNames.contains o.str

/-- A record's columns with their values, as far as there are both. -/
def cells (rows : List Record) : List (Bytes × Value) :=
  rows.flatMap fun r => r.cols.zip r.vals

def aggregateSum (col : Bytes) (rows : List Record) : Value :=
  { type := typeInt64
    i64 := (cells rows).foldl
      (fun sum c => if c.1 = col ∧ c.2.type = typeInt64 then sum + c.2.i64 else sum) 0 }

/-- Values without an order of their own compare as equal. -/
def valCompare (a b : Value) : Int :=
  if a.type ≠ b.type then (a.type.toNat : Int) - b.type.toNat
  else if a.type = typeInt64 then
    if a.i64 < b.i64 then -1 else if b.i64 < a.i64 then 1 else 0
  else if a.type = typeBytes then
    if a.str < b.str then -1 else if b.str < a.str then 1 else 0
  else 0

/-- One round of the loop of `aggregateMinMax`; `none` is `first`. -/
def betterOf (col : Bytes) (dir : Int) (best : Option Value) (c : Bytes × Value) :
    Option Value :=
  if c.1 = col then
    match best with
    | none => some c.2
    | some b =>
        if (dir < 0 ∧ valCompare c.2 b < 0) ∨ (0 < dir ∧ 0 < valCompare c.2 b) then some c.2
        else some b
  else best

def aggregateMinMax (col : Bytes) (rows : List Record) (dir : Int) : Value :=
  if rows = [] then {} else ((cells rows).foldl (betterOf col dir) none).getD {}

/-- What one output adds to the aggregated record. -/
def aggregateOutput (rows : List Record) (o : QLNode) :
    Except Fault (List (Bytes × Value)) :=
  if o.type ≠ .func then .ok []
  else
    match o.kids with
    | [] => .error .index
    | kid :: _ =>
        let col := kid.str
        let named (value : Value) := [(o.str ++ lit "(" ++ col ++ lit ")", value)]
        if o.str = lit "count" then
          .ok [(lit "count", { type := typeInt64, i64 := Int64.ofNat rows.length })]
        else if o.str = lit "sum" then .ok (named (aggregateSum col rows))
        else if o.str = lit "avg" then
          let total := aggregateSum col rows
          let avg := if 0 < rows.length then total.i64 / Int64.ofNat rows.length else 0
          .ok (named { type := typeInt64, i64 := avg })
        else if o.str = lit "min" then .ok (named (aggregateMinMax col rows (-1)))
        else if o.str = lit "max" then .ok (named (aggregateMinMax col rows 1))
        else .ok []

def computeAggregates (stmt : QLSelect) (rows : List Record) :
    Except Fault (List Record) := do
  let outputs ← stmt.output.mapM (aggregateOutput rows)
  return [{ cols := outputs.flatten.map Prod.fst, vals := outputs.flatten.map Prod.snd }]

-- ========================================================= selects

/-- The loop of `execSelect`; one counter is compared with the offset and
with the end of the window. -/
def selectLoop (tdef : TableDef) (stop : Bytes) (offset limit : Int64) :
    Int64 → List (Bytes × Bytes) → Except Fault (List Record)
  | _, [] => .ok []
  | count, e :: iter => do
      let s : Scanner := { tdef, iter := e :: iter, stop }
      if ← s.valid then
        if count < offset then selectLoop tdef stop offset limit (count + 1) iter
        else if offset + limit ≤ count then return []
        else
          let rec' ← s.record
          let rest ← selectLoop tdef stop offset limit (count + 1) iter
          return rec' :: rest
      else return []

/-- The values of a key expression: those of its operands. -/
def keyVals (key : QLNode) : List Value :=
  if key.type ≠ .unknown then evalNodes key.kids else []

variable {σ : Type} (kv : Storage σ)

/-- The records a scan selects from a table. -/
def selectRecords (tdef : TableDef) (scn : QLScan) (db : DB σ) :
    Except Fault (List Record) := do
  let s ← scan kv tdef (keyVals scn.key1) (keyVals scn.key2) 0 0 db
  selectLoop tdef s.stop scn.offset scn.limit 0 s.iter

def execSelect (stmt : QLSelect) (db : DB σ) :
    Except Fault (Except SqlErr (List Record)) :=
  match db.tableDef stmt.table with
  | none => .ok (.error (.tableNotFound stmt.table))
  | some tdef => do
      let results ← selectRecords kv tdef stmt.toQLScan db
      if isAggregate stmt then
        let rows ← computeAggregates stmt results
        return .ok rows
      else return .ok results

/-- The select that `execUpdate` and `execDelete` run. -/
def selectAll (scn : QLScan) : QLSelect :=
  { scn with names := [lit "*"], output := [{ type := .ident, str := lit "*" }] }

-- ========================================================== writes

def execCreateTable (stmt : QLCreateTable) (db : DB σ) : Run σ Unit :=
  let (err, db) := createTable
    { name := stmt.table
      cols := stmt.cols.map fun c => { name := c.name, type := sqlTypeToColType c.type }
      pkeys := stmt.pkeys.length } db
  match err with
  | none => (.ok (.ok ()), db)
  | some e => (.ok (.error (.db e)), db)

/-- The definition is shared with the table map, so appending to its
indexes changes the map's entry. -/
def execCreateIndex (stmt : QLCreateIndex) (db : DB σ) : Run σ Unit :=
  match db.tableDef stmt.table with
  | none => (.ok (.error (.tableNotFound stmt.table)), db)
  | some tdef =>
      let idx : IndexDef := { name := stmt.name, keys := stmt.keys, unique := stmt.unique }
      let tdef := { tdef with indexes := tdef.indexes ++ [idx] }
      (.ok (.ok ()),
        { db with tables := db.tables.map fun e => if e.1 = stmt.table then (e.1, tdef) else e })

/-- Whether a call on a table changed anything is dropped. -/
def dropAnswer : Except Fault Answer × DB σ → Run σ Unit
  | (.error f, db) => (.error f, db)
  | (.ok (_, none), db) => (.ok (.ok ()), db)
  | (.ok (_, some e), db) => (.ok (.error (.db e)), db)

def execInsert (stmt : QLInsert) (db : DB σ) : Run σ Unit :=
  match db.tableDef stmt.table with
  | none => (.ok (.error (.tableNotFound stmt.table)), db)
  | some _ =>
      dropAnswer (insert kv stmt.table ⟨stmt.names, evalNodes stmt.values⟩ db)

/-- A loop over the records selected: it ends at the first fault or
error. -/
def eachRecord (call : Record → DB σ → Run σ Unit) : List Record → DB σ → Run σ Unit
  | [], db => (.ok (.ok ()), db)
  | rec :: recs, db =>
      match call rec db with
      | (.ok (.ok ()), db) => eachRecord call recs db
      | failed => failed

/-- The records of the select, each handed to a call. -/
def onSelected (scn : QLScan) (call : Record → DB σ → Run σ Unit) (db : DB σ) :
    Run σ Unit :=
  match db.tableDef scn.table with
  | none => (.ok (.error (.tableNotFound scn.table)), db)
  | some _ =>
      match execSelect kv (selectAll scn) db with
      | .error f => (.error f, db)
      | .ok (.error e) => (.ok (.error e), db)
      | .ok (.ok recs) => eachRecord call recs db

/-- The assignments of an UPDATE, from the `i`-th on: each goes to the
place of the first column with its name. -/
def assign (values : List QLNode) (cols : List Bytes) :
    Nat → List Bytes → List Value → Except Fault (List Value)
  | _, [], vals => .ok vals
  | i, name :: names, vals =>
      match cols.findIdx? fun c => c = name with
      | none => assign values cols (i + 1) names vals
      | some j =>
          match values[i]? with
          | none => .error .index
          | some value =>
              if j < vals.length then
                assign values cols (i + 1) names (vals.set j (evalNode value))
              else .error .index

/-- The body of the loop of `execUpdate`. -/
def updateRecord (stmt : QLUpdate) (rec : Record) (db : DB σ) : Run σ Unit :=
  match assign stmt.values rec.cols 0 stmt.names rec.vals with
  | .error f => (.error f, db)
  | .ok vals => dropAnswer (update kv stmt.table ⟨rec.cols, vals⟩ db)

def execUpdate (stmt : QLUpdate) (db : DB σ) : Run σ Unit :=
  onSelected kv stmt.toQLScan (updateRecord kv stmt) db

def execDelete (stmt : QLDelete) (db : DB σ) : Run σ Unit :=
  onSelected kv stmt.toQLScan (fun rec db => dropAnswer (delete kv stmt.table rec db)) db

-- ======================================================= execution

/-- The `nil` result of a statement that only reports an error. -/
def withoutResult : Run σ Unit → Run σ Output
  | (r, db) => (r.map fun r => r.map fun _ => .nothing, db)

/-- A select leaves the database as it is. -/
def asRecords (r : Except Fault (Except SqlErr (List Record))) (db : DB σ) : Run σ Output :=
  (r.map fun r => r.map .records, db)

def execute (ast : Stmt) (db : DB σ) : Run σ Output :=
  match ast with
  | .createTable stmt => withoutResult (execCreateTable stmt db)
  | .createIndex stmt => withoutResult (execCreateIndex stmt db)
  | .insert stmt => withoutResult (execInsert kv stmt db)
  | .select stmt => asRecords (execSelect kv stmt db) db
  | .update stmt => withoutResult (execUpdate kv stmt db)
  | .delete stmt => withoutResult (execDelete kv stmt db)
  | .text s => (.ok (.ok (.text s)), db)
  | .explain stmt => (.ok (.ok (.explain stmt)), db)
  | .unknown rest => (.ok (.error (.unknownStatement rest)), db)

def executeRaw (input : Bytes) (db : DB σ) : Run σ Output :=
  match parse input with
  | .error f => (.error f, db)
  | .ok (.error rest) => (.ok (.error (.parse rest)), db)
  | .ok (.ok ast) => execute kv ast db

/-- The database after texts have been executed one after the other. -/
def afterTexts (texts : List Bytes) (db : DB σ) : DB σ :=
  texts.foldl (fun db input => (executeRaw kv input db).2) db

end Svacara.Sql
