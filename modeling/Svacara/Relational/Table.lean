/-
`internal/relational/table.go`: tables over a store.

# State and outcome

A `DB` is the store's state and the table definitions by name. A call
returns how it ended, a fault or its results, together with the database
it leaves, so that what a call wrote before it panicked is not lost.
`Get` fills in the record it is given; here it returns the new one.

# Keys

A row is one entry: its key is the table's prefix and the key columns,
its value the other columns. An index entry has the index's own prefix
and the indexed columns as its key, and the row's key columns as its
value. Every prefix is a 32-bit hash of a name.
-/
import Svacara.Relational.Types
import Svacara.Kvstore.Storage
import Svacara.Btree.Node

namespace Svacara.Relational

open Kvstore Buf

-- ========================================================== tables

structure DB (σ : Type) where
  kv : σ
  tables : List (Bytes × TableDef)

/-- What Insert, Update and Delete return. -/
abbrev Answer := Bool × Option DbErr

variable {σ : Type}

def openDB (kv : σ) : DB σ := { kv, tables := [] }

def DB.tableDef (db : DB σ) (name : Bytes) : Option TableDef := db.tables.lookup name

/-- The multiplicative string hash, modulo 2^32. -/
def hashTableName (name : Bytes) : UInt32 :=
  name.foldl (fun h c => ((h <<< 5) + h) + c.toUInt32) 5381

def createTable (tdef : TableDef) (db : DB σ) : Option DbErr × DB σ :=
  if (db.tableDef tdef.name).isSome then (some (.tableExists tdef.name), db)
  else if tdef.pkeys < 1 then (some .noPrimaryKey, db)
  else
    let tdef := { tdef with pfx := hashTableName tdef.name }
    (none, { db with tables := (tdef.name, tdef) :: db.tables })

-- ========================================================= indexes

def indexPrefix (tdef : TableDef) (idx : IndexDef) : UInt32 :=
  hashTableName (tdef.name ++ lit "_" ++ idx.name)

/-- The loop of `indexKeyVals`; a name that no column has is passed
over. -/
def pickCols (tdef : TableDef) (row : List Value) :
    List Bytes → Except Fault (List Value)
  | [] => .ok []
  | k :: keys =>
      match tdef.colIndex k with
      | none => pickCols tdef row keys
      | some j => do
          let v ← valAt row j
          let vals ← pickCols tdef row keys
          return v :: vals

def indexKeyVals (tdef : TableDef) (idx : IndexDef) (row : List Value) :
    Except Fault (List Value) :=
  pickCols tdef row idx.keys

def indexKey (tdef : TableDef) (idx : IndexDef) (row : List Value) :
    Except Fault Bytes := do
  let vals ← indexKeyVals tdef idx row
  encodeKey [] (indexPrefix tdef idx) vals

/-- The entry that `updateIndex` writes. -/
def indexEntry (tdef : TableDef) (idx : IndexDef) (vals : List Value) :
    Except Fault (Bytes × Bytes) := do
  let ikey ← indexKey tdef idx vals
  let pk ← firstVals vals tdef.pkeys
  let ival ← encodeValues [] pk
  return (ikey, ival)

variable (kv : Storage σ)

def updateIndex (tdef : TableDef) (idx : IndexDef) (vals : List Value) (db : DB σ) :
    Except Fault (Option DbErr) × DB σ :=
  match indexEntry tdef idx vals with
  | .error f => (.error f, db)
  | .ok (ikey, ival) =>
      let (err, s) := kv.set db.kv ikey ival
      (.ok (err.map .storage), { db with kv := s })

def deleteIndex (tdef : TableDef) (idx : IndexDef) (vals : List Value) (db : DB σ) :
    Except Fault (Option DbErr) × DB σ :=
  match indexKey tdef idx vals with
  | .error f => (.error f, db)
  | .ok ikey =>
      let ((_, err), s) := kv.del db.kv ikey
      (.ok (err.map .storage), { db with kv := s })

/-- The loop over the indexes of a table: it ends at the first fault or
error. -/
def eachIndex (call : IndexDef → DB σ → Except Fault (Option DbErr) × DB σ) :
    List IndexDef → DB σ → Except Fault Answer × DB σ
  | [], db => (.ok (true, none), db)
  | idx :: rest, db =>
      match call idx db with
      | (.error f, db) => (.error f, db)
      | (.ok (some e), db) => (.ok (false, some e), db)
      | (.ok none, db) => eachIndex call rest db

-- ============================================================ rows

/-- The entry of a row: `EncodeKey(prefix, vals[:PKeys])` and
`EncodeValues(vals[PKeys:])`. -/
def rowEntry (tdef : TableDef) (vals : List Value) : Except Fault (Bytes × Bytes) := do
  let pk ← firstVals vals tdef.pkeys
  let key ← encodeKey [] tdef.pfx pk
  let val ← encodeValues [] (vals.drop tdef.pkeys)
  return (key, val)

/-- Mode 0 is an insert, any other an update. -/
def dbUpdate (tdef : TableDef) (rec : Record) (mode : Nat) (db : DB σ) :
    Except Fault Answer × DB σ :=
  match checkRecord tdef rec tdef.cols.length with
  | .error f => (.error f, db)
  | .ok (.error e) => (.ok (false, some e), db)
  | .ok (.ok vals) =>
      match rowEntry tdef vals with
      | .error f => (.error f, db)
      | .ok (key, val) =>
          if mode = 0 ∧ (kv.get db.kv key).isSome then (.ok (false, none), db)
          else
            match kv.set db.kv key val with
            | (some msg, s) => (.ok (false, some (.storage msg)), { db with kv := s })
            | (none, s) =>
                eachIndex (fun idx => updateIndex kv tdef idx vals) tdef.indexes
                  { db with kv := s }

/-- `copy(dst, src)`. -/
def copyVals (dst src : List Value) : List Value :=
  src.take dst.length ++ dst.drop src.length

/-- The row that `dbDelete` hands to `deleteIndex`: the key columns, zero
values up to the number of columns, and behind them the decoded others. -/
def oldRow (tdef : TableDef) (vals : List Value) (oldVal : Bytes) :
    Except Fault (List Value) :=
  decodeValues oldVal (copyVals (List.replicate tdef.cols.length {}) vals)

def dbDelete (tdef : TableDef) (rec : Record) (db : DB σ) :
    Except Fault Answer × DB σ :=
  match checkRecord tdef rec tdef.pkeys with
  | .error f => (.error f, db)
  | .ok (.error e) => (.ok (false, some e), db)
  | .ok (.ok vals) =>
      match encodeKey [] tdef.pfx vals with
      | .error f => (.error f, db)
      | .ok key =>
          match kv.get db.kv key with
          | none => (.ok (false, none), db)
          | some oldVal =>
              match kv.del db.kv key with
              | ((_, some msg), s) =>
                  (.ok (false, some (.storage msg)), { db with kv := s })
              | ((false, none), s) => (.ok (false, none), { db with kv := s })
              | ((true, none), s) =>
                  if tdef.indexes = [] then (.ok (true, none), { db with kv := s })
                  else
                    match oldRow tdef vals oldVal with
                    | .error f => (.error f, { db with kv := s })
                    | .ok oldVals =>
                        eachIndex (fun idx => deleteIndex kv tdef idx oldVals)
                          tdef.indexes { db with kv := s }

/-- The names of a table's columns. -/
def TableDef.colNames (tdef : TableDef) : List Bytes := tdef.cols.map (·.name)

/-- The record filled in, if the row is there. -/
def dbGet (tdef : TableDef) (rec : Record) (db : DB σ) :
    Except Fault (Except DbErr (Option Record)) := do
  match ← checkRecord tdef rec tdef.pkeys with
  | .error e => return .error e
  | .ok vals =>
      let key ← encodeKey [] tdef.pfx vals
      match kv.get db.kv key with
      | none => return .ok none
      | some val =>
          let vals ← decodeValues val []
          return .ok (some { cols := tdef.colNames, vals })

-- =========================================================== calls

/-- A method that names its table. -/
def onTable (table : Bytes) (db : DB σ)
    (call : TableDef → Except Fault Answer × DB σ) : Except Fault Answer × DB σ :=
  match db.tableDef table with
  | none => (.ok (false, some (.tableNotFound table)), db)
  | some tdef => call tdef

def insert (table : Bytes) (rec : Record) (db : DB σ) : Except Fault Answer × DB σ :=
  onTable table db fun tdef => dbUpdate kv tdef rec 0 db

def update (table : Bytes) (rec : Record) (db : DB σ) : Except Fault Answer × DB σ :=
  onTable table db fun tdef => dbUpdate kv tdef rec 1 db

def delete (table : Bytes) (rec : Record) (db : DB σ) : Except Fault Answer × DB σ :=
  onTable table db fun tdef => dbDelete kv tdef rec db

def get (table : Bytes) (rec : Record) (db : DB σ) :
    Except Fault (Except DbErr (Option Record)) :=
  match db.tableDef table with
  | none => .ok (.error (.tableNotFound table))
  | some tdef => dbGet kv tdef rec db

-- =========================================================== scans

/-- The iterator and where to stop; an empty `stop` is none. -/
structure Scanner where
  tdef : TableDef
  iter : List (Bytes × Bytes)
  stop : Bytes

def scan (tdef : TableDef) (start stop : List Value) (cmp1 cmp2 : Int) (db : DB σ) :
    Except Fault Scanner := do
  let key1 ← if start ≠ [] then encodeKeyPartial [] tdef.pfx start cmp1
    else encodeKey [] tdef.pfx []
  let key2 ← if stop ≠ [] then encodeKeyPartial [] tdef.pfx stop cmp2 else .ok []
  return { tdef, iter := kv.seek db.kv key1, stop := key2 }

/-- `binary.BigEndian.Uint32(key[:4])`. Of a key shorter than that the
source reslices into the page behind it; every key that a table writes
has the four bytes of its prefix. -/
def keyPrefix (key : Bytes) : Except Fault UInt32 :=
  if 4 ≤ key.length then .ok (UInt32.ofNat (beNat (key.take 4))) else .error .index

def Scanner.valid (s : Scanner) : Except Fault Bool :=
  match s.iter with
  | [] => .ok false
  | (key, _) :: _ =>
      if s.stop ≠ [] ∧ 0 < Btree.compareKeys key s.stop then .ok false
      else do
        let p ← keyPrefix key
        return p = s.tdef.pfx

def Scanner.next (s : Scanner) : Except Fault Scanner :=
  match s.iter with
  | [] => .error .index
  | _ :: iter => .ok { s with iter }

def Scanner.record (s : Scanner) : Except Fault Record :=
  match s.iter with
  | [] => .error .index
  | (_, val) :: _ => do
      let vals ← decodeValues val []
      return { cols := s.tdef.colNames, vals }

/-- The entries a scanner stands on from here until it is not valid. -/
def Scanner.walk (tdef : TableDef) (stop : Bytes) :
    List (Bytes × Bytes) → Except Fault (List (Bytes × Bytes))
  | [] => .ok []
  | e :: iter => do
      if ← Scanner.valid { tdef, iter := e :: iter, stop } then
        let rest ← walk tdef stop iter
        return e :: rest
      else return []

def Scanner.visited (s : Scanner) : Except Fault (List (Bytes × Bytes)) :=
  Scanner.walk s.tdef s.stop s.iter

/-- The records that a scanner yields from here until it is not valid. -/
def Scanner.collect (tdef : TableDef) (stop : Bytes) :
    List (Bytes × Bytes) → Except Fault (List Record)
  | [] => .ok []
  | e :: iter => do
      let s : Scanner := { tdef, iter := e :: iter, stop }
      if ← s.valid then
        let rec' ← s.record
        let rest ← collect tdef stop iter
        return rec' :: rest
      else return []

def Scanner.rows (s : Scanner) : Except Fault (List Record) :=
  Scanner.collect s.tdef s.stop s.iter

end Svacara.Relational
