/-
`internal/shard/shard.go`: several stores behind one interface.

# The state

`Open` builds a DB around one store, `OpenSharded` one around a list of
them, and no method changes which it is, so a DB is one or the other. The
number of shards and the key column of the configuration are read by no
method.

# Placement

The strategy is an int, so there is a default case. The hash is a
parameter here: of CRC-32 nothing matters but that it is a function of
the key. A shard number that is no index of the list, which a range bound
may carry, faults as the slice does; a hash modulo zero shards panics.
-/
import Svacara.Kvstore.Storage
import Svacara.Lib.Outcome

namespace Svacara.Shard

open Kvstore

abbrev ShardStrategy := Int

def hashShard : ShardStrategy := 1
def rangeShard : ShardStrategy := 2

structure RangeBound where
  start : Bytes
  stop : Bytes
  shard : Int

structure ShardConfig where
  strategy : ShardStrategy
  ranges : List RangeBound := []

inductive DB (σ : Type) where
  | single (kv : σ)
  | sharded (shards : List σ) (config : ShardConfig)

section

variable {σ : Type} (crc : Bytes → UInt32) (kv : Storage σ)

/-- `shardForKey` among `n` shards. -/
def shardForKey (n : Nat) (config : ShardConfig) (key : Bytes) : Except Fault Int :=
  if config.strategy = hashShard then
    if n = 0 then .error (.panic "integer divide by zero")
    else .ok ((crc key).toNat % n : Nat)
  else if config.strategy = rangeShard then
    match config.ranges.find? fun r => r.start ≤ key && key ≤ r.stop with
    | some r => .ok r.shard
    | none => .ok (n - 1)
  else .ok 0

/-- The place of a key: an index of the list and the shard there. -/
def place (shards : List σ) (config : ShardConfig) (key : Bytes) :
    Except Fault (Nat × σ) := do
  let i ← shardForKey crc shards.length config key
  if i < 0 then .error .index
  else
    match shards[i.toNat]? with
    | none => .error .index
    | some s => return (i.toNat, s)

def DB.get (db : DB σ) (key : Bytes) : Except Fault (Option Bytes) :=
  match db with
  | .single s => .ok (kv.get s key)
  | .sharded shards config => do
      let (_, s) ← place crc shards config key
      return kv.get s key

def DB.set (db : DB σ) (key val : Bytes) : Except Fault (Option String × DB σ) :=
  match db with
  | .single s =>
      let (err, s) := kv.set s key val
      .ok (err, .single s)
  | .sharded shards config => do
      let (i, s) ← place crc shards config key
      let (err, s) := kv.set s key val
      return (err, .sharded (shards.set i s) config)

def DB.del (db : DB σ) (key : Bytes) : Except Fault ((Bool × Option String) × DB σ) :=
  match db with
  | .single s =>
      let (res, s) := kv.del s key
      .ok (res, .single s)
  | .sharded shards config => do
      let (i, s) ← place crc shards config key
      let (res, s) := kv.del s key
      return (res, .sharded (shards.set i s) config)

/-- The iterator of the shard the key itself belongs to. -/
def DB.seek (db : DB σ) (key : Bytes) : Except Fault (List (Bytes × Bytes)) :=
  match db with
  | .single s => .ok (kv.seek s key)
  | .sharded shards config => do
      let (_, s) ← place crc shards config key
      return kv.seek s key

-- ============================================================ runs

/-- A call of the interface. -/
inductive Call where
  | get (key : Bytes)
  | set (key val : Bytes)
  | del (key : Bytes)
  | seek (key : Bytes)

/-- What it returns; an iterator is what it visits. -/
inductive Answer where
  | got (val : Option Bytes)
  | set (err : Option String)
  | deleted (res : Bool × Option String)
  | visited (entries : List (Bytes × Bytes))
  deriving DecidableEq

def DB.call (db : DB σ) : Call → Except Fault (Answer × DB σ)
  | .get key => do
      let val ← db.get crc kv key
      return (.got val, db)
  | .set key val => do
      let (err, db) ← db.set crc kv key val
      return (.set err, db)
  | .del key => do
      let (res, db) ← db.del crc kv key
      return (.deleted res, db)
  | .seek key => do
      let entries ← db.seek crc kv key
      return (.visited entries, db)

def DB.answers : DB σ → List Call → Except Fault (List Answer)
  | _, [] => .ok []
  | db, c :: calls => do
      let (a, db) ← db.call crc kv c
      let as ← DB.answers db calls
      return a :: as

end

section

variable {σ : Type} (kv : Storage σ)

/-- The same call on a single store. -/
def storeCall (s : σ) : Call → Answer × σ
  | .get key => (.got (kv.get s key), s)
  | .set key val =>
      let (err, s) := kv.set s key val
      (.set err, s)
  | .del key =>
      let (res, s) := kv.del s key
      (.deleted res, s)
  | .seek key => (.visited (kv.seek s key), s)

def storeAnswers : σ → List Call → List Answer
  | _, [] => []
  | s, c :: calls =>
      let (a, s) := storeCall kv s c
      a :: storeAnswers s calls

end

end Svacara.Shard
