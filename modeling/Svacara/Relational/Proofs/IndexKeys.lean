/-
The index entries of a row, and the loop that writes or deletes them.

On a row with a value for each column the index loop of a write sets one
key per index, all to the row's key columns (`updateIndexes`), and that
of a delete unsets one key per index (`deleteIndexes`). What a list of
such operations does to the store is said once, over the list of keys
(`get_setAll`, `get_delAll`). With that a write is known as a whole
(`dbUpdate_written`), and a delete up to the row it rebuilds (`dropRow`).
-/
import Svacara.Relational.Proofs.Layout

namespace Svacara.Relational

open Kvstore Buf Outcome

variable {σ : Type} {kv : Storage σ} {tdef : TableDef}

-- ======================================================= many keys

/-- Set the keys one after the other to one value. -/
def setAll (kv : Storage σ) (v : Bytes) (keys : List Bytes) (s : σ) : σ :=
  keys.foldl (fun s k => (kv.set s k v).2) s

/-- Delete the keys one after the other. -/
def delAll (kv : Storage σ) (keys : List Bytes) (s : σ) : σ :=
  keys.foldl (fun s k => (kv.del s k).2) s

theorem get_setAll (hkv : kv.IsMap) (v : Bytes) (keys : List Bytes) (s : σ) (k : Bytes) :
    kv.get (setAll kv v keys s) k = if k ∈ keys then some v else kv.get s k := by
  induction keys generalizing s with
  | nil => simp [setAll]
  | cons k' keys ih =>
      show kv.get (setAll kv v keys (kv.set s k' v).2) k = _
      rw [ih]
      by_cases hk : k = k'
      · subst hk
        simp [hkv.get_set]
      · simp [hk, hkv.get_set_of_ne _ _ _ _ hk]

theorem get_delAll (hkv : kv.IsMap) (keys : List Bytes) (s : σ) (k : Bytes) :
    kv.get (delAll kv keys s) k = if k ∈ keys then none else kv.get s k := by
  induction keys generalizing s with
  | nil => simp [delAll]
  | cons k' keys ih =>
      show kv.get (delAll kv keys (kv.del s k').2) k = _
      rw [ih]
      by_cases hk : k = k'
      · subst hk
        simp [hkv.get_del]
      · simp [hk, hkv.get_del_of_ne _ _ _ hk]

-- ============================================= the indexed columns

/-- How many of an index's columns the table has. -/
def indexWidth (tdef : TableDef) (idx : IndexDef) : Nat :=
  (idx.keys.filterMap tdef.colIndex).length

/-- The indexed columns of a row. -/
def picked (tdef : TableDef) (idx : IndexDef) (row : List Value) : List Value :=
  idx.keys.filterMap fun k => (tdef.colIndex k).bind fun j => row[j]?

/-- The key of a row's index entry. -/
def indexKeyOf (tdef : TableDef) (row : List Value) (idx : IndexDef) : Bytes :=
  keyCode (indexPrefix tdef idx) (picked tdef idx row)

theorem colIndex_lt {col : Bytes} {j : Nat} (h : tdef.colIndex col = some j) :
    j < tdef.cols.length :=
  (List.findIdx?_eq_some_iff_findIdx_eq.mp h).1

theorem pickCols_length {row : List Value} {keys : List Bytes} {vals : List Value}
    (h : pickCols tdef row keys = .ok vals) :
    vals.length = (keys.filterMap tdef.colIndex).length := by
  induction keys generalizing vals with
  | nil =>
      cases h
      rfl
  | cons k keys ih =>
      unfold pickCols at h
      cases hk : tdef.colIndex k with
      | none =>
          rw [hk] at h
          rw [List.filterMap_cons_none hk]
          exact ih h
      | some j =>
          rw [hk] at h
          obtain ⟨v, -, h⟩ := bind_eq_ok.mp h
          obtain ⟨vs, hvs, h⟩ := bind_eq_ok.mp h
          cases h
          rw [List.filterMap_cons_some hk, List.length_cons, List.length_cons, ih hvs]

theorem pickCols_eq {row : List Value} (hrow : tdef.cols.length ≤ row.length)
    (keys : List Bytes) :
    pickCols tdef row keys
      = .ok (keys.filterMap fun k => (tdef.colIndex k).bind fun j => row[j]?) := by
  induction keys with
  | nil => rfl
  | cons k keys ih =>
      unfold pickCols
      cases hk : tdef.colIndex k with
      | none => simp [hk, ih]
      | some j =>
          have hj : j < row.length := lt_of_lt_of_le (colIndex_lt hk) hrow
          simp [hk, ih, valAt, List.getElem?_eq_getElem hj]

theorem length_picked (idx : IndexDef) {row : List Value}
    (hrow : tdef.cols.length ≤ row.length) :
    (picked tdef idx row).length = indexWidth tdef idx :=
  pickCols_length (pickCols_eq hrow idx.keys)

theorem mem_picked {idx : IndexDef} {row : List Value} {v : Value}
    (h : v ∈ picked tdef idx row) : v ∈ row := by
  obtain ⟨k, -, hk⟩ := List.mem_filterMap.mp h
  obtain ⟨j, -, hj⟩ := Option.bind_eq_some_iff.mp hk
  exact List.mem_of_getElem? hj

theorem indexKey_eq {row : List Value} (hrow : tdef.cols.length ≤ row.length)
    {idx : IndexDef} (htyped : ∀ v ∈ picked tdef idx row, v.Typed) :
    indexKey tdef idx row = .ok (indexKeyOf tdef row idx) := by
  unfold indexKey indexKeyVals
  rw [pickCols_eq hrow]
  exact encodeKey_typed _ htyped

-- ======================================================= the loops

theorem updateIndex_eq (hkv : kv.IsMap) {row : List Value}
    (hrow : row.length = tdef.cols.length) (htyped : ∀ v ∈ row, v.Typed)
    (hkeys : tdef.pkeys ≤ tdef.cols.length) (idx : IndexDef) (db : DB σ) :
    updateIndex kv tdef idx row db = (.ok none, { db with
      kv := (kv.set db.kv (indexKeyOf tdef row idx) (codes (row.take tdef.pkeys))).2 }) := by
  have hentry : indexEntry tdef idx row
      = .ok (indexKeyOf tdef row idx, codes (row.take tdef.pkeys)) := by
    unfold indexEntry
    rw [indexKey_eq hrow.ge fun v hv => htyped v (mem_picked hv), ok_bind,
      firstVals_ok (by omega), ok_bind,
      encodeValues_typed fun v hv => htyped v (List.mem_of_mem_take hv)]
    rfl
  unfold updateIndex
  simp [hentry, hkv.set_ok]

theorem deleteIndex_eq (hkv : kv.IsMap) {row : List Value}
    (hrow : tdef.cols.length ≤ row.length) {idx : IndexDef}
    (htyped : ∀ v ∈ picked tdef idx row, v.Typed) (db : DB σ) :
    deleteIndex kv tdef idx row db
      = (.ok none, { db with kv := (kv.del db.kv (indexKeyOf tdef row idx)).2 }) := by
  unfold deleteIndex
  simp [indexKey_eq hrow htyped, hkv.del_ok]

/-- A write sets the key of each index to the row's key columns. -/
theorem updateIndexes (hkv : kv.IsMap) {row : List Value}
    (hrow : row.length = tdef.cols.length) (htyped : ∀ v ∈ row, v.Typed)
    (hkeys : tdef.pkeys ≤ tdef.cols.length) (indexes : List IndexDef) (db : DB σ) :
    eachIndex (fun idx => updateIndex kv tdef idx row) indexes db
      = (.ok (true, none), { db with
          kv := setAll kv (codes (row.take tdef.pkeys))
            (indexes.map (indexKeyOf tdef row)) db.kv }) := by
  induction indexes generalizing db with
  | nil => rfl
  | cons idx indexes ih =>
      rw [eachIndex, updateIndex_eq hkv hrow htyped hkeys]
      exact ih _

/-- A delete unsets the key of each index. -/
theorem deleteIndexes (hkv : kv.IsMap) {row : List Value}
    (hrow : tdef.cols.length ≤ row.length) {indexes : List IndexDef}
    (htyped : ∀ idx ∈ indexes, ∀ v ∈ picked tdef idx row, v.Typed) (db : DB σ) :
    eachIndex (fun idx => deleteIndex kv tdef idx row) indexes db
      = (.ok (true, none), { db with
          kv := delAll kv (indexes.map (indexKeyOf tdef row)) db.kv }) := by
  induction indexes generalizing db with
  | nil => rfl
  | cons idx indexes ih =>
      obtain ⟨hidx, hrest⟩ := List.forall_mem_cons.mp htyped
      rw [eachIndex, deleteIndex_eq hkv hrow hidx]
      exact ih hrest _

-- ======================================================= the calls

/-- The store behind a write of the row `vals`. -/
def written (kv : Storage σ) (tdef : TableDef) (vals : List Value) (s : σ) : σ :=
  setAll kv (codes (vals.take tdef.pkeys)) (tdef.indexes.map (indexKeyOf tdef vals))
    (kv.set s (rowKey tdef vals) (codes (vals.drop tdef.pkeys))).2

theorem dbUpdate_written (hkv : kv.IsMap) {rec : Record} {vals : List Value}
    (h : Lays tdef rec vals) (htyped : ∀ v ∈ vals, v.Typed)
    (hkeys : tdef.pkeys ≤ tdef.cols.length) (db : DB σ) (mode : Nat)
    (hnew : ¬ (mode = 0 ∧ (kv.get db.kv (rowKey tdef vals)).isSome)) :
    dbUpdate kv tdef rec mode db
      = (.ok (true, none), { db with kv := written kv tdef vals db.kv }) := by
  rw [dbUpdate_writes hkv h htyped hkeys db mode hnew,
    updateIndexes hkv h.length htyped hkeys]
  rfl

/-- The delete of the row `vals` with the stored value `old`. -/
def dropRow (kv : Storage σ) (tdef : TableDef) (vals : List Value) (old : Bytes) (db : DB σ) :
    Except Fault Answer × DB σ :=
  let db' := { db with kv := (kv.del db.kv (rowKey tdef vals)).2 }
  if tdef.indexes = [] then (.ok (true, none), db')
  else match oldRow tdef (vals.take tdef.pkeys) old with
    | .error f => (.error f, db')
    | .ok row => eachIndex (fun idx => deleteIndex kv tdef idx row) tdef.indexes db'

end Svacara.Relational
