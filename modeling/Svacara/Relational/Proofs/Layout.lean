/-
What `checkRecord` makes of a record, and what the calls do with it.

`Lays tdef rec vals` says that the loop of `checkRecord` lays the record
out as `vals`, one value for each column. When the values have types,
both of its callers get what they expect: the whole row for a write, the
key columns for a delete (`checkRecord_row`, `checkRecord_pk`). The three
calls are then read off once each, over any store that is a map; what
the index loop does is left to those who have indexes.
-/
import Svacara.Relational.Table
import Svacara.Kvstore.Proofs.Unique

namespace Svacara.Relational

open Kvstore Buf Outcome

variable {σ : Type} {kv : Storage σ} {tdef : TableDef} {rec : Record}

-- ====================================================== the layout

/-- The record names known columns only and is laid out as `vals`. -/
structure Lays (tdef : TableDef) (rec : Record) (vals : List Value) : Prop where
  known : ∀ col ∈ rec.cols, tdef.colIndex col ≠ none
  layout : layOut tdef rec.vals 0 rec.cols (defaults tdef) = .ok (.ok vals)

/-- The loop ends at a column the table does not have. -/
structure Refused (tdef : TableDef) (rec : Record) (col : Bytes) : Prop where
  named : col ∈ rec.cols
  unknown : tdef.colIndex col = none
  layout : layOut tdef rec.vals 0 rec.cols (defaults tdef)
    = .ok (.error (.columnNotFound col))

@[simp] theorem length_defaults (tdef : TableDef) :
    (defaults tdef).length = tdef.cols.length := by
  simp [defaults]

/-- A value at each place that is indexed, so the loop returns: at the
first name that no column has, or with the given values in place of some
of the old ones. -/
theorem layOut_returns {given : List Value} {i : Nat} {cols : List Bytes}
    (hlen : i + cols.length ≤ given.length) (vals : List Value) :
    (∃ col ∈ cols, tdef.colIndex col = none
        ∧ layOut tdef given i cols vals = .ok (.error (.columnNotFound col)))
      ∨ ∃ out, layOut tdef given i cols vals = .ok (.ok out) := by
  induction cols generalizing i vals with
  | nil => exact Or.inr ⟨vals, rfl⟩
  | cons col cols ih =>
      rw [List.length_cons] at hlen
      unfold layOut
      cases hcol : tdef.colIndex col with
      | none => exact Or.inl ⟨col, List.mem_cons_self .., hcol, rfl⟩
      | some j =>
          have hi : given[i]? = some (given.get ⟨i, by omega⟩) :=
            List.getElem?_eq_getElem (by omega)
          have hnext : i + 1 + cols.length ≤ given.length := by omega
          simp only [valAt, hi, ok_bind]
          rcases ih hnext (vals.set j (given.get ⟨i, by omega⟩)) with
            ⟨c, hc, hnone, hrun⟩ | hrun
          · exact Or.inl ⟨c, List.mem_cons_of_mem _ hc, hnone, hrun⟩
          · exact Or.inr hrun

/-- The values laid out are old ones or given ones, in as many places. -/
theorem layOut_ok {given : List Value} {i : Nat} {cols : List Bytes}
    {vals out : List Value} (h : layOut tdef given i cols vals = .ok (.ok out)) :
    out.length = vals.length ∧ (∀ v ∈ out, v ∈ vals ∨ v ∈ given)
      ∧ ∀ col ∈ cols, tdef.colIndex col ≠ none := by
  induction cols generalizing i vals with
  | nil =>
      cases h
      exact ⟨rfl, fun v hv => Or.inl hv, by simp⟩
  | cons col cols ih =>
      unfold layOut at h
      cases hcol : tdef.colIndex col with
      | none => simp [hcol] at h
      | some j =>
          rw [hcol] at h
          obtain ⟨w, hw, h⟩ := bind_eq_ok.mp h
          have hgiven : w ∈ given := by
            unfold valAt at hw
            split at hw
            · next v hv =>
                cases hw
                exact List.mem_of_getElem? hv
            · cases hw
          obtain ⟨hlen, hmem, hknown⟩ := ih h
          refine ⟨by simpa using hlen, fun v hv => ?_, ?_⟩
          · rcases hmem v hv with hset | hin
            · rcases List.mem_or_eq_of_mem_set hset with hold | rfl
              · exact Or.inl hold
              · exact Or.inr hgiven
            · exact Or.inr hin
          · exact List.forall_mem_cons.mpr ⟨by simp [hcol], hknown⟩

theorem Lays.length {vals : List Value} (h : Lays tdef rec vals) :
    vals.length = tdef.cols.length := by
  simpa using (layOut_ok h.layout).1

/-- A default comes back from its code. -/
theorem defaults_sound {v : Value} (h : v ∈ defaults tdef) : v.Sound := by
  obtain ⟨c, -, rfl⟩ := List.mem_map.mp h
  cases c.type <;> decide

theorem Lays.sound {vals : List Value} (h : Lays tdef rec vals)
    (hrec : ∀ v ∈ rec.vals, v.IsKey) : ∀ v ∈ vals, v.Sound := by
  intro v hv
  rcases (layOut_ok h.layout).2.1 v hv with hdef | hgiven
  · exact defaults_sound hdef
  · exact (hrec v hgiven).sound

/-- A record with a value for each name is laid out or refused. -/
theorem lays_or_refused (hlen : rec.cols.length = rec.vals.length) (tdef : TableDef) :
    (∃ col, Refused tdef rec col) ∨ ∃ vals, Lays tdef rec vals := by
  have hfits : 0 + rec.cols.length ≤ rec.vals.length := by omega
  rcases layOut_returns hfits (defaults tdef) with ⟨col, hcol, hnone, hrun⟩ | ⟨vals, hrun⟩
  · exact Or.inl ⟨col, hcol, hnone, hrun⟩
  · exact Or.inr ⟨vals, (layOut_ok hrun).2.2, hrun⟩

-- ===================================================== checkRecord

theorem firstVals_ok {vals : List Value} {n : Nat} (h : n ≤ vals.length) :
    firstVals vals n = .ok (vals.take n) := if_pos h

theorem valAt_ok {vals : List Value} {i : Nat} (h : i < vals.length) :
    valAt vals i = .ok (vals.get ⟨i, h⟩) := by
  simp [valAt, List.getElem?_eq_getElem h]

theorem drop_take_succ {vals : List Value} {i n : Nat} (hi : i < vals.length) :
    (vals.drop i).take (n + 1) = vals.get ⟨i, hi⟩ :: (vals.drop (i + 1)).take n := by
  rw [List.drop_eq_getElem_cons hi, List.take_succ_cons]
  rfl

/-- No key column is missing when each has a type. -/
theorem missingKey_none {vals : List Value} {i n : Nat} (hlen : i + n ≤ vals.length)
    (hvals : ∀ v ∈ (vals.drop i).take n, v.type ≠ 0) : missingKey tdef vals i n = .ok none := by
  induction n generalizing i with
  | zero => rfl
  | succ n ih =>
      have hi : i < vals.length := by omega
      rw [drop_take_succ hi, List.forall_mem_cons] at hvals
      unfold missingKey
      rw [valAt_ok hi, ok_bind, if_neg hvals.1]
      exact ih (by omega) hvals.2

/-- A key column without a type is found, also in front of the end of a
list that is too short. -/
theorem missingKey_some {vals : List Value} (hlen : vals.length = tdef.cols.length) {i n : Nat}
    (hzero : ∃ v ∈ (vals.drop i).take n, v.type = 0) :
    ∃ col, missingKey tdef vals i n = .ok (some col) := by
  induction n generalizing i with
  | zero => simp at hzero
  | succ n ih =>
      obtain ⟨v, hv, hzero⟩ := hzero
      have hi : i < vals.length := by
        by_contra hout
        rw [List.drop_of_length_le (by omega)] at hv
        simp at hv
      have hcol : tdef.cols[i]? = some (tdef.cols.get ⟨i, by omega⟩) :=
        List.getElem?_eq_getElem (by omega)
      unfold missingKey
      rw [valAt_ok hi, ok_bind]
      split
      · exact ⟨_, by rw [hcol]; rfl⟩
      · next hne =>
          rw [drop_take_succ hi] at hv
          rcases List.mem_cons.mp hv with rfl | hv
          · exact absurd hzero hne
          · exact ih ⟨v, hv, hzero⟩

/-- With more key columns than values the loop runs past the end. -/
theorem missingKey_short {vals : List Value} (hvals : ∀ v ∈ vals, v.type ≠ 0) :
    ∀ {i n : Nat}, i ≤ vals.length → vals.length < i + n →
      missingKey tdef vals i n = .error .index := by
  intro i n
  induction n generalizing i with
  | zero => omega
  | succ n ih =>
      intro hle hlt
      unfold missingKey
      by_cases hi : i < vals.length
      · rw [valAt_ok hi, ok_bind, if_neg (hvals _ (List.get_mem ..))]
        exact ih (by omega) (by omega)
      · simp [valAt, List.getElem?_eq_none (show vals.length ≤ i by omega)]

theorem type_ne_zero {v : Value} (hv : v.Typed) : v.type ≠ 0 := by
  rcases hv with (h | h | h) | h <;> rw [h] <;> decide

theorem checkRecord_refused {col : Bytes} (h : Refused tdef rec col) (n : Nat) :
    checkRecord tdef rec n = .ok (.error (.columnNotFound col)) := by
  unfold checkRecord
  rw [h.layout]
  rfl

/-- A write gets the whole row, if no key column is missing; where every
column is a key that is not looked at. -/
theorem checkRecord_whole {vals : List Value} (h : Lays tdef rec vals)
    (hkeys : tdef.pkeys ≤ tdef.cols.length)
    (hpk : tdef.pkeys = tdef.cols.length ∨ ∀ v ∈ vals.take tdef.pkeys, v.type ≠ 0) :
    checkRecord tdef rec tdef.cols.length = .ok (.ok vals) := by
  have hlen := h.length
  unfold checkRecord
  rw [h.layout, ok_bind]
  dsimp only
  split
  · rw [firstVals_ok (by omega), List.take_of_length_le (by omega)]
    rfl
  · next hne =>
      rw [missingKey_none (by omega) (hpk.resolve_left fun heq => hne heq.symm)]
      rfl

theorem checkRecord_row {vals : List Value} (h : Lays tdef rec vals)
    (hvals : ∀ v ∈ vals, v.Typed) (hkeys : tdef.pkeys ≤ tdef.cols.length) :
    checkRecord tdef rec tdef.cols.length = .ok (.ok vals) :=
  checkRecord_whole h hkeys
    (Or.inr fun v hv => type_ne_zero (hvals v (List.mem_of_mem_take hv)))

/-- A missing key column is an error. -/
theorem checkRecord_missing {vals : List Value} (h : Lays tdef rec vals)
    (hne : tdef.pkeys ≠ tdef.cols.length) (hzero : ∃ v ∈ vals.take tdef.pkeys, v.type = 0) :
    ∃ e, checkRecord tdef rec tdef.cols.length = .ok (.error e) := by
  obtain ⟨col, hcol⟩ := missingKey_some (i := 0) h.length hzero
  unfold checkRecord
  rw [h.layout, ok_bind]
  dsimp only
  rw [if_neg hne.symm, hcol]
  exact ⟨_, rfl⟩

/-- A delete and a read get the key columns. -/
theorem checkRecord_pk {vals : List Value} (h : Lays tdef rec vals)
    (hkeys : tdef.pkeys ≤ tdef.cols.length) :
    checkRecord tdef rec tdef.pkeys = .ok (.ok (vals.take tdef.pkeys)) := by
  have hlen := h.length
  unfold checkRecord
  rw [h.layout, ok_bind]
  dsimp only
  rw [if_pos rfl, firstVals_ok (by omega)]
  rfl

/-- A table with more key columns than columns takes no row. -/
theorem checkRecord_short {vals : List Value} (h : Lays tdef rec vals)
    (hvals : ∀ v ∈ vals, v.Typed) (hkeys : tdef.cols.length < tdef.pkeys) (n : Nat) :
    checkRecord tdef rec n = .error .index := by
  have hlen := h.length
  unfold checkRecord
  rw [h.layout, ok_bind]
  dsimp only
  split
  · rw [firstVals, if_neg (by omega)]
    rfl
  · rw [missingKey_short (fun v hv => type_ne_zero (hvals v hv)) (by omega) (by omega)]
    rfl

theorem firstVals_inv {vals out : List Value} {n : Nat} (h : firstVals vals n = .ok out) :
    n ≤ vals.length ∧ out = vals.take n := by
  unfold firstVals at h
  split at h
  · next hle =>
      cases h
      exact ⟨hle, rfl⟩
  · cases h

/-- How many values `checkRecord` returns. -/
theorem checkRecord_length {rec : Record} {n : Nat} {vals : List Value}
    (h : checkRecord tdef rec n = .ok (.ok vals)) :
    if n = tdef.pkeys then tdef.pkeys ≤ tdef.cols.length ∧ vals.length = tdef.pkeys
    else vals.length = tdef.cols.length := by
  unfold checkRecord at h
  obtain ⟨r, hr, h⟩ := bind_eq_ok.mp h
  cases r with
  | error e => cases h
  | ok row =>
      have hrow : row.length = tdef.cols.length := by
        simpa using (layOut_ok hr).1
      dsimp only at h
      split at h
      · next hn =>
          obtain ⟨out, hout, h⟩ := bind_eq_ok.mp h
          cases h
          obtain ⟨hle, rfl⟩ := firstVals_inv hout
          rw [if_pos hn]
          exact ⟨by omega, by simpa using hle⟩
      · next hn =>
          obtain ⟨m, -, h⟩ := bind_eq_ok.mp h
          rw [if_neg hn]
          cases m with
          | none =>
              cases h
              exact hrow
          | some col => cases h

-- ======================================================= the calls

/-- The key under which a row is stored. -/
def rowKey (tdef : TableDef) (vals : List Value) : Bytes :=
  keyCode tdef.pfx (vals.take tdef.pkeys)

theorem rowEntry_typed {vals : List Value} (hvals : ∀ v ∈ vals, v.Typed)
    (hkeys : tdef.pkeys ≤ vals.length) :
    rowEntry tdef vals = .ok (rowKey tdef vals, codes (vals.drop tdef.pkeys)) := by
  unfold rowEntry
  rw [firstVals_ok hkeys, ok_bind,
    encodeKey_typed _ fun v hv => hvals v (List.mem_of_mem_take hv), ok_bind,
    encodeValues_typed fun v hv => hvals v (List.mem_of_mem_drop hv)]
  rfl

theorem rowEntry_inv {vals : List Value} {key val : Bytes}
    (h : rowEntry tdef vals = .ok (key, val)) :
    tdef.pkeys ≤ vals.length ∧ encodeKey [] tdef.pfx (vals.take tdef.pkeys) = .ok key
      ∧ encodeValues [] (vals.drop tdef.pkeys) = .ok val := by
  unfold rowEntry at h
  obtain ⟨pk, hpk, h⟩ := bind_eq_ok.mp h
  obtain ⟨k, hk, h⟩ := bind_eq_ok.mp h
  obtain ⟨v, hv, h⟩ := bind_eq_ok.mp h
  cases h
  obtain ⟨hle, rfl⟩ := firstVals_inv hpk
  exact ⟨hle, hk, hv⟩

/-- A row with a value that has no type is not encoded. -/
theorem rowEntry_untyped {vals : List Value} (h : ¬ ∀ v ∈ vals, v.Typed) :
    ∃ f, rowEntry tdef vals = .error f := by
  cases hentry : rowEntry tdef vals with
  | error f => exact ⟨f, rfl⟩
  | ok e =>
      obtain ⟨-, hpk, hrest⟩ := rowEntry_inv hentry
      refine absurd (fun v hv => ?_) h
      rw [← List.take_append_drop tdef.pkeys vals] at hv
      rcases List.mem_append.mp hv with hv | hv
      · exact (encodeKey_ok_iff.mp hpk).1 v hv
      · exact (encodeValues_ok_iff.mp hrest).1 v hv

/-- A write that got as far as its entry found its key columns. -/
theorem pkeys_le_of_rowEntry {vals : List Value} {key val : Bytes}
    (hcheck : checkRecord tdef rec tdef.cols.length = .ok (.ok vals))
    (hentry : rowEntry tdef vals = .ok (key, val)) : tdef.pkeys ≤ tdef.cols.length := by
  have hle := (rowEntry_inv hentry).1
  have hlen := checkRecord_length hcheck
  split at hlen
  · exact hlen.1
  · omega

theorem dbUpdate_refused {col : Bytes} (h : Refused tdef rec col) (mode : Nat)
    (db : DB σ) :
    dbUpdate kv tdef rec mode db = (.ok (false, some (.columnNotFound col)), db) := by
  unfold dbUpdate
  rw [checkRecord_refused h]

theorem dbDelete_refused {col : Bytes} (h : Refused tdef rec col) (db : DB σ) :
    dbDelete kv tdef rec db = (.ok (false, some (.columnNotFound col)), db) := by
  unfold dbDelete
  rw [checkRecord_refused h]

section

variable (hkv : kv.IsMap) {vals : List Value} (h : Lays tdef rec vals)
  (hvals : ∀ v ∈ vals, v.Typed) (hkeys : tdef.pkeys ≤ tdef.cols.length) (db : DB σ)

include h hvals hkeys

/-- An insert of a present row changes nothing. -/
theorem dbInsert_present (hin : (kv.get db.kv (rowKey tdef vals)).isSome) :
    dbUpdate kv tdef rec 0 db = (.ok (false, none), db) := by
  unfold dbUpdate
  rw [checkRecord_row h hvals hkeys]
  dsimp only
  rw [rowEntry_typed hvals (by rw [h.length]; exact hkeys)]
  dsimp only
  rw [if_pos ⟨rfl, hin⟩]

include hkv

/-- Any other write sets the row and goes on to the indexes. -/
theorem dbUpdate_writes (mode : Nat)
    (hnew : ¬ (mode = 0 ∧ (kv.get db.kv (rowKey tdef vals)).isSome)) :
    dbUpdate kv tdef rec mode db
      = eachIndex (fun idx => updateIndex kv tdef idx vals) tdef.indexes
        { db with kv :=
          (kv.set db.kv (rowKey tdef vals) (codes (vals.drop tdef.pkeys))).2 } := by
  have hset := hkv.set_ok db.kv (rowKey tdef vals) (codes (vals.drop tdef.pkeys))
  unfold dbUpdate
  rw [checkRecord_row h hvals hkeys]
  dsimp only
  rw [rowEntry_typed hvals (by rw [h.length]; exact hkeys)]
  dsimp only
  rw [if_neg hnew]
  split
  · next msg s heq =>
      rw [heq] at hset
      cases hset
  · next s heq => rw [heq]

omit hkv in
/-- A delete of an absent row changes nothing. -/
theorem dbDelete_absent (hout : kv.get db.kv (rowKey tdef vals) = none) :
    dbDelete kv tdef rec db = (.ok (false, none), db) := by
  unfold dbDelete
  rw [checkRecord_pk h hkeys]
  dsimp only
  rw [encodeKey_typed _ fun v hv => hvals v (List.mem_of_mem_take hv)]
  dsimp only
  rw [show kv.get db.kv (keyCode tdef.pfx (vals.take tdef.pkeys)) = none from hout]

/-- A delete of a present row removes it and goes on to the indexes. -/
theorem dbDelete_removes {old : Bytes}
    (hin : kv.get db.kv (rowKey tdef vals) = some old) :
    dbDelete kv tdef rec db
      = let db' := { db with kv := (kv.del db.kv (rowKey tdef vals)).2 }
        if tdef.indexes = [] then (.ok (true, none), db')
        else match oldRow tdef (vals.take tdef.pkeys) old with
          | .error f => (.error f, db')
          | .ok row =>
              eachIndex (fun idx => deleteIndex kv tdef idx row) tdef.indexes db' := by
  have hdel := hkv.del_ok db.kv (rowKey tdef vals)
  rw [hin] at hdel
  unfold dbDelete
  rw [checkRecord_pk h hkeys]
  dsimp only
  rw [encodeKey_typed _ fun v hv => hvals v (List.mem_of_mem_take hv)]
  dsimp only
  rw [show kv.get db.kv (keyCode tdef.pfx (vals.take tdef.pkeys)) = some old from hin]
  dsimp only
  rw [show keyCode tdef.pfx (vals.take tdef.pkeys) = rowKey tdef vals from rfl]
  split
  · next msg s heq =>
      rw [heq] at hdel
      cases hdel
  · next s heq =>
      rw [heq] at hdel
      cases hdel
  · next s heq =>
      obtain rfl : s = (kv.del db.kv (rowKey tdef vals)).2 := by rw [heq]
      rfl

end

end Svacara.Relational
