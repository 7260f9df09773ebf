/-
How long the indexes of a table agree with its rows.

# What goes wrong

An index entry's key is the indexed columns alone, so of two rows that
share them the later one takes over the entry. An update writes the new
row's entry and leaves the old one. A delete rebuilds the old row with
the non-key columns behind the last column instead of at their places,
and panics when it encodes an indexed column that is not a key column.

# What holds

`Apt tdef M call` says of a call on a table with the rows `M` that none
of this happens: a row written shares its indexed columns with no other
row and keeps those of the row it replaces, and a row deleted is indexed
by key columns only. A run of calls never panics and keeps the indexes
in agreement with the rows at every point exactly if each of its calls
is apt for the rows it finds (`indexes_consistent_iff`). The invariant
carried is an exact one, `Indexed`: under an index's prefix there is one
entry for each row and nothing else.
-/
import Svacara.Relational.Proofs.Rows
import Svacara.Relational.Proofs.IndexKeys

namespace Svacara.Relational

open Kvstore Buf Outcome

variable {σ : Type} {kv : Storage σ} {tdef : TableDef} {table : Bytes} {M : RowMap}

-- ==================================================== the property

/-- The row at `pk` and the entry `(k, v)` of the index belong together:
the key starts with the row's indexed columns, the value decodes to the
row's key columns. -/
structure LeadsTo (tdef : TableDef) (idx : IndexDef) (pk rest : List Value)
    (k v : Bytes) : Prop where
  columns : keyCode (indexPrefix tdef idx) (picked tdef idx (pk ++ rest)) <+: k
  target : decodeValues v [] = .ok pk

/-- Every row has its entry in every index, and every entry its row. -/
structure Consistent (kv : Storage σ) (tdef : TableDef) (M : RowMap) (s : σ) : Prop where
  rows : Represents kv tdef M s
  found : ∀ idx ∈ tdef.indexes, ∀ pk rest, M.lookup pk = some rest →
    ∃ k v, Under (indexPrefix tdef idx) k ∧ kv.get s k = some v
      ∧ LeadsTo tdef idx pk rest k v
  only : ∀ idx ∈ tdef.indexes, ∀ k v, Under (indexPrefix tdef idx) k →
    kv.get s k = some v → ∃ pk rest, M.lookup pk = some rest ∧ LeadsTo tdef idx pk rest k v

/-- No call panics, the calls answer as the map of rows does, and the
indexes are consistent with it at every point. -/
def StaysConsistent (kv : Storage σ) (table : Bytes) (tdef : TableDef) :
    DB σ → RowMap → List Call → Prop
  | db, M, [] => Consistent kv tdef M db.kv
  | db, M, call :: calls => Consistent kv tdef M db.kv ∧ ∃ ans db' M',
      call.run kv table db = (.ok ans, db') ∧ Step tdef M call ans M'
        ∧ StaysConsistent kv table tdef db' M' calls

-- =================================================== the condition

/-- Of the rows there are, those and only those with the key columns of
this one have its indexed columns. -/
def Sole (tdef : TableDef) (M : RowMap) (vals : List Value) : Prop :=
  ∀ idx ∈ tdef.indexes, ∀ pk rest, M.lookup pk = some rest →
    (pk = pkOf tdef vals
      ↔ picked tdef idx (pk ++ rest) = picked tdef idx (pkOf tdef vals ++ restOf tdef vals))

/-- Every indexed column is a key column. -/
def KeyIndexed (tdef : TableDef) : Prop :=
  ∀ idx ∈ tdef.indexes, ∀ k ∈ idx.keys, ∀ j, tdef.colIndex k = some j → j < tdef.pkeys

/-- A call that the indexes survive, on a table with the rows `M`. A
record that names an unknown column is refused and harms nothing. -/
def Apt (tdef : TableDef) (M : RowMap) (call : Call) : Prop :=
  ∀ vals, Lays tdef call.record vals → tdef.pkeys ≤ tdef.cols.length ∧
    match call with
    | .insert _ => pkOf tdef vals ∉ M → Sole tdef M vals
    | .update _ => Sole tdef M vals
    | .delete _ => pkOf tdef vals ∈ M → KeyIndexed tdef

/-- The rows behind a call. -/
def nextRows (tdef : TableDef) (M : RowMap) (call : Call) : RowMap :=
  match layOut tdef call.record.vals 0 call.record.cols (defaults tdef) with
  | .ok (.ok vals) =>
      match call with
      | .insert _ =>
          if pkOf tdef vals ∈ M then M else M.insert (pkOf tdef vals) (restOf tdef vals)
      | .update _ => M.insert (pkOf tdef vals) (restOf tdef vals)
      | .delete _ => if pkOf tdef vals ∈ M then M.erase (pkOf tdef vals) else M
  | _ => M

/-- Each call of the run is apt for the rows it finds. -/
def AptRun (tdef : TableDef) : RowMap → List Call → Prop
  | _, [] => True
  | M, call :: calls => Apt tdef M call ∧ AptRun tdef (nextRows tdef M call) calls

theorem step_nextRows {call : Call} {ans : Answer} {M' : RowMap}
    (h : Step tdef M call ans M') : M' = nextRows tdef M call := by
  unfold nextRows
  cases h with
  | refused hcol hnone =>
      split
      · next vals hlay => exact absurd hnone ((layOut_ok hlay).2.2 _ hcol)
      · rfl
  | inserted hlays hnew => simp [Call.record, hlays.layout, hnew]
  | duplicate hlays hin => simp [Call.record, hlays.layout, hin]
  | updated hlays => simp [Call.record, hlays.layout]
  | deleted hlays hin => simp [Call.record, hlays.layout, hin]
  | absent hlays hout => simp [Call.record, hlays.layout, hout]

-- =================================================== the invariant

/-- The prefixes of the table and its indexes are all different. -/
structure NoClash (tdef : TableDef) : Prop where
  table : ∀ idx ∈ tdef.indexes, indexPrefix tdef idx ≠ tdef.pfx
  indexes : (tdef.indexes.map (indexPrefix tdef)).Nodup

/-- The key of the entry of a row. -/
def entryKey (tdef : TableDef) (idx : IndexDef) (pk rest : List Value) : Bytes :=
  keyCode (indexPrefix tdef idx) (picked tdef idx (pk ++ rest))

theorem under_entryKey (idx : IndexDef) (pk rest : List Value) :
    Under (indexPrefix tdef idx) (entryKey tdef idx pk rest) :=
  under_keyCode ..

/-- One entry for each row under each index's prefix, and no other. -/
structure Indexed (kv : Storage σ) (tdef : TableDef) (M : RowMap) (s : σ) : Prop where
  rows : Holds kv tdef M s
  whole : ∀ {pk rest}, M.lookup pk = some rest → (pk ++ rest).length = tdef.cols.length
  bound : ∀ {idx}, idx ∈ tdef.indexes → ∀ {pk rest}, M.lookup pk = some rest →
    kv.get s (entryKey tdef idx pk rest) = some (codes pk)
  only : ∀ {idx}, idx ∈ tdef.indexes → ∀ {k v}, Under (indexPrefix tdef idx) k →
    kv.get s k = some v →
    ∃ pk rest, M.lookup pk = some rest ∧ k = entryKey tdef idx pk rest ∧ v = codes pk

theorem Indexed.consistent {s : σ} (h : Indexed kv tdef M s) : Consistent kv tdef M s := by
  refine ⟨holds_iff.mp h.rows, fun idx hidx pk rest hlook => ?_, fun idx hidx k v hk hv => ?_⟩
  · exact ⟨_, _, under_keyCode .., h.bound hidx hlook,
      List.prefix_refl _, (h.rows.tidy hlook).1.decode⟩
  · obtain ⟨pk, rest, hlook, rfl, rfl⟩ := h.only hidx hk hv
    exact ⟨pk, rest, hlook, List.prefix_refl _, (h.rows.tidy hlook).1.decode⟩

theorem Holds.congr {s s' : σ} (h : Holds kv tdef M s)
    (hget : ∀ k, Under tdef.pfx k → kv.get s' k = kv.get s k) : Holds kv tdef M s' := by
  refine ⟨h.tidy, fun hlook => ?_, fun hk hv => ?_⟩
  · rw [hget _ (under_keyCode ..)]
    exact h.bound hlook
  · rw [hget _ hk] at hv
    exact h.only hk hv

-- ============================================= the keys of one row

theorem map_norm_eq (tdef : TableDef) (vals : List Value) :
    vals.map Value.norm = pkOf tdef vals ++ restOf tdef vals := by
  rw [pkOf, restOf, ← List.map_append, List.take_append_drop]

theorem picked_map_norm (idx : IndexDef) (vals : List Value) :
    picked tdef idx (vals.map Value.norm) = (picked tdef idx vals).map Value.norm := by
  unfold picked
  rw [List.map_filterMap]
  congr 1
  funext k
  cases tdef.colIndex k with
  | none => rfl
  | some j => simp

/-- The key a write sets is that of the row's entry. -/
theorem indexKeyOf_eq (idx : IndexDef) (vals : List Value) :
    indexKeyOf tdef vals idx = entryKey tdef idx (pkOf tdef vals) (restOf tdef vals) := by
  unfold indexKeyOf entryKey keyCode
  rw [← map_norm_eq, picked_map_norm, codes_map_norm]

theorem tidy_picked {idx : IndexDef} {pk rest : List Value} (hpk : Tidy pk)
    (hrest : Tidy rest) : Tidy (picked tdef idx (pk ++ rest)) := by
  intro v hv
  rcases List.mem_append.mp (mem_picked hv) with h | h
  · exact hpk v h
  · exact hrest v h

section

variable (hclash : NoClash tdef) {vals : List Value} {k : Bytes}

include hclash

/-- Behind the index loop, the table's own keys are as they were. -/
theorem not_mem_indexKeys (hk : Under tdef.pfx k) :
    k ∉ tdef.indexes.map (indexKeyOf tdef vals) := by
  intro hmem
  obtain ⟨idx, hidx, rfl⟩ := List.mem_map.mp hmem
  exact hclash.table idx hidx ((under_keyCode ..).unique hk)

/-- Under an index's prefix, only that index's key is touched. -/
theorem mem_indexKeys_iff {idx : IndexDef} (hidx : idx ∈ tdef.indexes)
    (hk : Under (indexPrefix tdef idx) k) :
    k ∈ tdef.indexes.map (indexKeyOf tdef vals) ↔ k = indexKeyOf tdef vals idx := by
  constructor
  · intro hmem
    obtain ⟨idx', hidx', rfl⟩ := List.mem_map.mp hmem
    have hpfx : indexPrefix tdef idx' = indexPrefix tdef idx :=
      (under_keyCode ..).unique hk
    rw [List.inj_on_of_nodup_map hclash.indexes hidx' hidx hpfx]
  · rintro rfl
    exact List.mem_map_of_mem hidx

end

-- ================================================ what a call does

/-- The database behind a delete of the row `vals`. -/
def removed (kv : Storage σ) (tdef : TableDef) (vals : List Value) (s : σ) : σ :=
  delAll kv (tdef.indexes.map (indexKeyOf tdef vals)) (kv.del s (rowKey tdef vals)).2

/-- The row a delete rebuilds has the key columns at their places and
values without a type at the others. -/
theorem oldRow_eq {vals rest : List Value} (hlen : vals.length = tdef.cols.length)
    (hkeys : tdef.pkeys ≤ tdef.cols.length) (hrest : Tidy rest) :
    ∃ row, oldRow tdef (vals.take tdef.pkeys) (codes rest) = .ok row
      ∧ tdef.cols.length ≤ row.length
      ∧ (∀ j < tdef.pkeys, row[j]? = vals[j]?)
      ∧ ∀ j, tdef.pkeys ≤ j → j < tdef.cols.length → row[j]? = some {} := by
  have hpk : (vals.take tdef.pkeys).length = tdef.pkeys := by
    rw [List.length_take]
    omega
  refine ⟨copyVals (List.replicate tdef.cols.length {}) (vals.take tdef.pkeys) ++ rest,
    ?_, ?_, fun j hj => ?_, fun j hle hlt => ?_⟩
  · unfold oldRow
    rw [decode_codes fun v hv => (hrest v hv).1, hrest.map_norm]
  · simp only [copyVals, List.length_append, List.length_take, List.length_drop,
      List.length_replicate]
    omega
  · unfold copyVals
    rw [List.length_replicate, List.take_of_length_le (by omega), List.append_assoc,
      List.getElem?_append_left (by omega), List.getElem?_take_of_lt hj]
  · unfold copyVals
    rw [List.length_replicate, List.take_of_length_le (by omega), List.append_assoc,
      List.getElem?_append_right (by omega), List.getElem?_append_left, hpk,
      List.getElem?_drop, List.getElem?_replicate_of_lt (by omega)]
    rw [List.length_drop, List.length_replicate, hpk]
    omega

/-- If only key columns are indexed, the rebuilt row has the same indexed
columns. -/
theorem picked_congr (hkey : KeyIndexed tdef) {idx : IndexDef} (hidx : idx ∈ tdef.indexes)
    {row row' : List Value} (h : ∀ j < tdef.pkeys, row[j]? = row'[j]?) :
    picked tdef idx row = picked tdef idx row' := by
  unfold picked
  refine List.filterMap_congr fun k hk => ?_
  cases hj : tdef.colIndex k with
  | none => rfl
  | some j => exact h j (hkey idx hidx k hk j hj)

theorem dropRow_removed (hkv : kv.IsMap) (hkeys : tdef.pkeys ≤ tdef.cols.length)
    {vals rest : List Value} (hlen : vals.length = tdef.cols.length)
    (htyped : ∀ v ∈ vals, v.Typed) (hrest : Tidy rest) (hkey : KeyIndexed tdef) (db : DB σ) :
    dropRow kv tdef vals (codes rest) db
      = (.ok (true, none), { db with kv := removed kv tdef vals db.kv }) := by
  unfold dropRow
  dsimp only
  split
  · next hnil =>
      unfold removed
      rw [hnil]
      rfl
  · obtain ⟨row, hrow, hlong, hsame, -⟩ := oldRow_eq hlen hkeys hrest
    have hpicked : ∀ idx ∈ tdef.indexes, picked tdef idx row = picked tdef idx vals :=
      fun idx hidx => picked_congr hkey hidx hsame
    have hkeysOf : tdef.indexes.map (indexKeyOf tdef row)
        = tdef.indexes.map (indexKeyOf tdef vals) :=
      List.map_congr_left fun idx hidx => by rw [indexKeyOf, indexKeyOf, hpicked idx hidx]
    rw [hrow]
    dsimp only
    rw [deleteIndexes hkv hlong, hkeysOf]
    · rfl
    · intro idx hidx v hv
      rw [hpicked idx hidx] at hv
      exact htyped v (mem_picked hv)

/-- A delete loop that came to its end encoded every index's key. -/
theorem indexKey_of_deleteIndexes (hkv : kv.IsMap) {row : List Value}
    {indexes : List IndexDef} {db : DB σ} {ans : Answer}
    (h : (eachIndex (fun idx => deleteIndex kv tdef idx row) indexes db).1 = .ok ans) :
    ∀ idx ∈ indexes, ∃ k, indexKey tdef idx row = .ok k := by
  induction indexes generalizing db with
  | nil => simp
  | cons idx indexes ih =>
      cases hk : indexKey tdef idx row with
      | error f => simp [eachIndex, deleteIndex, hk] at h
      | ok k =>
          have hone : deleteIndex kv tdef idx row db
              = (.ok none, { db with kv := (kv.del db.kv k).2 }) := by
            simp [deleteIndex, hk, hkv.del_ok]
          rw [eachIndex, hone] at h
          exact List.forall_mem_cons.mpr ⟨⟨k, hk⟩, ih h⟩

/-- A delete of a present row that returned had key columns to index
only. -/
theorem keyIndexed_of_dropRow (hkv : kv.IsMap) (hkeys : tdef.pkeys ≤ tdef.cols.length)
    {vals rest : List Value} (hlen : vals.length = tdef.cols.length) (hrest : Tidy rest)
    (db : DB σ) {ans : Answer} (hrun : (dropRow kv tdef vals (codes rest) db).1 = .ok ans) :
    KeyIndexed tdef := by
  intro idx hidx k hk j hj
  by_contra hge
  obtain ⟨row, hrow, hlong, -, hzero⟩ := oldRow_eq hlen hkeys hrest
  unfold dropRow at hrun
  dsimp only at hrun
  rw [if_neg (List.ne_nil_of_mem hidx), hrow] at hrun
  obtain ⟨key, hkey⟩ := indexKey_of_deleteIndexes hkv hrun idx hidx
  unfold indexKey indexKeyVals at hkey
  rw [pickCols_eq hlong, ok_bind] at hkey
  have hmem : ({} : Value) ∈ picked tdef idx row :=
    List.mem_filterMap.mpr ⟨k, hk, by
      rw [hj]
      exact hzero j (by omega) (colIndex_lt hj)⟩
  exact absurd ((encodeKey_ok_iff.mp hkey).1 {} hmem) (by decide)

-- ============================================ and to the invariant

section

variable (hkv : kv.IsMap) (hclash : NoClash tdef) {vals : List Value} {s : σ}
  {idx : IndexDef} (hidx : idx ∈ tdef.indexes) {k : Bytes}
  (hk : Under (indexPrefix tdef idx) k)

include hkv hclash hidx hk

omit hkv in
theorem ne_rowKey : k ≠ rowKey tdef vals := by
  rintro rfl
  exact hclash.table idx hidx (hk.unique (under_keyCode ..))

/-- Under an index's prefix a write sets one key. -/
theorem get_written : kv.get (written kv tdef vals s) k
    = if k = indexKeyOf tdef vals idx then some (codes (pkOf tdef vals))
      else kv.get s k := by
  unfold written
  rw [get_setAll hkv, hkv.get_set_of_ne _ _ _ _ (ne_rowKey hclash hidx hk), pkOf,
    codes_map_norm]
  simp only [mem_indexKeys_iff hclash hidx hk]

/-- Under an index's prefix a delete unsets one key. -/
theorem get_removed : kv.get (removed kv tdef vals s) k
    = if k = indexKeyOf tdef vals idx then none else kv.get s k := by
  unfold removed
  rw [get_delAll hkv, hkv.get_del_of_ne _ _ _ (ne_rowKey hclash hidx hk)]
  simp only [mem_indexKeys_iff hclash hidx hk]

end

section

variable (hkv : kv.IsMap) (hclash : NoClash tdef) {vals : List Value} {s : σ}
  (hsound : ∀ v ∈ vals, v.Sound) (hlen : vals.length = tdef.cols.length)
  (h : Indexed kv tdef M s)

include hkv hclash hsound hlen h

theorem Indexed.written (hsole : Sole tdef M vals) :
    Indexed kv tdef (M.insert (pkOf tdef vals) (restOf tdef vals))
      (written kv tdef vals s) := by
  have hpk : Tidy (pkOf tdef vals) := tidy_pkOf tdef hsound
  have hrest : Tidy (restOf tdef vals) := tidy_restOf tdef hsound
  have hset := h.rows.set hkv hpk hrest
  rw [← rowKey_eq, codes_restOf] at hset
  refine ⟨hset.congr fun k hk => ?_, fun {pk rest} hlook => ?_,
    fun {idx} hidx {pk rest} hlook => ?_, fun {idx} hidx {k v} hk hv => ?_⟩
  · unfold Relational.written
    rw [get_setAll hkv, if_neg (not_mem_indexKeys hclash hk)]
  · rcases lookup_insert_some hlook with ⟨rfl, rfl⟩ | ⟨-, hlook⟩
    · rw [← map_norm_eq, List.length_map]
      exact hlen
    · exact h.whole hlook
  · rw [get_written hkv hclash hidx (under_entryKey ..)]
    rcases lookup_insert_some hlook with ⟨rfl, rfl⟩ | ⟨heq, hlook⟩
    · rw [if_pos (indexKeyOf_eq idx vals).symm]
    · have htidy := h.rows.tidy hlook
      rw [if_neg, h.bound hidx hlook]
      rw [indexKeyOf_eq]
      intro hkey
      exact heq ((hsole idx hidx pk rest hlook).mpr
        ((tidy_picked htidy.1 htidy.2).keyCode_inj (tidy_picked hpk hrest) hkey).2)
  · rw [get_written hkv hclash hidx hk] at hv
    split at hv
    · next heq =>
        cases hv
        exact ⟨_, _, AList.lookup_insert _, heq.trans (indexKeyOf_eq idx vals), rfl⟩
    · next hne =>
        obtain ⟨pk, rest, hlook, rfl, rfl⟩ := h.only hidx hk hv
        have hpkne : pk ≠ pkOf tdef vals := by
          intro heq
          have hsame := (hsole idx hidx pk rest hlook).mp heq
          exact hne (by rw [indexKeyOf_eq, entryKey, entryKey, hsame])
        exact ⟨pk, rest, by rw [AList.lookup_insert_ne hpkne]; exact hlook, rfl, rfl⟩

/-- Conversely, indexes that agree with the rows behind a write show that
the row written was the only one with its indexed columns. -/
theorem sole_of_consistent
    (hcons : Consistent kv tdef (M.insert (pkOf tdef vals) (restOf tdef vals))
      (Relational.written kv tdef vals s)) : Sole tdef M vals := by
  have hpk : Tidy (pkOf tdef vals) := tidy_pkOf tdef hsound
  have hrest : Tidy (restOf tdef vals) := tidy_restOf tdef hsound
  intro idx hidx pk rest hlook
  have htidy := h.rows.tidy hlook
  constructor
  · -- the old entry of the row is still there, and has to be the new one
    rintro rfl
    by_contra hdiff
    have hold : Tidy (picked tdef idx (pkOf tdef vals ++ rest)) := tidy_picked hpk htidy.2
    have hnew : Tidy (picked tdef idx (pkOf tdef vals ++ restOf tdef vals)) :=
      tidy_picked hpk hrest
    have hne : entryKey tdef idx (pkOf tdef vals) rest ≠ indexKeyOf tdef vals idx := by
      rw [indexKeyOf_eq]
      exact fun hkey => hdiff (hold.keyCode_inj hnew hkey).2
    have hget : kv.get (Relational.written kv tdef vals s)
        (entryKey tdef idx (pkOf tdef vals) rest) = some (codes (pkOf tdef vals)) := by
      rw [get_written hkv hclash hidx (under_entryKey ..), if_neg hne, h.bound hidx hlook]
    obtain ⟨pk', rest', hlook', hcols, htarget⟩ :=
      hcons.only idx hidx _ _ (under_entryKey ..) hget
    rw [hpk.decode] at htarget
    cases htarget
    rw [AList.lookup_insert] at hlook'
    cases hlook'
    have hwidth : (picked tdef idx (pkOf tdef vals ++ restOf tdef vals)).length
        = (picked tdef idx (pkOf tdef vals ++ rest)).length := by
      rw [length_picked, length_picked]
      · exact (h.whole hlook).ge
      · rw [← map_norm_eq, List.length_map]
        exact hlen.ge
    exact hdiff (hnew.keyCode_within hold hwidth hcols).symm
  · -- the other row's entry has been taken over
    intro hsame
    by_contra hne
    obtain ⟨k, v, hk, hget, -, htarget⟩ := hcons.found idx hidx pk rest
      (by rw [AList.lookup_insert_ne hne]; exact hlook)
    rw [get_written hkv hclash hidx hk] at hget
    split at hget
    · cases hget
      rw [hpk.decode] at htarget
      exact hne (Except.ok.inj htarget).symm
    · next hkey =>
        obtain ⟨pk', rest', hlook', rfl, rfl⟩ := h.only hidx hk hget
        rw [(h.rows.tidy hlook').1.decode] at htarget
        cases htarget
        rw [hlook] at hlook'
        cases hlook'
        exact hkey (by rw [indexKeyOf_eq, entryKey, entryKey, hsame])

theorem Indexed.removed (hkeys : tdef.pkeys ≤ tdef.cols.length) (hkey : KeyIndexed tdef)
    {old : List Value} (hold : M.lookup (pkOf tdef vals) = some old) :
    Indexed kv tdef (M.erase (pkOf tdef vals)) (removed kv tdef vals s) := by
  have hpk : Tidy (pkOf tdef vals) := tidy_pkOf tdef hsound
  have hdel := h.rows.del hkv hpk
  rw [← rowKey_eq] at hdel
  have hpkLen : (pkOf tdef vals).length = tdef.pkeys := by
    rw [pkOf, List.length_map, List.length_take]
    omega
  -- the stored row's entry, although its other columns may differ
  have hentry : ∀ {idx}, idx ∈ tdef.indexes →
      indexKeyOf tdef vals idx = entryKey tdef idx (pkOf tdef vals) old := by
    intro idx hidx
    rw [indexKeyOf_eq, entryKey, entryKey, picked_congr hkey hidx]
    intro j hj
    rw [List.getElem?_append_left (by omega), List.getElem?_append_left (by omega)]
  refine ⟨hdel.congr fun k hk => ?_, fun hlook => h.whole (lookup_erase_some hlook).2,
    fun {idx} hidx {pk rest} hlook => ?_, fun {idx} hidx {k v} hk hv => ?_⟩
  · unfold Relational.removed
    rw [get_delAll hkv, if_neg (not_mem_indexKeys hclash hk)]
  · obtain ⟨hne, hlook⟩ := lookup_erase_some hlook
    have hbound := h.bound hidx hlook
    rw [get_removed hkv hclash hidx (under_entryKey ..), if_neg, hbound]
    intro heq
    -- one key cannot lead to two rows
    rw [heq, hentry hidx, h.bound hidx hold] at hbound
    exact hne ((h.rows.tidy hlook).1.codes_inj hpk (Option.some.inj hbound).symm)
  · rw [get_removed hkv hclash hidx hk] at hv
    split at hv
    · cases hv
    · next hne =>
        obtain ⟨pk, rest, hlook, rfl, rfl⟩ := h.only hidx hk hv
        have hpkne : pk ≠ pkOf tdef vals := by
          rintro rfl
          rw [hold] at hlook
          cases hlook
          exact hne (hentry hidx).symm
        exact ⟨pk, rest, by rw [AList.lookup_erase_ne hpkne]; exact hlook, rfl, rfl⟩

end

-- ======================================================== one call

section

variable (hkv : kv.IsMap) (hclash : NoClash tdef) {db : DB σ}
  (htab : db.tableDef table = some tdef) (hM : Indexed kv tdef M db.kv) {call : Call}
  (hcall : call.record.Proper)

include hkv hclash htab hM hcall

/-- One apt call keeps the invariant. -/
theorem indexed_call (hapt : Apt tdef M call) :
    ∃ ans db' M', call.run kv table db = (.ok ans, db') ∧ Step tdef M call ans M'
      ∧ db'.tableDef table = some tdef ∧ Indexed kv tdef M' db'.kv := by
  obtain ⟨hlen, hrec⟩ := hcall
  rcases lays_or_refused hlen tdef with ⟨col, href⟩ | ⟨vals, h⟩
  · exact ⟨_, db, M, call_refused htab href, .refused href.named href.unknown, htab, hM⟩
  obtain ⟨hkeys, hapt⟩ := hapt vals h
  have hsound := h.sound hrec
  have htyped : ∀ v ∈ vals, v.Typed := fun v hv => (hsound v hv).typed
  have hends := call_ends hkv hkeys htab hM.rows h hsound
  generalize call.run kv table db = r at hends ⊢
  cases hends with
  | duplicate hin => exact ⟨_, db, M, rfl, .duplicate h hin, htab, hM⟩
  | inserted hnew =>
      exact ⟨_, _, _, rfl, .inserted h hnew, htab,
        hM.written hkv hclash hsound h.length (hapt hnew)⟩
  | updated =>
      exact ⟨_, _, _, rfl, .updated h, htab, hM.written hkv hclash hsound h.length hapt⟩
  | absent hout => exact ⟨_, db, M, rfl, .absent h hout, htab, hM⟩
  | deleted hold =>
      have hin := AList.lookup_isSome.mp (Option.isSome_iff_exists.mpr ⟨_, hold⟩)
      rw [dropRow_removed hkv hkeys h.length htyped (hM.rows.tidy hold).2 (hapt hin)]
      exact ⟨_, _, _, rfl, .deleted h hin, htab,
        hM.removed hkv hclash hsound h.length hkeys (hapt hin) hold⟩

/-- A call that returned and left the indexes in agreement was apt. -/
theorem apt_of_consistent {ans : Answer} {db' : DB σ}
    (hrun : call.run kv table db = (.ok ans, db'))
    (hcons : Consistent kv tdef (nextRows tdef M call) db'.kv) : Apt tdef M call := by
  intro vals h
  have hsound := h.sound hcall.2
  have htyped : ∀ v ∈ vals, v.Typed := fun v hv => (hsound v hv).typed
  have hkeys : tdef.pkeys ≤ tdef.cols.length := by
    by_contra hshort
    rw [call_short htab h htyped (by omega)] at hrun
    cases hrun
  have hends := call_ends hkv hkeys htab hM.rows h hsound
  refine ⟨hkeys, ?_⟩
  have hnext := h.layout
  generalize call.run kv table db = r at hends hrun
  cases hends with
  | duplicate hin => exact fun hnew => absurd hin hnew
  | inserted hnew =>
      cases hrun
      simp only [nextRows, hnext, hnew, if_false] at hcons
      exact fun _ => sole_of_consistent hkv hclash hsound h.length hM hcons
  | updated =>
      cases hrun
      simp only [nextRows, hnext] at hcons
      exact sole_of_consistent hkv hclash hsound h.length hM hcons
  | absent hout => exact fun hin => absurd hin hout
  | deleted hold =>
      exact fun _ => keyIndexed_of_dropRow hkv hkeys h.length (hM.rows.tidy hold).2 db
        (congrArg Prod.fst hrun)

end

-- =========================================================== a run

theorem StaysConsistent.head {db : DB σ} {calls : List Call}
    (h : StaysConsistent kv table tdef db M calls) : Consistent kv tdef M db.kv := by
  cases calls with
  | nil => exact h
  | cons call calls => exact h.1

theorem staysConsistent_iff (hkv : kv.IsMap) (hclash : NoClash tdef) {calls : List Call}
    (hcalls : ∀ call ∈ calls, call.record.Proper) {db : DB σ} {M : RowMap}
    (htab : db.tableDef table = some tdef) (hM : Indexed kv tdef M db.kv) :
    StaysConsistent kv table tdef db M calls ↔ AptRun tdef M calls := by
  induction calls generalizing db M with
  | nil => exact ⟨fun _ => trivial, fun _ => hM.consistent⟩
  | cons call calls ih =>
      obtain ⟨hcall, hcalls⟩ := List.forall_mem_cons.mp hcalls
      constructor
      · rintro ⟨-, ans, db', M', hrun, hstep, hrest⟩
        obtain rfl := step_nextRows hstep
        have hapt := apt_of_consistent hkv hclash htab hM hcall hrun hrest.head
        obtain ⟨ans', db'', M'', hrun', hstep', htab', hM'⟩ :=
          indexed_call hkv hclash htab hM hcall hapt
        obtain rfl := step_nextRows hstep'
        rw [hrun] at hrun'
        cases hrun'
        exact ⟨hapt, (ih hcalls htab' hM').mp hrest⟩
      · rintro ⟨hapt, hrest⟩
        obtain ⟨ans, db', M', hrun, hstep, htab', hM'⟩ :=
          indexed_call hkv hclash htab hM hcall hapt
        obtain rfl := step_nextRows hstep
        exact ⟨hM.consistent, ans, db', _, hrun, hstep, (ih hcalls htab' hM').mpr hrest⟩

/-- From a store with nothing under the prefixes of the table and its
indexes: no call of the run panics and the indexes agree with the rows
at every point, exactly if each call is apt for the rows it finds. -/
theorem indexes_consistent_iff (hkv : kv.IsMap) (table : Bytes) (tdef : TableDef)
    (hclash : NoClash tdef) (db : DB σ) (htab : db.tableDef table = some tdef)
    (hempty : ∀ k, Under tdef.pfx k → kv.get db.kv k = none)
    (hemptyIdx : ∀ idx ∈ tdef.indexes, ∀ k, Under (indexPrefix tdef idx) k →
      kv.get db.kv k = none)
    (calls : List Call) (hcalls : ∀ call ∈ calls, call.record.Proper) :
    StaysConsistent kv table tdef db ∅ calls ↔ AptRun tdef ∅ calls := by
  refine staysConsistent_iff hkv hclash hcalls htab ?_
  refine ⟨holds_iff.mpr (represents_empty hempty), fun hlook => ?_,
    fun hidx _ _ hlook => ?_, fun hidx _ _ hk hv => ?_⟩
  · rw [AList.lookup_empty] at hlook
    cases hlook
  · rw [AList.lookup_empty] at hlook
    cases hlook
  · rw [hemptyIdx _ hidx _ hk] at hv
    cases hv

/-- A table of tags, indexed by the given columns. -/
def tags (keys : List Bytes) : TableDef where
  name := lit "tags"
  cols := [⟨lit "id", .tInt64⟩, ⟨lit "tag", .tBytes⟩]
  pkeys := 1
  indexes := [{ name := lit "by", keys }]
  pfx := hashTableName (lit "tags")

def tagsDB (keys : List Bytes) : DB Memory where
  kv := Memory.empty
  tables := [(lit "tags", tags keys)]

def tagRow (id : Int64) (tag : String) : Record :=
  ⟨[lit "id", lit "tag"], [{ type := 1, i64 := id }, { type := 2, str := lit tag }]⟩

/-- Indexed by its key column, a row goes in and out. -/
theorem indexes_consistent_iff_tags :
    StaysConsistent memory (lit "tags") (tags [lit "id"]) (tagsDB [lit "id"]) ∅
      [.insert (tagRow 1 "x"), .delete (tagRow 1 "x")] := by
  refine (indexes_consistent_iff memory_isOrdered.toIsMap _ (tags [lit "id"])
    ⟨by decide +kernel, by decide +kernel⟩ _ (by decide +kernel) (fun _ _ => rfl)
    (fun _ _ _ _ => rfl) _ (by decide +kernel)).mpr ⟨fun vals _ => ⟨by decide, fun _ => ?_⟩,
      fun vals _ => ⟨by decide, fun _ => ?_⟩, trivial⟩
  · intro idx _ pk rest hlook
    rw [AList.lookup_empty] at hlook
    cases hlook
  · have hcol : ∀ idx ∈ (tags [lit "id"]).indexes, ∀ k ∈ idx.keys,
        (tags [lit "id"]).colIndex k = some 0 := by decide +kernel
    intro idx hidx k hk j hj
    rw [hcol idx hidx k hk] at hj
    cases hj
    decide

/-- Indexed by the other column: a delete of a row just inserted panics;
of two rows with one tag the second takes the entry over, so that none
leads to the first; and an update leaves the entry of the old tag. -/
theorem tags_break :
    (delete memory (lit "tags") (tagRow 1 "x")
        (insert memory (lit "tags") (tagRow 1 "x") (tagsDB [lit "tag"])).2).1
      = .error (.panic "unknown type")
    ∧ ((insert memory (lit "tags") (tagRow 2 "x")
        (insert memory (lit "tags") (tagRow 1 "x") (tagsDB [lit "tag"])).2).2.kv.1.filter
          fun e => Under (hashTableName (lit "tags_by")) e.1)
      = [(keyCode (hashTableName (lit "tags_by")) [{ type := 2, str := lit "x" }],
          codes [{ type := 1, i64 := 2 }])]
    ∧ ((update memory (lit "tags") (tagRow 1 "y")
        (insert memory (lit "tags") (tagRow 1 "x") (tagsDB [lit "tag"])).2).2.kv.1.filter
          fun e => Under (hashTableName (lit "tags_by")) e.1)
      = [(keyCode (hashTableName (lit "tags_by")) [{ type := 2, str := lit "x" }],
          codes [{ type := 1, i64 := 1 }]),
        (keyCode (hashTableName (lit "tags_by")) [{ type := 2, str := lit "y" }],
          codes [{ type := 1, i64 := 1 }])] := by
  decide +kernel

end Svacara.Relational
