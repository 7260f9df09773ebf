/-
A table without indexes is a map from key tuples to the other columns.

# The map

`RowMap` binds the key columns of each row to its other columns, both as
`checkRecord` lays them out, with the fields cleared that a value's type
does not select: a value is its type and the one field that counts, and
decoding clears the others. `Step` says what a call does to the map and
what it answers.

# The store

`Represents kv tdef M s` says that under the table's prefix the store
holds the encodings of the map's bindings and nothing else, and that
each stored value decodes to its columns. How a call ends is read off
once, also for tables with indexes (`call_ends`). One call keeps the
relation (`represents_call`), so every run does (`follows_of_represents`).

The only fact about bytes that is used is that tidy tuples have
different keys (`Tidy.keyCode_inj`).
-/
import Svacara.Relational.Run
import Svacara.Relational.Proofs.IndexKeys
import Mathlib.Data.List.AList

namespace Svacara.Relational

open Kvstore Buf Outcome

variable {σ : Type} {kv : Storage σ} {tdef : TableDef}

-- ========================================================= the map

/-- From the key columns of a row to its other columns. -/
abbrev RowMap := AList fun _ : List Value => List Value

def pkOf (tdef : TableDef) (vals : List Value) : List Value :=
  (vals.take tdef.pkeys).map Value.norm

def restOf (tdef : TableDef) (vals : List Value) : List Value :=
  (vals.drop tdef.pkeys).map Value.norm

/-- What a call does to the map, and its answer. -/
inductive Step (tdef : TableDef) (M : RowMap) : Call → Answer → RowMap → Prop
  | refused {call : Call} {col : Bytes} : col ∈ call.record.cols →
      tdef.colIndex col = none → Step tdef M call (false, some (.columnNotFound col)) M
  | inserted {rec : Record} {vals : List Value} : Lays tdef rec vals →
      pkOf tdef vals ∉ M →
      Step tdef M (.insert rec) (true, none) (M.insert (pkOf tdef vals) (restOf tdef vals))
  | duplicate {rec : Record} {vals : List Value} : Lays tdef rec vals →
      pkOf tdef vals ∈ M → Step tdef M (.insert rec) (false, none) M
  | updated {rec : Record} {vals : List Value} : Lays tdef rec vals →
      Step tdef M (.update rec) (true, none) (M.insert (pkOf tdef vals) (restOf tdef vals))
  | deleted {rec : Record} {vals : List Value} : Lays tdef rec vals →
      pkOf tdef vals ∈ M →
      Step tdef M (.delete rec) (true, none) (M.erase (pkOf tdef vals))
  | absent {rec : Record} {vals : List Value} : Lays tdef rec vals →
      pkOf tdef vals ∉ M → Step tdef M (.delete rec) (false, none) M

-- ======================================================= the store

/-- The key starts with this prefix. -/
def Under (p : UInt32) (k : Bytes) : Prop := beBytes 4 p.toNat <+: k

instance (p : UInt32) (k : Bytes) : Decidable (Under p k) :=
  inferInstanceAs (Decidable (_ <+: _))

theorem under_keyCode (p : UInt32) (vals : List Value) : Under p (keyCode p vals) :=
  List.prefix_append ..

/-- A key is under one prefix only. -/
theorem Under.unique {p q : UInt32} {k : Bytes} (hp : Under p k) (hq : Under q k) :
    p = q := by
  obtain ⟨a, rfl⟩ := hp
  obtain ⟨b, hb⟩ := hq
  exact (keyCode_front hb.symm).1

structure Represents (kv : Storage σ) (tdef : TableDef) (M : RowMap) (s : σ) : Prop where
  tidy : ∀ pk rest, M.lookup pk = some rest → Tidy pk ∧ Tidy rest
  entries : ∀ k v, Under tdef.pfx k → (kv.get s k = some v ↔ ∃ pk rest,
    M.lookup pk = some rest ∧ encodeKey [] tdef.pfx pk = .ok k
      ∧ encodeValues [] rest = .ok v)
  decodes : ∀ pk rest, M.lookup pk = some rest →
    ∃ v, encodeValues [] rest = .ok v ∧ decodeValues v [] = .ok rest

/-- The calls answer as the map does, the store represents the map at
every point, and a call that answers false leaves the database as it
was. -/
def Follows (kv : Storage σ) (table : Bytes) (tdef : TableDef) :
    DB σ → RowMap → List Call → Prop
  | db, M, [] => Represents kv tdef M db.kv
  | db, M, call :: calls => Represents kv tdef M db.kv ∧ ∃ ans db' M',
      call.run kv table db = (.ok ans, db') ∧ Step tdef M call ans M'
        ∧ (ans.1 = false → db' = db) ∧ Follows kv table tdef db' M' calls

-- ===================================================== look-ups

section

variable {M : RowMap} {pk pk' rest rest' : List Value}

theorem lookup_insert_some (h : (M.insert pk rest).lookup pk' = some rest') :
    pk' = pk ∧ rest' = rest ∨ pk' ≠ pk ∧ M.lookup pk' = some rest' := by
  by_cases heq : pk' = pk
  · subst heq
    rw [AList.lookup_insert] at h
    cases h
    exact Or.inl ⟨rfl, rfl⟩
  · rw [AList.lookup_insert_ne heq] at h
    exact Or.inr ⟨heq, h⟩

theorem lookup_erase_some (h : (M.erase pk).lookup pk' = some rest') :
    pk' ≠ pk ∧ M.lookup pk' = some rest' := by
  by_cases heq : pk' = pk
  · subst heq
    rw [AList.lookup_erase] at h
    cases h
  · rw [AList.lookup_erase_ne heq] at h
    exact ⟨heq, h⟩

end

-- ====================================== the entries as plain bytes

/-- The same with the bytes written out. -/
structure Holds (kv : Storage σ) (tdef : TableDef) (M : RowMap) (s : σ) : Prop where
  tidy : ∀ {pk rest}, M.lookup pk = some rest → Tidy pk ∧ Tidy rest
  bound : ∀ {pk rest}, M.lookup pk = some rest →
    kv.get s (keyCode tdef.pfx pk) = some (codes rest)
  only : ∀ {k v}, Under tdef.pfx k → kv.get s k = some v →
    ∃ pk rest, M.lookup pk = some rest ∧ k = keyCode tdef.pfx pk ∧ v = codes rest

theorem holds_iff {M : RowMap} {s : σ} : Holds kv tdef M s ↔ Represents kv tdef M s := by
  constructor
  · intro h
    refine ⟨fun _ _ => h.tidy, fun k v hk => ⟨fun hv => ?_, ?_⟩, fun pk rest hpk => ?_⟩
    · obtain ⟨pk, rest, hpk, rfl, rfl⟩ := h.only hk hv
      exact ⟨pk, rest, hpk, encodeKey_typed _ (h.tidy hpk).1.typed,
        encodeValues_typed (h.tidy hpk).2.typed []⟩
    · rintro ⟨pk, rest, hpk, hkey, hval⟩
      obtain ⟨-, rfl⟩ := encodeKey_ok_iff.mp hkey
      obtain ⟨-, rfl⟩ := encodeValues_ok_iff.mp hval
      exact h.bound hpk
    · exact ⟨codes rest, encodeValues_typed (h.tidy hpk).2.typed [], (h.tidy hpk).2.decode⟩
  · intro h
    refine ⟨fun hpk => h.tidy _ _ hpk, fun {pk rest} hpk => ?_, fun {k v} hk hv => ?_⟩
    · have htidy := h.tidy _ _ hpk
      exact (h.entries _ _ (under_keyCode ..)).mpr ⟨pk, rest, hpk,
        encodeKey_typed _ htidy.1.typed, encodeValues_typed htidy.2.typed []⟩
    · obtain ⟨pk, rest, hpk, hkey, hval⟩ := (h.entries k v hk).mp hv
      exact ⟨pk, rest, hpk, (encodeKey_ok_iff.mp hkey).2, (encodeValues_ok_iff.mp hval).2⟩

/-- A row is in the store exactly if its key is in the map. -/
theorem Holds.isSome_iff {M : RowMap} {s : σ} (h : Holds kv tdef M s) {pk : List Value}
    (hpk : Tidy pk) : (kv.get s (keyCode tdef.pfx pk)).isSome ↔ pk ∈ M := by
  constructor
  · intro hsome
    obtain ⟨v, hv⟩ := Option.isSome_iff_exists.mp hsome
    obtain ⟨pk', rest, hlook, hkey, -⟩ := h.only (under_keyCode ..) hv
    obtain ⟨-, rfl⟩ := hpk.keyCode_inj (h.tidy hlook).1 hkey
    exact AList.lookup_isSome.mp (by simp [hlook])
  · intro hmem
    obtain ⟨rest, hrest⟩ := Option.isSome_iff_exists.mp (AList.lookup_isSome.mpr hmem)
    simp [h.bound hrest]

/-- Setting a row's entry binds its key columns. -/
theorem Holds.set (hkv : kv.IsMap) {M : RowMap} {s : σ} (h : Holds kv tdef M s)
    {pk rest : List Value} (hpk : Tidy pk) (hrest : Tidy rest) :
    Holds kv tdef (M.insert pk rest) (kv.set s (keyCode tdef.pfx pk) (codes rest)).2 := by
  refine ⟨fun hlook => ?_, fun hlook => ?_, fun {k v} hk hv => ?_⟩
  · rcases lookup_insert_some hlook with ⟨rfl, rfl⟩ | ⟨-, hlook⟩
    · exact ⟨hpk, hrest⟩
    · exact h.tidy hlook
  · rcases lookup_insert_some hlook with ⟨rfl, rfl⟩ | ⟨heq, hlook⟩
    · exact hkv.get_set ..
    · rw [hkv.get_set_of_ne _ _ _ _ fun hkey => heq ((h.tidy hlook).1.keyCode_inj hpk hkey).2]
      exact h.bound hlook
  · by_cases heq : k = keyCode tdef.pfx pk
    · subst heq
      rw [hkv.get_set] at hv
      cases hv
      exact ⟨pk, rest, AList.lookup_insert _, rfl, rfl⟩
    · rw [hkv.get_set_of_ne _ _ _ _ heq] at hv
      obtain ⟨pk', rest', hlook, rfl, rfl⟩ := h.only hk hv
      have hne : pk' ≠ pk := fun hp => heq (by rw [hp])
      exact ⟨pk', rest', by rw [AList.lookup_insert_ne hne]; exact hlook, rfl, rfl⟩

/-- Deleting a row's entry unbinds its key columns. -/
theorem Holds.del (hkv : kv.IsMap) {M : RowMap} {s : σ} (h : Holds kv tdef M s)
    {pk : List Value} (hpk : Tidy pk) :
    Holds kv tdef (M.erase pk) (kv.del s (keyCode tdef.pfx pk)).2 := by
  refine ⟨fun hlook => h.tidy (lookup_erase_some hlook).2, fun hlook => ?_,
    fun {k v} hk hv => ?_⟩
  · obtain ⟨heq, hlook⟩ := lookup_erase_some hlook
    rw [hkv.get_del_of_ne _ _ _ fun hkey => heq ((h.tidy hlook).1.keyCode_inj hpk hkey).2]
    exact h.bound hlook
  · by_cases heq : k = keyCode tdef.pfx pk
    · subst heq
      rw [hkv.get_del] at hv
      cases hv
    · rw [hkv.get_del_of_ne _ _ _ heq] at hv
      obtain ⟨pk', rest', hlook, rfl, rfl⟩ := h.only hk hv
      have hne : pk' ≠ pk := fun hp => heq (by rw [hp])
      exact ⟨pk', rest', by rw [AList.lookup_erase_ne hne]; exact hlook, rfl, rfl⟩

-- ======================================================== one call

theorem rowKey_eq (tdef : TableDef) (vals : List Value) :
    rowKey tdef vals = keyCode tdef.pfx (pkOf tdef vals) := by
  rw [rowKey, pkOf, keyCode, keyCode, codes_map_norm]

theorem codes_restOf (tdef : TableDef) (vals : List Value) :
    codes (restOf tdef vals) = codes (vals.drop tdef.pkeys) := by
  rw [restOf, codes_map_norm]

/-- A value for each name, none of them a float. -/
def Record.Proper (rec : Record) : Prop :=
  rec.cols.length = rec.vals.length ∧ ∀ v ∈ rec.vals, v.IsKey

instance (rec : Record) : Decidable rec.Proper := inferInstanceAs (Decidable (_ ∧ _))

variable {table : Bytes}

theorem call_refused {call : Call} {db : DB σ} {col : Bytes}
    (htab : db.tableDef table = some tdef) (h : Refused tdef call.record col) :
    call.run kv table db = (.ok (false, some (.columnNotFound col)), db) := by
  cases call with
  | insert rec => exact (run_insert htab rec).trans (dbUpdate_refused h 0 db)
  | update rec => exact (run_update htab rec).trans (dbUpdate_refused h 1 db)
  | delete rec => exact (run_delete htab rec).trans (dbDelete_refused h db)

/-- A call on a table with more key columns than columns panics. -/
theorem call_short {call : Call} {db : DB σ} {vals : List Value}
    (htab : db.tableDef table = some tdef) (h : Lays tdef call.record vals)
    (htyped : ∀ v ∈ vals, v.Typed) (hshort : tdef.cols.length < tdef.pkeys) :
    call.run kv table db = (.error .index, db) := by
  have hcheck := checkRecord_short h htyped hshort
  cases call with
  | insert rec =>
      rw [run_insert htab, dbUpdate]
      simp only [show checkRecord tdef rec tdef.cols.length = _ from hcheck _]
  | update rec =>
      rw [run_update htab, dbUpdate]
      simp only [show checkRecord tdef rec tdef.cols.length = _ from hcheck _]
  | delete rec =>
      rw [run_delete htab, dbDelete]
      simp only [show checkRecord tdef rec tdef.pkeys = _ from hcheck _]

theorem tidy_pkOf (tdef : TableDef) {vals : List Value} (h : ∀ v ∈ vals, v.Sound) :
    Tidy (pkOf tdef vals) :=
  tidy_map_norm fun v hv => h v (List.mem_of_mem_take hv)

theorem tidy_restOf (tdef : TableDef) {vals : List Value} (h : ∀ v ∈ vals, v.Sound) :
    Tidy (restOf tdef vals) :=
  tidy_map_norm fun v hv => h v (List.mem_of_mem_drop hv)

/-- How a call on the row `vals` ends, on a table with the rows `M`. -/
inductive CallEnds (kv : Storage σ) (tdef : TableDef) (M : RowMap) (vals : List Value)
    (db : DB σ) : Call → Except Fault Answer × DB σ → Prop
  | duplicate {rec : Record} : pkOf tdef vals ∈ M →
      CallEnds kv tdef M vals db (.insert rec) (.ok (false, none), db)
  | inserted {rec : Record} : pkOf tdef vals ∉ M →
      CallEnds kv tdef M vals db (.insert rec)
        (.ok (true, none), { db with kv := written kv tdef vals db.kv })
  | updated {rec : Record} : CallEnds kv tdef M vals db (.update rec)
      (.ok (true, none), { db with kv := written kv tdef vals db.kv })
  | deleted {rec : Record} {old : List Value} : M.lookup (pkOf tdef vals) = some old →
      CallEnds kv tdef M vals db (.delete rec) (dropRow kv tdef vals (codes old) db)
  | absent {rec : Record} : pkOf tdef vals ∉ M →
      CallEnds kv tdef M vals db (.delete rec) (.ok (false, none), db)

theorem call_ends (hkv : kv.IsMap) (hkeys : tdef.pkeys ≤ tdef.cols.length) {db : DB σ}
    {M : RowMap} (htab : db.tableDef table = some tdef) (hM : Holds kv tdef M db.kv)
    {call : Call} {vals : List Value} (h : Lays tdef call.record vals)
    (hsound : ∀ v ∈ vals, v.Sound) :
    CallEnds kv tdef M vals db call (call.run kv table db) := by
  have htyped : ∀ v ∈ vals, v.Typed := fun v hv => (hsound v hv).typed
  have hsome := hM.isSome_iff (tidy_pkOf tdef hsound)
  rw [← rowKey_eq] at hsome
  cases call with
  | insert rec =>
      change Lays tdef rec vals at h
      rw [run_insert htab]
      by_cases hin : pkOf tdef vals ∈ M
      · rw [dbInsert_present h htyped hkeys db (hsome.mpr hin)]
        exact .duplicate hin
      · rw [dbUpdate_written hkv h htyped hkeys db 0 fun hc => hin (hsome.mp hc.2)]
        exact .inserted hin
  | update rec =>
      change Lays tdef rec vals at h
      rw [run_update htab, dbUpdate_written hkv h htyped hkeys db 1 (by simp)]
      exact .updated
  | delete rec =>
      change Lays tdef rec vals at h
      rw [run_delete htab]
      by_cases hin : pkOf tdef vals ∈ M
      · obtain ⟨old, hold⟩ := Option.isSome_iff_exists.mp (AList.lookup_isSome.mpr hin)
        have hstored := hM.bound hold
        rw [← rowKey_eq] at hstored
        rw [dbDelete_removes hkv h htyped hkeys db hstored]
        exact .deleted hold
      · rw [dbDelete_absent h htyped hkeys db (Option.not_isSome_iff_eq_none.mp (mt hsome.mp hin))]
        exact .absent hin

/-- One call, on a table that the store represents. -/
theorem represents_call (hkv : kv.IsMap) (hidx : tdef.indexes = [])
    (hkeys : tdef.pkeys ≤ tdef.cols.length) {db : DB σ} {M : RowMap}
    (htab : db.tableDef table = some tdef) (hM : Represents kv tdef M db.kv)
    {call : Call} (hcall : call.record.Proper) :
    ∃ ans db' M', call.run kv table db = (.ok ans, db') ∧ Step tdef M call ans M'
      ∧ (ans.1 = false → db' = db) ∧ db'.tableDef table = some tdef
      ∧ Represents kv tdef M' db'.kv := by
  obtain ⟨hlen, hrec⟩ := hcall
  rcases lays_or_refused hlen tdef with ⟨col, href⟩ | ⟨vals, h⟩
  · exact ⟨_, db, M, call_refused htab href, .refused href.named href.unknown,
      fun _ => rfl, htab, hM⟩
  have hsound := h.sound hrec
  have hholds := holds_iff.mpr hM
  have hset := holds_iff.mp (hholds.set hkv (tidy_pkOf tdef hsound) (tidy_restOf tdef hsound))
  have hwritten : written kv tdef vals db.kv
      = (kv.set db.kv (rowKey tdef vals) (codes (vals.drop tdef.pkeys))).2 := by
    rw [written, hidx]
    rfl
  rw [← rowKey_eq, codes_restOf, ← hwritten] at hset
  have hends := call_ends hkv hkeys htab hholds h hsound
  generalize call.run kv table db = r at hends ⊢
  cases hends with
  | duplicate hin => exact ⟨_, db, M, rfl, .duplicate h hin, fun _ => rfl, htab, hM⟩
  | inserted hnew => exact ⟨_, _, _, rfl, .inserted h hnew, by simp, htab, hset⟩
  | updated => exact ⟨_, _, _, rfl, .updated h, by simp, htab, hset⟩
  | absent hout => exact ⟨_, db, M, rfl, .absent h hout, fun _ => rfl, htab, hM⟩
  | deleted hold =>
      have hin := AList.lookup_isSome.mp (Option.isSome_iff_exists.mpr ⟨_, hold⟩)
      have hdel := holds_iff.mp (hholds.del hkv (tidy_pkOf tdef hsound))
      rw [← rowKey_eq] at hdel
      rw [dropRow, if_pos hidx]
      exact ⟨_, _, _, rfl, .deleted h hin, by simp, htab, hdel⟩

-- =========================================================== a run

theorem follows_of_represents (hkv : kv.IsMap) (hidx : tdef.indexes = [])
    (hkeys : tdef.pkeys ≤ tdef.cols.length) {calls : List Call}
    (hcalls : ∀ call ∈ calls, call.record.Proper) {db : DB σ} {M : RowMap}
    (htab : db.tableDef table = some tdef) (hM : Represents kv tdef M db.kv) :
    Follows kv table tdef db M calls := by
  induction calls generalizing db M with
  | nil => exact hM
  | cons call calls ih =>
      obtain ⟨hcall, hcalls⟩ := List.forall_mem_cons.mp hcalls
      obtain ⟨ans, db', M', hrun, hstep, hsame, htab', hM'⟩ :=
        represents_call hkv hidx hkeys htab hM hcall
      exact ⟨hM, ans, db', M', hrun, hstep, hsame, ih hcalls htab' hM'⟩

theorem represents_empty {s : σ} (h : ∀ k, Under tdef.pfx k → kv.get s k = none) :
    Represents kv tdef ∅ s := by
  refine holds_iff.mp ⟨fun hlook => ?_, fun hlook => ?_, fun {k v} hk hv => ?_⟩
  · rw [AList.lookup_empty] at hlook
    cases hlook
  · rw [AList.lookup_empty] at hlook
    cases hlook
  · rw [h k hk] at hv
    cases hv

end Svacara.Relational
