/-
Which primary keys are enforced.

A second row is a duplicate exactly if it agrees with the first on the
leading columns (`duplicate_iff_leading`), whatever their names. So the
declared key is enforced if it consists of the leading columns, in any
order. If it names another column, two rows that differ in that column
only are taken for duplicates (`enforced_iff_leading`).
-/
import Svacara.Sql.PrimaryKey
import Svacara.Relational.Proofs.Records

namespace Svacara.Sql

open Kvstore Relational Outcome

variable {σ : Type} {kv : Storage σ} {stmt : QLCreateTable} {ins ins₁ ins₂ : QLInsert}
  {db : DB σ}

-- ========================================================== values

/-- A node that has a value is a number or a text. -/
theorem evalNode_isKey {node : QLNode} (h : (evalNode node).type ≠ 0) :
    (evalNode node).IsKey ∧ (evalNode node).norm = evalNode node := by
  unfold evalNode at h ⊢
  split at h
  · exact ⟨Or.inl rfl, rfl⟩
  · exact ⟨Or.inr (Or.inl rfl), rfl⟩
  · exact ⟨Or.inr (Or.inl rfl), rfl⟩
  · exact absurd rfl h

theorem lookup_zip_some {α β : Type} [BEq α] [LawfulBEq α] {as : List α} {bs : List β}
    (hlen : bs.length = as.length) {a : α} (ha : a ∈ as) :
    ∃ b ∈ bs, (as.zip bs).lookup a = some b := by
  induction as generalizing bs with
  | nil => cases ha
  | cons a' as ih =>
      cases bs with
      | nil => cases hlen
      | cons b bs =>
          rw [List.zip_cons_cons, List.lookup_cons]
          by_cases heq : a = a'
          · exact ⟨b, List.mem_cons_self .., by rw [heq, beq_self_eq_true]⟩
          · obtain ⟨b', hb', hlook⟩ :=
              ih (Nat.succ.inj hlen) ((List.mem_cons.mp ha).resolve_left heq)
            have hbeq : (a == a') = false := by simpa using heq
            exact ⟨b', List.mem_cons_of_mem _ hb', by rw [hbeq]; exact hlook⟩

theorem lookup_zip_map {α β : Type} [BEq α] [LawfulBEq α] {as : List α} (f : α → β) {a : α}
    (ha : a ∈ as) : (as.zip (as.map f)).lookup a = some (f a) := by
  induction as with
  | nil => cases ha
  | cons a' as ih =>
      rw [List.map_cons, List.zip_cons_cons, List.lookup_cons]
      by_cases heq : a = a'
      · rw [heq, beq_self_eq_true]
      · have hbeq : (a == a') = false := by simpa using heq
        rw [hbeq]
        exact ih ((List.mem_cons.mp ha).resolve_left heq)

-- ====================================================== statements

/-- The table that the statement creates. -/
def QLCreateTable.tdef (stmt : QLCreateTable) : TableDef where
  name := stmt.table
  cols := stmt.cols.map fun c => { name := c.name, type := sqlTypeToColType c.type }
  pkeys := stmt.pkeys.length
  pfx := hashTableName stmt.table

theorem colNames_tdef (stmt : QLCreateTable) : stmt.tdef.colNames = stmt.colNames := by
  rw [TableDef.colNames, QLCreateTable.tdef, List.map_map]
  rfl

/-- A CREATE TABLE that succeeds adds its table and leaves the store. -/
theorem execCreateTable_ok (h : (execCreateTable stmt db).1 = .ok (.ok ())) :
    (execCreateTable stmt db).2
      = { db with tables := (stmt.table, stmt.tdef) :: db.tables } := by
  unfold execCreateTable createTable at h ⊢
  dsimp only at h ⊢
  by_cases hnew : (db.tableDef stmt.table).isSome
  · rw [if_pos hnew] at h
    cases h
  · rw [if_neg hnew] at h ⊢
    by_cases hkeys : stmt.pkeys.length < 1
    · rw [if_pos hkeys] at h
      cases h
    · rw [if_neg hkeys]
      rfl

theorem execInsert_snd {tdef : TableDef} (htab : db.tableDef ins.table = some tdef) :
    (execInsert kv ins db).2
      = (insert kv ins.table ⟨ins.names, evalNodes ins.values⟩ db).2 := by
  rw [execInsert, htab]
  dsimp only
  rcases insert kv ins.table ⟨ins.names, evalNodes ins.values⟩ db with ⟨ans, db'⟩
  cases ans with
  | error f => rfl
  | ok ans =>
      obtain ⟨done, err⟩ := ans
      cases err <;> rfl

theorem QLCreateTable.Declares.pkeys_le (h : stmt.Declares) :
    stmt.pkeys.length ≤ stmt.colNames.length :=
  (List.subperm_of_subset h.pkeys h.among).length_le

theorem QLCreateTable.Declares.length_leading (h : stmt.Declares) :
    stmt.leading.length = stmt.pkeys.length := by
  rw [leading, List.length_take, Nat.min_eq_left h.pkeys_le]

/-- The record of an INSERT that fills the table. -/
theorem QLCreateTable.Filled.complete (hf : stmt.Filled ins) (h : stmt.Declares) :
    Complete stmt.tdef ⟨ins.names, evalNodes ins.values⟩ where
  names := by
    rw [colNames_tdef]
    exact hf.names
  distinct := by
    rw [colNames_tdef]
    exact h.cols
  proper := by
    refine ⟨?_, fun v hv => ?_⟩
    · rw [evalNodes, List.length_map, hf.length]
    · obtain ⟨node, hnode, rfl⟩ := List.mem_map.mp hv
      exact (evalNode_isKey (hf.values node hnode)).1

/-- The key of a row is what the INSERT gives for the leading columns. -/
theorem QLCreateTable.Filled.pkOf_eq (hf : stmt.Filled ins) (h : stmt.Declares)
    {vals : List Value} (hlays : Lays stmt.tdef ⟨ins.names, evalNodes ins.values⟩ vals) :
    (pkOf stmt.tdef vals).map some = stmt.leading.map ins.given := by
  have hlen : vals.length = stmt.colNames.length := by
    rw [hlays.length, ← colNames_tdef]
    exact (List.length_map ..).symm
  refine List.ext_getElem? fun j => ?_
  rw [pkOf, leading, List.getElem?_map, List.getElem?_map, List.getElem?_map,
    List.getElem?_take, List.getElem?_take]
  by_cases hj : j < stmt.pkeys.length
  · have hjc : j < stmt.colNames.length := Nat.lt_of_lt_of_le hj h.pkeys_le
    have hname : stmt.colNames[j]? = some stmt.colNames[j] := List.getElem?_eq_getElem hjc
    have hmem : stmt.colNames[j] ∈ ins.names :=
      hf.names.mem_iff.mpr (List.getElem_mem hjc)
    have hsame : (evalNodes ins.values).length = ins.names.length := by
      rw [evalNodes, List.length_map, hf.length]
    obtain ⟨v, hv, hlook⟩ := lookup_zip_some hsame hmem
    have hval : vals[j]? = some v := by
      rw [layOut_lookup (by rw [colNames_tdef]; exact h.cols)
        (hf.names.nodup_iff.mpr h.cols) (length_defaults _) hlays.layout
        (by rw [colNames_tdef]; exact hname), List.drop_zero, hlook]
      rfl
    have hnorm : v.norm = v := by
      obtain ⟨node, hnode, rfl⟩ := List.mem_map.mp hv
      exact (evalNode_isKey (hf.values node hnode)).2
    have hjt : j < stmt.tdef.pkeys := hj
    rw [if_pos hj, if_pos hjt, hname, hval, Option.map_some, Option.map_some, Option.map_some,
      hnorm]
    exact congrArg some hlook.symm
  · have hjt : ¬ j < stmt.tdef.pkeys := hj
    rw [if_neg hj, if_neg hjt]
    rfl

-- ============================================================ keys

/-- After one row the second is a duplicate exactly if it agrees with the
first on the leading columns. -/
theorem duplicate_iff_leading (hkv : kv.IsMap) (h : stmt.Declares)
    (hcreate : (execCreateTable stmt db).1 = .ok (.ok ()))
    (hfresh : ∀ k, Under (hashTableName stmt.table) k → kv.get db.kv k = none)
    (h₁ : stmt.Filled ins₁) (h₂ : stmt.Filled ins₂) :
    Duplicate kv ins₂ (execInsert kv ins₁ (execCreateTable stmt db).2).2
      ↔ ∀ col ∈ stmt.leading, ins₁.given col = ins₂.given col := by
  rw [execCreateTable_ok hcreate]
  have htab : ({ db with tables := (stmt.table, stmt.tdef) :: db.tables } : DB σ).tableDef
      stmt.table = some stmt.tdef := List.lookup_cons_self
  have hkeys : stmt.tdef.pkeys ≤ stmt.tdef.cols.length := by
    have hle := h.pkeys_le
    rw [← colNames_tdef, TableDef.colNames, List.length_map] at hle
    exact hle
  have hc₁ := h₁.complete h
  have hc₂ := h₂.complete h
  have hruns : Follows kv stmt.table stmt.tdef _ ∅
      [.insert ⟨ins₁.names, evalNodes ins₁.values⟩,
        .insert ⟨ins₂.names, evalNodes ins₂.values⟩] :=
    follows_of_represents hkv rfl hkeys (by simpa using ⟨hc₁.proper, hc₂.proper⟩) htab
      (represents_empty hfresh)
  obtain ⟨-, ans₁, db₁, M₁, hrun₁, hstep₁, -, -, ans₂, db₂, M₂, hrun₂, hstep₂, -⟩ := hruns
  have hdb : (execInsert kv ins₁
      { db with tables := (stmt.table, stmt.tdef) :: db.tables }).2 = db₁ := by
    rw [execInsert_snd (by rw [h₁.table]; exact htab), h₁.table]
    exact congrArg Prod.snd hrun₁
  have hans : Duplicate kv ins₂ db₁ ↔ ans₂ = (false, none) := by
    rw [Duplicate, h₂.table]
    have hfst : (insert kv stmt.table ⟨ins₂.names, evalNodes ins₂.values⟩ db₁).1 = .ok ans₂ :=
      congrArg Prod.fst hrun₂
    rw [hfst, Except.ok.injEq]
  have hknown : ∀ {ins : QLInsert} {col : Bytes}, stmt.Filled ins → col ∈ ins.names →
      stmt.tdef.colIndex col ≠ none := by
    intro ins col hf hcol
    refine colIndex_of_mem ?_
    rw [colNames_tdef]
    exact hf.names.mem_iff.mp hcol
  rw [hdb, hans]
  cases hstep₁ with
  | refused hcol hnone => exact absurd hnone (hknown h₁ hcol)
  | duplicate _ hmem => exact absurd hmem (AList.notMem_empty _)
  | @inserted _ vals₁ hlays₁ _ =>
      have hsame : ∀ {vals₂ : List Value},
          Lays stmt.tdef ⟨ins₂.names, evalNodes ins₂.values⟩ vals₂ →
          (pkOf stmt.tdef vals₂ ∈ (∅ : RowMap).insert (pkOf stmt.tdef vals₁)
              (restOf stmt.tdef vals₁)
            ↔ ∀ col ∈ stmt.leading, ins₁.given col = ins₂.given col) := by
        intro vals₂ hlays₂
        rw [AList.mem_insert, or_iff_left (AList.notMem_empty _),
          ← (List.map_injective_iff.mpr (Option.some_injective _)).eq_iff,
          h₂.pkOf_eq h hlays₂, h₁.pkOf_eq h hlays₁, List.map_inj_left]
        exact forall₂_congr fun _ _ => eq_comm
      cases hstep₂ with
      | refused hcol hnone => exact absurd hnone (hknown h₂ hcol)
      | duplicate hlays₂ hmem => exact iff_of_true rfl ((hsame hlays₂).mp hmem)
      | inserted hlays₂ hnot =>
          exact iff_of_false (by simp) fun hall => hnot ((hsame hlays₂).mpr hall)

/-- The number `n` in a statement. -/
def number (n : Int64) : QLNode := { type := .i64, i64 := n }

/-- A row of numbers, given by the column. -/
def QLCreateTable.numbers (stmt : QLCreateTable) (f : Bytes → Int64) : QLInsert where
  table := stmt.table
  names := stmt.colNames
  values := stmt.colNames.map fun col => number (f col)

theorem filled_numbers (stmt : QLCreateTable) (f : Bytes → Int64) :
    stmt.Filled (stmt.numbers f) where
  table := rfl
  names := List.Perm.refl _
  length := List.length_map ..
  values node hnode := by
    obtain ⟨col, -, rfl⟩ := List.mem_map.mp hnode
    show typeInt64 ≠ 0
    decide

theorem given_numbers (f : Bytes → Int64) {col : Bytes} (hcol : col ∈ stmt.colNames) :
    (stmt.numbers f).given col = some { type := typeInt64, i64 := f col } := by
  rw [QLInsert.given, QLCreateTable.numbers, evalNodes, List.map_map, lookup_zip_map _ hcol]
  rfl

/-- The declared key is enforced exactly if it consists of the leading
columns of the table, in any order. -/
theorem enforced_iff_leading (hkv : kv.IsMap) (stmt : QLCreateTable) (h : stmt.Declares)
    (db : DB σ) (hcreate : (execCreateTable stmt db).1 = .ok (.ok ()))
    (hfresh : ∀ k, Under (hashTableName stmt.table) k → kv.get db.kv k = none) :
    Enforced kv stmt db ↔ stmt.pkeys.Perm stmt.leading := by
  constructor
  · intro henf
    refine (List.subperm_of_subset h.pkeys fun c hc => ?_).perm_of_length_le
      (Nat.le_of_eq h.length_leading)
    by_contra hout
    -- two rows of zeros, but for a one in the column that is not leading
    have hf₁ := filled_numbers stmt fun _ => 0
    have hf₂ := filled_numbers stmt fun col => if col = c then 1 else 0
    have hdup := (duplicate_iff_leading hkv h hcreate hfresh hf₁ hf₂).mpr fun col hcol => by
      have hmem : col ∈ stmt.colNames := List.mem_of_mem_take hcol
      have hne : col ≠ c := fun heq => hout (heq ▸ hcol)
      rw [given_numbers _ hmem, given_numbers _ hmem, if_neg hne]
    have hsame := (henf _ _ hf₁ hf₂).mp hdup c hc
    rw [given_numbers _ (h.among c hc), given_numbers _ (h.among c hc), if_pos rfl] at hsame
    exact absurd hsame (by decide)
  · intro hperm ins₁ ins₂ h₁ h₂
    rw [duplicate_iff_leading hkv h hcreate hfresh h₁ h₂]
    exact forall_congr' fun col => by rw [hperm.mem_iff]

/-- Two columns of numbers, with a key. -/
def twoColumns (pkeys : List Bytes) : QLCreateTable where
  table := [116]
  cols := [⟨[97], .i64⟩, ⟨[98], .i64⟩]
  pkeys := pkeys

/-- Both columns, the second one first. -/
theorem enforced_iff_leading_both :
    (twoColumns [[98], [97]]).pkeys.Perm (twoColumns [[98], [97]]).leading
      ∧ Enforced memory (twoColumns [[98], [97]]) (openDB Memory.empty) := by
  have hperm : (twoColumns [[98], [97]]).pkeys.Perm
      (twoColumns [[98], [97]]).leading := by
    decide
  refine ⟨hperm, (enforced_iff_leading memory_isOrdered.toIsMap _ ⟨?_, ?_, ?_⟩ _ rfl ?_).mpr
    hperm⟩
  · decide
  · decide
  · decide
  · exact fun _ _ => rfl

/-- The key is the second column, and two rows that differ in it are
taken for duplicates because they agree on the first. -/
theorem second_column_not_enforced :
    let stmt := twoColumns [[98]]
    let ins₁ : QLInsert := ⟨[116], [[97], [98]], [number 1, number 2]⟩
    let ins₂ : QLInsert := ⟨[116], [[97], [98]], [number 1, number 3]⟩
    Duplicate memory ins₂
        (execInsert memory ins₁ (execCreateTable stmt (openDB Memory.empty)).2).2
      ∧ ins₁.given ([98]) ≠ ins₂.given ([98])
      ∧ ¬ Enforced memory stmt (openDB Memory.empty) := by
  intro stmt ins₁ ins₂
  have hdup : Duplicate memory ins₂
      (execInsert memory ins₁ (execCreateTable stmt (openDB Memory.empty)).2).2 := by
    unfold Duplicate
    decide +kernel
  have hne : ins₁.given ([98]) ≠ ins₂.given ([98]) := by
    decide
  refine ⟨hdup, hne, fun henf => hne ?_⟩
  refine (henf ins₁ ins₂ ⟨rfl, ?_, rfl, ?_⟩ ⟨rfl, ?_, rfl, ?_⟩).mp hdup _ (by decide)
  · decide
  · decide
  · decide
  · decide

end Svacara.Sql
