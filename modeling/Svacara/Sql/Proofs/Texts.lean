/-
Which SQL texts bring the engine down.

# The condition

`Safe` is about a text and the database it meets. CREATE, BEGIN, COMMIT,
ABORT, EXPLAIN, a text that does not parse and a text on a table that
does not exist are always safe. An INSERT must be `Insertable` and a
SELECT `Scannable`. UPDATE and DELETE hand the records they select back
to the table, and these lack the key columns, which are not stored with
the row; so the statement must select nothing.

# The run

Every entry that safe texts have stored is sane, so that scanning and
decoding never fault. The statements keep this one by one
(`execute_safe`), and a run by induction over its texts (`sane_after`).
The outputs of a select that was parsed are names, so no text reaches
`computeAggregates`.

The condition is next to exact: a text that returned was safe, or it was
an UPDATE or a DELETE and the first entry it selected was no row of its
table (`executeRaw_returned`).
-/
import Svacara.Sql.Proofs.Returns
import Svacara.Sql.Proofs.Select
import Mathlib.Data.List.TakeWhile

namespace Svacara.Sql

open Kvstore Relational Outcome

variable {σ : Type} {kv : Storage σ}

-- =================================================== the condition

/-- The scan of an UPDATE or a DELETE. -/
def Stmt.rewritten : Stmt → Option QLScan
  | .update stmt => some stmt.toQLScan
  | .delete stmt => some stmt.toQLScan
  | _ => none

/-- The statement is safe on a database with these entries. -/
def StmtSafe (db : DB σ) (entries : List (Bytes × Bytes)) : Stmt → Prop
  | .insert stmt =>
      ∀ tdef ∈ db.tableDef stmt.table, Insertable tdef stmt.names stmt.values
  | .select stmt => ∀ _tdef ∈ db.tableDef stmt.table, Scannable stmt.toQLScan
  | ast => ∀ scn ∈ ast.rewritten, ∀ tdef ∈ db.tableDef scn.table,
      Scannable scn ∧ selected tdef scn entries = []

instance (db : DB σ) (entries : List (Bytes × Bytes)) :
    (ast : Stmt) → Decidable (StmtSafe db entries ast)
  | .insert stmt => inferInstanceAs (Decidable (∀ _ ∈ db.tableDef stmt.table, _))
  | .select stmt => inferInstanceAs (Decidable (∀ _ ∈ db.tableDef stmt.table, _))
  | .update stmt => inferInstanceAs (Decidable (∀ _ ∈ (Stmt.update stmt).rewritten, _))
  | .delete stmt => inferInstanceAs (Decidable (∀ _ ∈ (Stmt.delete stmt).rewritten, _))
  | .createTable _ => isTrue nofun
  | .createIndex _ => isTrue nofun
  | .explain _ => isTrue nofun
  | .text _ => isTrue nofun
  | .unknown _ => isTrue nofun

/-- The first entry that an UPDATE or a DELETE selects has a value for
each column of the table: it is no row of the table, whose key columns
are not among its values, but an entry of another table or of an index
under the same prefix. -/
def StmtForeign (db : DB σ) (entries : List (Bytes × Bytes)) (ast : Stmt) : Prop :=
  ∃ scn ∈ ast.rewritten, ∃ tdef ∈ db.tableDef scn.table,
    ∃ e ∈ (selected tdef scn entries).head?,
      tdef.cols.length ≤ (recordOf tdef e).vals.length

variable (content : σ → List (Bytes × Bytes))

def Safe (input : Bytes) (db : DB σ) : Prop :=
  ∀ ast, parse input = .ok (.ok ast) → StmtSafe db (content db.kv) ast

instance (input : Bytes) (db : DB σ) : Decidable (Safe content input db) :=
  match h : parse input with
  | .ok (.ok ast) => decidable_of_iff (StmtSafe db (content db.kv) ast)
      ⟨fun hsafe ast' hast => by cases h.symm.trans hast; exact hsafe, fun hsafe => hsafe ast h⟩
  | .ok (.error _) => isTrue fun _ hast => nomatch h.symm.trans hast
  | .error _ => isTrue fun _ hast => nomatch h.symm.trans hast

def Foreign (input : Bytes) (db : DB σ) : Prop :=
  ∃ ast, parse input = .ok (.ok ast) ∧ StmtForeign db (content db.kv) ast

/-- Each text of a run is safe where it is executed. -/
def AllSafe (kv : Storage σ) : List Bytes → DB σ → Prop
  | [], _ => True
  | input :: texts, db => Safe content input db ∧ AllSafe kv texts (executeRaw kv input db).2

instance : (texts : List Bytes) → (db : DB σ) → Decidable (AllSafe content kv texts db)
  | [], _ => isTrue trivial
  | input :: texts, db =>
      have := instDecidableAllSafe texts (executeRaw kv input db).2
      inferInstanceAs (Decidable (_ ∧ _))

variable {content}

-- ================================================== parsed selects

theorem pSelect_output {s r : Bytes} {stmt : QLSelect} (h : pSelect s = .ok (stmt, r)) :
    ∀ o ∈ stmt.output, o.type = .ident := by
  obtain ⟨⟨names, t⟩, -, h⟩ := bind_eq_ok.mp h
  obtain ⟨⟨scan, u⟩, -, h⟩ := bind_eq_ok.mp h
  cases h
  simp

theorem asStmt_inv {α : Type} {wrap : α → Stmt} {p : Production α} {s r : Bytes} {ast : Stmt}
    (h : asStmt wrap p s = .ok (ast, r)) : ∃ a, p s = .ok (a, r) ∧ ast = wrap a := by
  obtain ⟨⟨a, t⟩, ha, h⟩ := bind_eq_ok.mp h
  cases h
  exact ⟨a, ha, rfl⟩

theorem asStmt_ne {α : Type} {wrap : α → Stmt} {p : Production α} {s r : Bytes} {ast : Stmt}
    (hne : ∀ a, ast ≠ wrap a) : asStmt wrap p s ≠ .ok (ast, r) := fun h => by
  obtain ⟨a, -, heq⟩ := asStmt_inv h
  exact hne a heq

theorem pStmt_select {s r : Bytes} {stmt : QLSelect} (h : pStmt s = .ok (.select stmt, r)) :
    ∀ o ∈ stmt.output, o.type = .ident := by
  unfold pStmt at h
  split at h
  · cases h
  · exact absurd h (asStmt_ne fun _ => nofun)
  · exact absurd h (asStmt_ne fun _ => nofun)
  · obtain ⟨a, ha, heq⟩ := asStmt_inv h
    cases heq
    exact pSelect_output ha
  · exact absurd h (asStmt_ne fun _ => nofun)
  · exact absurd h (asStmt_ne fun _ => nofun)
  · exact absurd h (asStmt_ne fun _ => nofun)
  · exact absurd h (asStmt_ne fun _ => nofun)
  · cases h
  · cases h
  · cases h

theorem parse_ok {input : Bytes} {ast : Stmt} (h : parse input = .ok (.ok ast)) :
    ∃ r, pStmt input = .ok (ast, r) := by
  unfold parse at h
  obtain ⟨⟨a, r⟩, ha, h⟩ := bind_eq_ok.mp h
  dsimp only at h
  split at h
  · cases h
  · cases h
    exact ⟨r, ha⟩

theorem isAggregate_parsed {input : Bytes} {stmt : QLSelect}
    (h : parse input = .ok (.ok (.select stmt))) : isAggregate stmt = false := by
  obtain ⟨r, hr⟩ := parse_ok h
  have hident := pStmt_select hr
  unfold isAggregate
  rw [List.any_eq_false]
  intro o ho
  simp [hident o ho]

-- ================================================== the statements

@[simp] theorem withoutResult_returns (r : Run σ Unit) :
    (∃ out, (withoutResult r).1 = .ok out) ↔ ∃ out, r.1 = .ok out := by
  obtain ⟨r, db⟩ := r
  cases r <;> simp [withoutResult, Except.map]

@[simp] theorem dropAnswer_returns (r : Except Fault Answer × DB σ) :
    (∃ out, (dropAnswer r).1 = .ok out) ↔ ∃ a, r.1 = .ok a := by
  obtain ⟨r, db⟩ := r
  cases r with
  | error f => simp [dropAnswer]
  | ok a =>
      obtain ⟨b, e⟩ := a
      cases e <;> simp [dropAnswer]

@[simp] theorem dropAnswer_db (r : Except Fault Answer × DB σ) : (dropAnswer r).2 = r.2 := by
  obtain ⟨r, db⟩ := r
  cases r with
  | error f => rfl
  | ok a =>
      obtain ⟨b, e⟩ := a
      cases e <;> rfl

theorem createTable_kv (tdef : TableDef) (db : DB σ) : (createTable tdef db).2.kv = db.kv := by
  unfold createTable
  split
  · rfl
  split
  · rfl
  · rfl

theorem execCreateTable_outcome (stmt : QLCreateTable) (db : DB σ) :
    (∃ out, (execCreateTable stmt db).1 = .ok out)
      ∧ (execCreateTable stmt db).2.kv = db.kv := by
  unfold execCreateTable
  dsimp only
  split
  · exact ⟨⟨_, rfl⟩, createTable_kv _ db⟩
  · exact ⟨⟨_, rfl⟩, createTable_kv _ db⟩

theorem execCreateIndex_outcome (stmt : QLCreateIndex) (db : DB σ) :
    (∃ out, (execCreateIndex stmt db).1 = .ok out)
      ∧ (execCreateIndex stmt db).2.kv = db.kv := by
  unfold execCreateIndex
  split
  · exact ⟨⟨_, rfl⟩, rfl⟩
  · exact ⟨⟨_, rfl⟩, rfl⟩

theorem execInsert_outcome (hkv : kv.IsMap) (stmt : QLInsert) (db : DB σ) :
    ((∃ out, (execInsert kv stmt db).1 = .ok out)
        ↔ ∀ tdef ∈ db.tableDef stmt.table, Insertable tdef stmt.names stmt.values)
      ∧ (Sane kv db.kv → Sane kv (execInsert kv stmt db).2.kv) := by
  unfold execInsert Relational.insert onTable
  cases htable : db.tableDef stmt.table with
  | none => simp
  | some tdef =>
      have houtcome := dbInsert_outcome hkv tdef stmt.names stmt.values db
      simpa using houtcome

section

variable (hkv : kv.IsOrdered content) {db : DB σ} (hsane : Sane kv db.kv)

include hkv hsane

theorem execSelect_eq {stmt : QLSelect} (hagg : isAggregate stmt = false) {tdef : TableDef}
    (htable : db.tableDef stmt.table = some tdef) (h : Scannable stmt.toQLScan) :
    execSelect kv stmt db = .ok (.ok
      ((selected tdef stmt.toQLScan (content db.kv)).map (recordOf tdef))) := by
  unfold execSelect
  rw [htable]
  dsimp only
  rw [selectRecords_eq hkv hsane h, ok_bind, hagg]
  rfl

theorem execSelect_returns_iff {stmt : QLSelect} (hagg : isAggregate stmt = false) :
    (∃ out, execSelect kv stmt db = .ok out)
      ↔ ∀ _tdef ∈ db.tableDef stmt.table, Scannable stmt.toQLScan := by
  constructor
  · rintro ⟨out, h⟩ tdef htable
    unfold execSelect at h
    rw [Option.mem_def.mp htable] at h
    obtain ⟨rows, hrows, -⟩ := bind_eq_ok.mp h
    exact (selectRecords_returns_iff hkv hsane).mp ⟨rows, hrows⟩
  · intro h
    cases htable : db.tableDef stmt.table with
    | none => exact ⟨_, by unfold execSelect; rw [htable]⟩
    | some tdef => exact ⟨_, execSelect_eq hkv hsane hagg htable (h tdef htable)⟩

/-- With nothing selected there is nothing to hand back. -/
theorem onSelected_nothing {scn : QLScan} {call : Record → DB σ → Run σ Unit}
    (h : ∀ tdef ∈ db.tableDef scn.table,
      Scannable scn ∧ selected tdef scn (content db.kv) = []) :
    (∃ out, (onSelected kv scn call db).1 = .ok out)
      ∧ Sane kv (onSelected kv scn call db).2.kv := by
  unfold onSelected
  cases htable : db.tableDef scn.table with
  | none => exact ⟨⟨_, rfl⟩, hsane⟩
  | some tdef =>
      obtain ⟨hscan, hnil⟩ := h tdef htable
      have hselect : execSelect kv (selectAll scn) db = .ok (.ok
          ((selected tdef scn (content db.kv)).map (recordOf tdef))) :=
        execSelect_eq hkv hsane rfl htable hscan
      rw [hnil] at hselect
      simp only [hselect]
      exact ⟨⟨_, rfl⟩, hsane⟩

/-- If the call faults on records that are short of values, one that
returned has found none, or a long one in front. -/
theorem onSelected_returns {scn : QLScan} {call : Record → DB σ → Run σ Unit} {tdef : TableDef}
    (htable : db.tableDef scn.table = some tdef)
    (hshort : ∀ vals : List Value, vals.length < tdef.cols.length →
      ∃ f, (call ⟨tdef.colNames, vals⟩ db).1 = .error f)
    (h : ∃ out, (onSelected kv scn call db).1 = .ok out) :
    Scannable scn ∧ (selected tdef scn (content db.kv) = []
      ∨ ∃ e ∈ (selected tdef scn (content db.kv)).head?,
        tdef.cols.length ≤ (recordOf tdef e).vals.length) := by
  obtain ⟨out, h⟩ := h
  unfold onSelected at h
  rw [htable] at h
  dsimp only at h
  have hscan : Scannable scn := by
    have hreturns : ∃ out, execSelect kv (selectAll scn) db = .ok out := by
      cases hsel : execSelect kv (selectAll scn) db with
      | error f => simp [hsel] at h
      | ok out => exact ⟨out, rfl⟩
    exact (execSelect_returns_iff hkv hsane rfl).mp hreturns tdef htable
  have hselect : execSelect kv (selectAll scn) db = .ok (.ok
      ((selected tdef scn (content db.kv)).map (recordOf tdef))) :=
    execSelect_eq hkv hsane rfl htable hscan
  simp only [hselect] at h
  refine ⟨hscan, ?_⟩
  cases hsel : selected tdef scn (content db.kv) with
  | nil => exact Or.inl rfl
  | cons e rest =>
      refine Or.inr ⟨e, rfl, ?_⟩
      by_contra hlt
      obtain ⟨f, hf⟩ := hshort (recordOf tdef e).vals (by omega)
      rw [hsel, List.map_cons, eachRecord] at h
      rw [show (⟨tdef.colNames, (recordOf tdef e).vals⟩ : Record) = recordOf tdef e from rfl]
        at hf
      split at h
      · next heq =>
          rw [heq] at hf
          cases hf
      · rw [hf] at h
        cases h

end

-- ============================================ records without keys

theorem knownNames_colNames (tdef : TableDef) :
    knownNames tdef tdef.colNames = tdef.colNames := by
  refine List.takeWhile_eq_self_iff.mpr fun c hc => ?_
  obtain ⟨col, hcol, rfl⟩ := List.mem_map.mp hc
  rw [TableDef.colIndex, List.findIdx?_isSome]
  exact List.any_eq_true.mpr ⟨col, hcol, by simp⟩

/-- A record of all columns with too few values is indexed out of
range. -/
theorem checkRecord_colNames {tdef : TableDef} {vals : List Value}
    (h : vals.length < tdef.cols.length) (n : Nat) :
    ∃ f, checkRecord tdef ⟨tdef.colNames, vals⟩ n = .error f := by
  have hknown : (knownNames tdef tdef.colNames).length = tdef.cols.length := by
    rw [knownNames_colNames, TableDef.colNames, List.length_map]
  have houtcome := layOut_outcome tdef vals 0 tdef.colNames (defaults tdef)
  rcases houtcome with ⟨f, hrun, -⟩ | ⟨henough, -⟩
  · refine ⟨f, ?_⟩
    unfold checkRecord
    rw [hrun]
    rfl
  · have := henough vals.length (by omega)
    omega

theorem assign_length {values : List QLNode} {cols : List Bytes} {i : Nat} {names : List Bytes}
    {vals out : List Value} (h : assign values cols i names vals = .ok out) :
    out.length = vals.length := by
  induction names generalizing i vals with
  | nil =>
      cases h
      rfl
  | cons name names ih =>
      unfold assign at h
      split at h
      · exact ih h
      split at h
      · cases h
      split at h
      · simpa using ih h
      · cases h

section

variable {tdef : TableDef} {table : Bytes} {db : DB σ}
  (htable : db.tableDef table = some tdef) {vals : List Value}
  (hlen : vals.length < tdef.cols.length)

include htable hlen

theorem update_short : ∃ f, (update kv table ⟨tdef.colNames, vals⟩ db).1 = .error f := by
  obtain ⟨f, hf⟩ := checkRecord_colNames hlen tdef.cols.length
  unfold update onTable dbUpdate
  rw [htable]
  simp only [hf]
  exact ⟨f, rfl⟩

theorem delete_short : ∃ f, (delete kv table ⟨tdef.colNames, vals⟩ db).1 = .error f := by
  obtain ⟨f, hf⟩ := checkRecord_colNames hlen tdef.pkeys
  unfold delete onTable dbDelete
  rw [htable]
  simp only [hf]
  exact ⟨f, rfl⟩

end

theorem dropAnswer_fault {r : Except Fault Answer × DB σ} (h : ∃ f, r.1 = .error f) :
    ∃ f, (dropAnswer r).1 = .error f := by
  obtain ⟨r, db⟩ := r
  obtain ⟨f, rfl⟩ := h
  exact ⟨f, rfl⟩

theorem updateRecord_short {stmt : QLUpdate} {tdef : TableDef} {db : DB σ}
    (htable : db.tableDef stmt.table = some tdef) {vals : List Value}
    (hlen : vals.length < tdef.cols.length) :
    ∃ f, (updateRecord kv stmt ⟨tdef.colNames, vals⟩ db).1 = .error f := by
  unfold updateRecord
  split
  · next f hf => exact ⟨f, rfl⟩
  · next vals' hvals' =>
      have hlen' : vals'.length = vals.length := assign_length hvals'
      exact dropAnswer_fault (update_short htable (by omega))

-- ======================================================== the step

theorem rewritten_returned {db : DB σ} {entries : List (Bytes × Bytes)} {ast : Stmt}
    {scn : QLScan} (hast : ast.rewritten = some scn)
    (h : ∀ tdef, db.tableDef scn.table = some tdef →
      Scannable scn ∧ (selected tdef scn entries = []
        ∨ ∃ e ∈ (selected tdef scn entries).head?,
          tdef.cols.length ≤ (recordOf tdef e).vals.length)) :
    (∀ scn ∈ ast.rewritten, ∀ tdef ∈ db.tableDef scn.table,
        Scannable scn ∧ selected tdef scn entries = [])
      ∨ StmtForeign db entries ast := by
  cases htable : db.tableDef scn.table with
  | none =>
      refine Or.inl fun scn' hscn' tdef htdef => ?_
      rw [hast] at hscn'
      cases hscn'
      rw [htable] at htdef
      cases htdef
  | some tdef =>
      obtain ⟨hscan, hnil | hlong⟩ := h tdef htable
      · refine Or.inl fun scn' hscn' tdef' htdef' => ?_
        rw [hast] at hscn'
        cases hscn'
        rw [htable] at htdef'
        cases htdef'
        exact ⟨hscan, hnil⟩
      · exact Or.inr ⟨scn, hast, tdef, htable, hlong⟩

section

variable (hkv : kv.IsOrdered content) {db : DB σ} (hsane : Sane kv db.kv) {input : Bytes}
  {ast : Stmt} (hparse : parse input = .ok (.ok ast))

include hkv hsane hparse

/-- A safe statement returns and leaves the store sane. -/
theorem execute_safe (h : StmtSafe db (content db.kv) ast) :
    (∃ out, (execute kv ast db).1 = .ok out) ∧ Sane kv (execute kv ast db).2.kv := by
  cases ast with
  | createTable stmt =>
      obtain ⟨hreturns, hdb⟩ := execCreateTable_outcome stmt db
      exact ⟨(withoutResult_returns _).mpr hreturns, hdb ▸ hsane⟩
  | createIndex stmt =>
      obtain ⟨hreturns, hdb⟩ := execCreateIndex_outcome stmt db
      exact ⟨(withoutResult_returns _).mpr hreturns, hdb ▸ hsane⟩
  | insert stmt =>
      obtain ⟨hreturns, hkeeps⟩ := execInsert_outcome hkv.toIsMap stmt db
      exact ⟨(withoutResult_returns _).mpr (hreturns.mpr h), hkeeps hsane⟩
  | select stmt =>
      obtain ⟨out, hout⟩ :=
        (execSelect_returns_iff hkv hsane (isAggregate_parsed hparse)).mpr h
      refine ⟨⟨out.map .records, ?_⟩, hsane⟩
      simp only [execute, asRecords, hout]
      rfl
  | update stmt =>
      obtain ⟨hreturns, hkeeps⟩ := onSelected_nothing hkv hsane (h _ rfl)
      exact ⟨(withoutResult_returns _).mpr hreturns, hkeeps⟩
  | delete stmt =>
      obtain ⟨hreturns, hkeeps⟩ := onSelected_nothing hkv hsane (h _ rfl)
      exact ⟨(withoutResult_returns _).mpr hreturns, hkeeps⟩
  | text t => exact ⟨⟨_, rfl⟩, hsane⟩
  | explain stmt => exact ⟨⟨_, rfl⟩, hsane⟩
  | unknown rest => exact ⟨⟨_, rfl⟩, hsane⟩

/-- A statement that returned was safe, or found a foreign entry. -/
theorem execute_returned (h : ∃ out, (execute kv ast db).1 = .ok out) :
    StmtSafe db (content db.kv) ast ∨ StmtForeign db (content db.kv) ast := by
  cases ast with
  | createTable stmt => exact Or.inl nofun
  | createIndex stmt => exact Or.inl nofun
  | text t => exact Or.inl nofun
  | explain stmt => exact Or.inl nofun
  | unknown rest => exact Or.inl nofun
  | insert stmt =>
      exact Or.inl ((execInsert_outcome hkv.toIsMap stmt db).1.mp
        ((withoutResult_returns _).mp h))
  | select stmt =>
      refine Or.inl ((execSelect_returns_iff hkv hsane (isAggregate_parsed hparse)).mp ?_)
      obtain ⟨out, hout⟩ := h
      cases hsel : execSelect kv stmt db with
      | error f => simp [execute, asRecords, hsel, Except.map] at hout
      | ok out => exact ⟨out, rfl⟩
  | update stmt =>
      refine rewritten_returned rfl fun tdef htable => ?_
      exact onSelected_returns hkv hsane htable (fun _ hlen => updateRecord_short htable hlen)
        ((withoutResult_returns _).mp h)
  | delete stmt =>
      refine rewritten_returned rfl fun tdef htable => ?_
      exact onSelected_returns hkv hsane htable
        (fun _ hlen => dropAnswer_fault (delete_short htable hlen))
        ((withoutResult_returns _).mp h)

end

section

variable (hkv : kv.IsOrdered content)

include hkv

theorem executeRaw_safe {db : DB σ} (hsane : Sane kv db.kv) {input : Bytes}
    (h : Safe content input db) :
    (∃ out, (executeRaw kv input db).1 = .ok out) ∧ Sane kv (executeRaw kv input db).2.kv := by
  obtain ⟨r, hr⟩ := parse_returns input
  unfold executeRaw
  rw [hr]
  cases r with
  | error rest => exact ⟨⟨_, rfl⟩, hsane⟩
  | ok ast => exact execute_safe hkv hsane hr (h ast hr)

theorem executeRaw_returned {db : DB σ} (hsane : Sane kv db.kv) {input : Bytes}
    (h : ∃ out, (executeRaw kv input db).1 = .ok out) :
    Safe content input db ∨ Foreign content input db := by
  cases hr : parse input with
  | error f =>
      obtain ⟨r, hr'⟩ := parse_returns input
      rw [hr'] at hr
      cases hr
  | ok r =>
      cases r with
      | error rest =>
          refine Or.inl fun ast hast => ?_
          rw [hr] at hast
          cases hast
      | ok ast =>
          unfold executeRaw at h
          rw [hr] at h
          rcases execute_returned hkv hsane hr h with hsafe | hforeign
          · refine Or.inl fun ast' hast' => ?_
            rw [hr] at hast'
            cases hast'
            exact hsafe
          · exact Or.inr ⟨ast, hr, hforeign⟩

/-- Safe texts leave the store sane. -/
theorem sane_after {texts : List Bytes} {db : DB σ} (hsane : Sane kv db.kv)
    (hsafe : AllSafe content kv texts db) : Sane kv (afterTexts kv texts db).kv := by
  induction texts generalizing db with
  | nil => exact hsane
  | cons input texts ih =>
      exact ih (executeRaw_safe hkv hsane hsafe.1).2 hsafe.2

/-- Nothing is stored yet. -/
theorem sane_empty {s : σ} (hs : content s = []) : Sane kv s := by
  intro k v hget
  rw [hkv.get_eq, hs] at hget
  cases hget

end

/-- In every state that safe texts lead to from an empty database, a safe
text returns; and one that returns is safe, unless it is an UPDATE or a
DELETE that selects a foreign entry. -/
theorem safe_texts_return (hkv : kv.IsOrdered content) (s : σ) (hs : content s = [])
    (texts : List Bytes) (hsafe : AllSafe content kv texts (openDB s)) (input : Bytes) :
    (Safe content input (afterTexts kv texts (openDB s)) →
        ∃ out, (executeRaw kv input (afterTexts kv texts (openDB s))).1 = .ok out)
      ∧ ((∃ out, (executeRaw kv input (afterTexts kv texts (openDB s))).1 = .ok out) →
        Safe content input (afterTexts kv texts (openDB s))
          ∨ Foreign content input (afterTexts kv texts (openDB s))) := by
  have hsane : Sane kv (afterTexts kv texts (openDB s)).kv :=
    sane_after hkv (sane_empty hkv hs) hsafe
  exact ⟨fun h => (executeRaw_safe hkv hsane h).1, executeRaw_returned hkv hsane⟩

/-- A table `t` with the key column `a` and the column `b`. -/
def createT : String := "CREATE TABLE t (a int, b int, PRIMARY KEY (a))"

/-- What an empty database in memory becomes. -/
def databaseAfter (texts : List String) : DB Memory :=
  afterTexts memory (texts.map lit) (openDB Memory.empty)

theorem safe_texts_return_select :
    AllSafe Subtype.val memory [lit createT, lit "INSERT INTO t (a, b) VALUES (1, 2)"]
        (openDB Memory.empty)
      ∧ ∃ out, (executeRaw memory (lit "SELECT * FROM t LIMIT 1")
        (databaseAfter [createT, "INSERT INTO t (a, b) VALUES (1, 2)"])).1 = .ok out := by
  have hsafe : AllSafe Subtype.val memory
      [lit createT, lit "INSERT INTO t (a, b) VALUES (1, 2)"] (openDB Memory.empty) := by
    decide +kernel
  exact ⟨hsafe, (safe_texts_return memory_isOrdered Memory.empty rfl _ hsafe
    (lit "SELECT * FROM t LIMIT 1")).1 (by decide +kernel)⟩

/-- How a text faults, if it does. -/
def faultAfter (texts : List String) (input : String) : Option Fault :=
  match (executeRaw memory (lit input) (databaseAfter texts)).1 with
  | .ok _ => none
  | .error f => some f

/-- Fewer values than names; and a key list longer than the column list,
an expression that is not evaluated, an UPDATE, a DELETE. -/
theorem texts_panic :
    (∀ out, (executeRaw memory (lit "INSERT INTO t (a, b) VALUES (1)")
        (afterTexts memory [lit createT] (openDB Memory.empty))).1 ≠ .ok out)
      ∧ faultAfter ["CREATE TABLE u (a int, PRIMARY KEY (a, b))"]
        "INSERT INTO u (a) VALUES (1)" = some .index
      ∧ faultAfter [createT] "INSERT INTO t (a, b) VALUES (1, 1 + 2)"
        = some (.panic "unknown type")
      ∧ faultAfter [createT, "INSERT INTO t (a, b) VALUES (1, 2)"]
        "UPDATE t SET b = 3 WHERE INDEX BY a = 1" = some .index
      ∧ faultAfter [createT, "INSERT INTO t (a, b) VALUES (1, 2)"]
        "DELETE FROM t WHERE LIMIT 1" = some .index := by
  refine ⟨fun out hout => ?_, by decide +kernel, by decide +kernel, by decide +kernel,
    by decide +kernel⟩
  have hfault : faultAfter [createT] "INSERT INTO t (a, b) VALUES (1)" = some .index := by
    decide +kernel
  have hok : (executeRaw memory (lit "INSERT INTO t (a, b) VALUES (1)")
      (databaseAfter [createT])).1 = .ok out := hout
  rw [faultAfter, hok] at hfault
  cases hfault

end Svacara.Sql
