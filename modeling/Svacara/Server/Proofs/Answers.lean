/-
The answer to a SELECT. The server looks for a value under each column of
a record; those that the executor makes of rows have none for the keys.
-/
import Svacara.Server.Proofs.Transactions

namespace Svacara.Serving

open Outcome Relational Sql
open Svacara.Kvstore

variable {σ : Type} {kv : Storage σ} {fmt : Formats} {cols : List Bytes}

theorem rowOf_ok {vals : List Value} {row out : Protocol.Row}
    (h : rowOf fmt cols vals row = .ok out) : cols.length ≤ vals.length := by
  induction cols generalizing vals row with
  | nil => exact Nat.zero_le _
  | cons col cols ih =>
      cases vals with
      | nil => cases h
      | cons v vals => exact Nat.succ_le_succ (ih h)

theorem rowsOf_ok {recs : List Record} {out : List Bytes × List Protocol.Row}
    (h : rowsOf fmt cols recs = .ok out) : ∀ rec ∈ recs, rec.cols.length ≤ rec.vals.length := by
  induction recs generalizing cols out with
  | nil => simp
  | cons rec recs ih =>
      obtain ⟨row, hrow, h⟩ := bind_eq_ok.mp h
      obtain ⟨rest, hrest, -⟩ := bind_eq_ok.mp h
      exact List.forall_mem_cons.mpr ⟨rowOf_ok hrow, ih hrest⟩

/-- In every database that safe texts lead to, a SELECT that finds a row
of its table is not answered: the server panics. -/
theorem own_row_not_answered {content : σ → List (Bytes × Bytes)} (hkv : kv.IsOrdered content)
    (s : σ) (hs : content s = []) (texts : List Bytes)
    (hsafe : AllSafe content kv texts (openDB s)) (srv : Server σ)
    (hdb : srv.db = afterTexts kv texts (openDB s)) (query : Bytes) (stmt : QLSelect)
    (hparse : parse query = .ok (.ok (.select stmt))) (tdef : TableDef)
    (htable : srv.db.tableDef stmt.table = some tdef) (row : List Value)
    (hrow : ∀ v ∈ row, v.Sound) (hlen : row.length = tdef.cols.length)
    (hkeys : 0 < tdef.pkeys ∧ tdef.pkeys ≤ row.length) (key : Bytes)
    (hmem : (key, codes (row.drop tdef.pkeys)) ∈
      selected tdef stmt.toQLScan (content srv.db.kv)) :
    ¬ ∃ r, handleQuery fmt kv srv query = .ok r := by
  rintro ⟨r, h⟩
  have hsane : Sane kv srv.db.kv := hdb ▸ sane_after hkv (sane_empty hkv hs) hsafe
  have hagg := isAggregate_parsed hparse
  simp only [handleQuery, executeRaw, hparse, execute, asRecords] at h
  cases hselect : execSelect kv stmt srv.db with
  | error f =>
      rw [hselect] at h
      cases h
  | ok out =>
      have hscan := (execSelect_returns_iff hkv hsane hagg).mp ⟨out, hselect⟩ tdef htable
      rw [execSelect_eq hkv hsane hagg htable hscan] at h
      obtain ⟨result, hresult, h⟩ := bind_eq_ok.mp h
      cases hresult
      obtain ⟨reply, hreply, -⟩ := bind_eq_ok.mp h
      obtain ⟨rows, hrows, -⟩ := bind_eq_ok.mp hreply
      have hvals := rowsOf_ok hrows _ (List.mem_map_of_mem hmem)
      rw [recordOf, decode_codes fun v hv => hrow v (List.mem_of_mem_drop hv)] at hvals
      simp only [TableDef.colNames, List.length_map, Except.toOption, Option.getD_some,
        List.nil_append, List.length_drop] at hvals
      omega

theorem own_row_not_answered_select :
    ¬ ∃ r, handleQuery plainFormats memory
      { newServer with db := databaseAfter [createT, "INSERT INTO t (a, b) VALUES (1, 2)"] }
      (lit "SELECT * FROM t LIMIT 1") = .ok r := by
  refine own_row_not_answered memory_isOrdered Memory.empty rfl
    [lit createT, lit "INSERT INTO t (a, b) VALUES (1, 2)"] (by decide +kernel) _ rfl _
    (selectAll { table := lit "t", limit := 1 }) (by with_unfolding_all rfl)
    ⟨lit "t", [⟨lit "a", .tInt64⟩, ⟨lit "b", .tInt64⟩], 1, [], 177689⟩ (by decide +kernel)
    [{ type := 1, i64 := 1 }, { type := 1, i64 := 2 }] (by decide) rfl (by decide)
    [0, 2, 182, 25, 1, 128, 0, 0, 0, 0, 0, 0, 1] ?_
  decide +kernel

end Svacara.Serving
