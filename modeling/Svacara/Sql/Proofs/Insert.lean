/-
What an INSERT comes to.

# The condition

`checkRecord` goes through the names of the statement and takes a value
for each, up to the first name that no column has: there must be that
many values. If every name is known, the row is laid out, with the last
value given for a column where there are several, and is encoded: each
of its values must have a type, which only numbers, strings and
identifiers do, and the key columns must be there. A key column without
a type is reported as missing, and so never encoded, unless every column
is a key. `Insertable` says all this about the statement and the table.

# The result

An INSERT returns exactly if it is `Insertable` (`dbInsert_returns_iff`).
Whether it returns or not, all it writes are keys under a prefix and
values that decode (`dbInsert_sane`).
-/
import Svacara.Sql.Executor
import Svacara.Relational.Proofs.IndexKeys

namespace Svacara.Sql

open Kvstore Relational Outcome Buf

variable {σ : Type} {kv : Storage σ} {tdef : TableDef}

-- =================================================== the condition

/-- A node that `evalNode` has a value for. -/
def QLNode.literal (n : QLNode) : Bool := n.type = .i64 || n.type = .str || n.type = .ident

/-- The names in front of the first that no column has. -/
def knownNames (tdef : TableDef) (names : List Bytes) : List Bytes :=
  names.takeWhile fun c => (tdef.colIndex c).isSome

/-- Where the `j`-th column is named last. -/
def lastNamed (tdef : TableDef) (j : Nat) : List Bytes → Option Nat
  | [] => none
  | c :: names =>
      match lastNamed tdef j names with
      | some m => some (m + 1)
      | none => if tdef.colIndex c = some j then some 0 else none

/-- The expression that the `j`-th column gets. -/
def givenFor (tdef : TableDef) (names : List Bytes) (values : List QLNode) (j : Nat) :
    Option QLNode :=
  (lastNamed tdef j names).bind fun m => values[m]?

/-- Every column has a value to store. -/
def Storable (tdef : TableDef) (names : List Bytes) (values : List QLNode) : Prop :=
  tdef.pkeys ≤ tdef.cols.length
    ∧ ∀ j < tdef.cols.length, (givenFor tdef names values j).all QLNode.literal

/-- A key column is reported as missing. -/
def KeyMissing (tdef : TableDef) (names : List Bytes) (values : List QLNode) : Prop :=
  tdef.pkeys ≠ tdef.cols.length
    ∧ ∃ j < tdef.pkeys, (givenFor tdef names values j).any fun n => !n.literal

instance (tdef : TableDef) (names : List Bytes) (values : List QLNode) :
    Decidable (Storable tdef names values) := inferInstanceAs (Decidable (_ ∧ _))

instance (tdef : TableDef) (names : List Bytes) (values : List QLNode) :
    Decidable (KeyMissing tdef names values) := inferInstanceAs (Decidable (_ ∧ _))

structure Insertable (tdef : TableDef) (names : List Bytes) (values : List QLNode) : Prop where
  enough : (knownNames tdef names).length ≤ values.length
  stored : (∀ c ∈ names, tdef.colIndex c ≠ none) →
    Storable tdef names values ∨ KeyMissing tdef names values

theorem insertable_iff {names : List Bytes} {values : List QLNode} :
    Insertable tdef names values ↔ (knownNames tdef names).length ≤ values.length
      ∧ ((∀ c ∈ names, tdef.colIndex c ≠ none) →
        Storable tdef names values ∨ KeyMissing tdef names values) :=
  ⟨fun h => ⟨h.enough, h.stored⟩, fun h => ⟨h.1, h.2⟩⟩

instance (tdef : TableDef) (names : List Bytes) (values : List QLNode) :
    Decidable (Insertable tdef names values) := decidable_of_iff' _ insertable_iff

-- ====================================================== evaluation

theorem evalNode_literal {n : QLNode} (h : n.literal) : (evalNode n).IsKey := by
  unfold QLNode.literal at h
  unfold evalNode
  cases ht : n.type <;> simp [ht, Value.IsKey] at h ⊢

theorem evalNode_other {n : QLNode} (h : n.literal = false) : evalNode n = {} := by
  unfold QLNode.literal at h
  unfold evalNode
  cases ht : n.type <;> simp [ht] at h ⊢

theorem evalNode_type (n : QLNode) : (evalNode n).type = 0 ↔ n.literal = false := by
  cases h : n.literal with
  | true => simp [type_ne_zero (evalNode_literal h).typed]
  | false => simp [evalNode_other h]

theorem evalNodes_typed_iff {nodes : List QLNode} :
    (∀ v ∈ evalNodes nodes, v.Typed) ↔ ∀ n ∈ nodes, n.literal := by
  unfold evalNodes
  rw [List.forall_mem_map]
  refine forall₂_congr fun n _ => ?_
  cases h : n.literal with
  | true => simp [(evalNode_literal h).typed]
  | false => simp [evalNode_other h, Value.Typed, Value.IsKey, typeInt64, typeBytes, typeBool,
      typeFloat64]

-- ====================================================== the layout

/-- The loop of `checkRecord` faults for want of a value, is stopped by a
name that no column has, or lays all values out. -/
theorem layOut_outcome (tdef : TableDef) (given : List Value) (i : Nat) (names : List Bytes)
    (vals : List Value) :
    (∃ f, layOut tdef given i names vals = .error f
        ∧ ∃ m < (knownNames tdef names).length, given.length ≤ i + m)
      ∨ (∀ m < (knownNames tdef names).length, i + m < given.length)
        ∧ ((∃ e, layOut tdef given i names vals = .ok (.error e)
            ∧ ∃ c ∈ names, tdef.colIndex c = none)
          ∨ ∃ out, layOut tdef given i names vals = .ok (.ok out)
            ∧ ∀ c ∈ names, tdef.colIndex c ≠ none) := by
  induction names generalizing i vals with
  | nil => exact Or.inr ⟨by simp [knownNames], Or.inr ⟨vals, rfl, by simp⟩⟩
  | cons c names ih =>
      unfold layOut
      cases hc : tdef.colIndex c with
      | none =>
          exact Or.inr ⟨by simp [knownNames, hc],
            Or.inl ⟨_, rfl, c, List.mem_cons_self .., hc⟩⟩
      | some j =>
          have hknown : (knownNames tdef (c :: names)).length
              = (knownNames tdef names).length + 1 := by
            simp [knownNames, hc]
          rw [hknown]
          by_cases hi : i < given.length
          · simp only [valAt_ok hi, ok_bind]
            rcases ih (i + 1) (vals.set j (given.get ⟨i, hi⟩)) with
              ⟨f, hrun, m, hm, hlen⟩ | ⟨hlen, hrun⟩
            · exact Or.inl ⟨f, hrun, m + 1, by omega, by omega⟩
            · refine Or.inr ⟨fun m hm => ?_, ?_⟩
              · cases m with
                | zero => exact hi
                | succ m =>
                    have := hlen m (by omega)
                    omega
              · rcases hrun with ⟨e, hrun, c', hc', hnone⟩ | ⟨out, hrun, hall⟩
                · exact Or.inl ⟨e, hrun, c', List.mem_cons_of_mem _ hc', hnone⟩
                · exact Or.inr ⟨out, hrun, List.forall_mem_cons.mpr ⟨by simp [hc], hall⟩⟩
          · have hout : valAt given i = .error .index := by
              simp [valAt, List.getElem?_eq_none (Nat.not_lt.mp hi)]
            exact Or.inl ⟨.index, by simp [hout], 0, by omega, by omega⟩

/-- Each column gets the value it was last given. -/
theorem layOut_get {given : List Value} {i : Nat} {names : List Bytes}
    {vals out : List Value} (h : layOut tdef given i names vals = .ok (.ok out)) {j : Nat}
    (hj : j < vals.length) :
    out[j]? = match lastNamed tdef j names with
      | some m => given[i + m]?
      | none => vals[j]? := by
  induction names generalizing i vals with
  | nil =>
      cases h
      rfl
  | cons c names ih =>
      unfold layOut at h
      cases hc : tdef.colIndex c with
      | none => simp [hc] at h
      | some j' =>
          rw [hc] at h
          obtain ⟨v, hv, h⟩ := bind_eq_ok.mp h
          have hgiven : given[i]? = some v := by
            unfold valAt at hv
            split at hv
            · next w hw =>
                cases hv
                exact hw
            · cases hv
          rw [ih h (by simpa using hj), lastNamed]
          cases lastNamed tdef j names with
          | some m => simp [Nat.add_assoc, Nat.add_comm 1 m]
          | none =>
              by_cases heq : j' = j
              · subst heq
                simp [hc, hgiven, hj]
              · simp [hc, heq]

theorem lastNamed_lt {j m : Nat} {names : List Bytes}
    (h : lastNamed tdef j names = some m) : j < tdef.cols.length := by
  induction names generalizing m with
  | nil => cases h
  | cons c names ih =>
      unfold lastNamed at h
      split at h
      · next m' hm' => exact ih hm'
      · split at h
        · next hc => exact colIndex_lt hc
        · cases h

section

variable {names : List Bytes} {values : List QLNode} {row : List Value}
  (h : Lays tdef ⟨names, evalNodes values⟩ row)

include h

/-- Each column has what the statement gives for it, or its default. -/
theorem row_get {j : Nat} (hj : j < tdef.cols.length) :
    ∃ v, row[j]? = some v ∧ match givenFor tdef names values j with
      | some n => v = evalNode n
      | none => v.Sound := by
  have hlen := h.length
  have hget := layOut_get h.layout (show j < (defaults tdef).length by simpa using hj)
  obtain ⟨v, hv⟩ : ∃ v, row[j]? = some v := ⟨_, List.getElem?_eq_getElem (by omega)⟩
  refine ⟨v, hv, ?_⟩
  rw [hv] at hget
  unfold givenFor
  cases hlast : lastNamed tdef j names with
  | none =>
      rw [hlast] at hget
      exact defaults_sound (List.mem_of_getElem? hget.symm)
  | some m =>
      rw [hlast] at hget
      simp only [Nat.zero_add, evalNodes, List.getElem?_map] at hget
      cases hn : values[m]? with
      | none => simp [hn] at hget
      | some n =>
          rw [hn] at hget
          simpa [hn] using hget

/-- A value in the row comes back from its code, or it has no type. -/
theorem row_sound_or {v : Value} (hv : v ∈ row) : v.Sound ∨ v.type = 0 := by
  rcases (layOut_ok h.layout).2.1 v hv with hdef | hgiven
  · exact Or.inl (defaults_sound hdef)
  · obtain ⟨n, -, rfl⟩ := List.mem_map.mp hgiven
    cases hn : n.literal with
    | true => exact Or.inl (evalNode_literal hn).sound
    | false => exact Or.inr ((evalNode_type n).mpr hn)

theorem row_typed_iff : (∀ v ∈ row, v.Typed)
    ↔ ∀ j < tdef.cols.length, (givenFor tdef names values j).all QLNode.literal := by
  have hlen := h.length
  constructor
  · intro htyped j hj
    obtain ⟨v, hv, hgiven⟩ := row_get h hj
    cases hn : givenFor tdef names values j with
    | none => rfl
    | some n =>
        rw [hn] at hgiven
        have hne := type_ne_zero (htyped v (List.mem_of_getElem? hv))
        rw [hgiven, Ne, evalNode_type] at hne
        simpa using hne
  · intro hall v hv
    obtain ⟨j, hj, hjv⟩ := List.getElem_of_mem hv
    obtain ⟨w, hw, hgiven⟩ := row_get h (show j < tdef.cols.length by omega)
    rw [List.getElem?_eq_getElem hj, hjv] at hw
    cases hw
    have hlit := hall j (by omega)
    cases hn : givenFor tdef names values j with
    | none =>
        rw [hn] at hgiven
        exact hgiven.typed
    | some n =>
        rw [hn] at hgiven hlit
        rw [hgiven]
        exact (evalNode_literal (by simpa using hlit)).typed

theorem row_untyped_iff {n : Nat} : (∃ v ∈ row.take n, v.type = 0)
    ↔ ∃ j < n, (givenFor tdef names values j).any fun n => !n.literal := by
  have hlen := h.length
  constructor
  · rintro ⟨v, hv, hzero⟩
    obtain ⟨j, hj, hjv⟩ := List.getElem_of_mem hv
    rw [List.length_take] at hj
    obtain ⟨w, hw, hgiven⟩ := row_get h (show j < tdef.cols.length by omega)
    rw [List.getElem_take] at hjv
    rw [List.getElem?_eq_getElem (by omega), hjv] at hw
    cases hw
    refine ⟨j, by omega, ?_⟩
    cases hn : givenFor tdef names values j with
    | none =>
        rw [hn] at hgiven
        exact absurd hzero (type_ne_zero hgiven.typed)
    | some n =>
        rw [hn] at hgiven
        rw [hgiven, evalNode_type] at hzero
        simp [hzero]
  · rintro ⟨j, hj, hany⟩
    cases hn : givenFor tdef names values j with
    | none => simp [hn] at hany
    | some m =>
        have hcol : j < tdef.cols.length := by
          obtain ⟨i, hi, -⟩ := Option.bind_eq_some_iff.mp hn
          exact lastNamed_lt hi
        obtain ⟨v, hv, hgiven⟩ := row_get h hcol
        rw [hn] at hgiven hany
        refine ⟨v, List.mem_of_getElem? (i := j) ?_, ?_⟩
        · rw [List.getElem?_take_of_lt hj, hv]
        · rw [hgiven, evalNode_type]
          simpa using hany

end

-- ===================================================== the outcome

/-- A value that decodes, under a key that has a prefix. -/
structure SaneEntry (k v : Bytes) : Prop where
  key : 4 ≤ k.length
  val : ∃ vals, (∀ w ∈ vals, w.Sound) ∧ v = codes vals

/-- Every entry of the store is one. -/
def Sane (kv : Storage σ) (s : σ) : Prop := ∀ k v, kv.get s k = some v → SaneEntry k v

theorem saneEntry_keyCode (p : UInt32) (pk : List Value) {vals : List Value}
    (hvals : ∀ v ∈ vals, v.Sound) : SaneEntry (keyCode p pk) (codes vals) :=
  ⟨by simp [keyCode], vals, hvals, rfl⟩

theorem Sane.set (hkv : kv.IsMap) {s : σ} (h : Sane kv s) {k v : Bytes}
    (hentry : SaneEntry k v) : Sane kv (kv.set s k v).2 := by
  intro k' v' hget
  by_cases hk : k' = k
  · subst hk
    rw [hkv.get_set] at hget
    cases hget
    exact hentry
  · rw [hkv.get_set_of_ne _ _ _ _ hk] at hget
    exact h k' v' hget

theorem Sane.setAll (hkv : kv.IsMap) {s : σ} (h : Sane kv s) {v : Bytes} {keys : List Bytes}
    (hentries : ∀ k ∈ keys, SaneEntry k v) : Sane kv (setAll kv v keys s) := by
  intro k' v' hget
  rw [get_setAll hkv] at hget
  split at hget
  · next hk =>
      cases hget
      exact hentries k' hk
  · exact h k' v' hget

section

variable (hkv : kv.IsMap) (tdef : TableDef) (names : List Bytes) (values : List QLNode)
  (db : DB σ)

include hkv

/-- A row without types missing is written, or is there already. -/
theorem dbInsert_row {rec : Record} {row : List Value} (h : Lays tdef rec row)
    (hsound : ∀ v ∈ row, v.Sound) (hkeys : tdef.pkeys ≤ tdef.cols.length) :
    (∃ a, (dbUpdate kv tdef rec 0 db).1 = .ok a)
      ∧ (Sane kv db.kv → Sane kv (dbUpdate kv tdef rec 0 db).2.kv) := by
  have htyped : ∀ v ∈ row, v.Typed := fun v hv => (hsound v hv).typed
  by_cases hin : (kv.get db.kv (rowKey tdef row)).isSome
  · rw [dbInsert_present h htyped hkeys db hin]
    exact ⟨⟨_, rfl⟩, id⟩
  · rw [dbUpdate_written hkv h htyped hkeys db 0 fun hnew => hin hnew.2]
    refine ⟨⟨_, rfl⟩, fun hsane => Sane.setAll hkv (hsane.set hkv ?_) ?_⟩
    · exact saneEntry_keyCode _ _ fun v hv => hsound v (List.mem_of_mem_drop hv)
    · intro k hk
      obtain ⟨idx, -, rfl⟩ := List.mem_map.mp hk
      exact saneEntry_keyCode _ _ fun v hv => hsound v (List.mem_of_mem_take hv)

/-- The INSERT of a row that is laid out. -/
theorem dbInsert_laid {row : List Value} (h : Lays tdef ⟨names, evalNodes values⟩ row) :
    ((∃ a, (dbUpdate kv tdef ⟨names, evalNodes values⟩ 0 db).1 = .ok a)
        ↔ Storable tdef names values ∨ KeyMissing tdef names values)
      ∧ (Sane kv db.kv → Sane kv (dbUpdate kv tdef ⟨names, evalNodes values⟩ 0 db).2.kv) := by
  have hlen := h.length
  unfold Storable KeyMissing
  rw [← row_typed_iff h, ← row_untyped_iff h]
  by_cases hmissing : tdef.pkeys ≠ tdef.cols.length ∧ ∃ v ∈ row.take tdef.pkeys, v.type = 0
  · obtain ⟨e, he⟩ := checkRecord_missing h hmissing.1 hmissing.2
    unfold dbUpdate
    simp only [he]
    exact ⟨⟨fun _ => Or.inr hmissing, fun _ => ⟨_, rfl⟩⟩, id⟩
  have hpk : tdef.pkeys = tdef.cols.length ∨ ∀ v ∈ row.take tdef.pkeys, v.type ≠ 0 := by
    by_contra hnot
    push Not at hnot
    exact hmissing hnot
  by_cases hkeys : tdef.pkeys ≤ tdef.cols.length
  · by_cases htyped : ∀ v ∈ row, v.Typed
    · have hsound : ∀ v ∈ row, v.Sound := fun v hv =>
        (row_sound_or h hv).resolve_right (type_ne_zero (htyped v hv))
      obtain ⟨hreturns, hsane⟩ := dbInsert_row hkv tdef db h hsound hkeys
      exact ⟨⟨fun _ => Or.inl ⟨hkeys, htyped⟩, fun _ => hreturns⟩, hsane⟩
    · obtain ⟨f, hf⟩ : ∃ f, rowEntry tdef row = .error f := rowEntry_untyped htyped
      unfold dbUpdate
      simp only [checkRecord_whole h hkeys hpk, hf]
      refine ⟨⟨fun hreturns => ?_, fun hcond => ?_⟩, id⟩
      · obtain ⟨a, ha⟩ := hreturns
        cases ha
      · exact absurd hcond (not_or.mpr ⟨fun hs => htyped hs.2, hmissing⟩)
  · -- more key columns than columns: the row is its own front part
    have htyped : ∀ v ∈ row, v.Typed := by
      have hall := hpk.resolve_left (by omega)
      rw [List.take_of_length_le (by omega)] at hall
      exact fun v hv => ((row_sound_or h hv).resolve_right (hall v hv)).typed
    unfold dbUpdate
    simp only [checkRecord_short h htyped (by omega)]
    refine ⟨⟨fun hreturns => ?_, fun hcond => ?_⟩, id⟩
    · obtain ⟨a, ha⟩ := hreturns
      cases ha
    · exact absurd hcond (not_or.mpr ⟨fun hs => hkeys hs.1, hmissing⟩)

/-- An INSERT returns exactly if it is insertable, and it leaves the
store sane. -/
theorem dbInsert_outcome :
    ((∃ a, (dbUpdate kv tdef ⟨names, evalNodes values⟩ 0 db).1 = .ok a)
        ↔ Insertable tdef names values)
      ∧ (Sane kv db.kv → Sane kv (dbUpdate kv tdef ⟨names, evalNodes values⟩ 0 db).2.kv) := by
  have hlen : (evalNodes values).length = values.length := List.length_map ..
  have houtcome := layOut_outcome tdef (evalNodes values) 0 names (defaults tdef)
  simp only [Nat.zero_add, hlen] at houtcome
  rcases houtcome with ⟨f, hrun, m, hm, hshort⟩
    | ⟨henough, ⟨e, hrun, c, hc, hnone⟩ | ⟨row, hrun, hall⟩⟩
  · have hcheck : checkRecord tdef ⟨names, evalNodes values⟩ tdef.cols.length = .error f := by
      unfold checkRecord
      rw [hrun]
      rfl
    unfold dbUpdate
    simp only [hcheck]
    refine ⟨⟨fun hreturns => ?_, fun hins => ?_⟩, id⟩
    · obtain ⟨a, ha⟩ := hreturns
      cases ha
    · have := hins.enough
      omega
  · have hcheck : checkRecord tdef ⟨names, evalNodes values⟩ tdef.cols.length
        = .ok (.error e) := by
      unfold checkRecord
      rw [hrun]
      rfl
    unfold dbUpdate
    simp only [hcheck]
    exact ⟨⟨fun _ => ⟨le_of_forall_lt henough, fun hknown => absurd hnone (hknown c hc)⟩,
      fun _ => ⟨_, rfl⟩⟩, id⟩
  · obtain ⟨hreturns, hsane⟩ := dbInsert_laid hkv tdef names values db ⟨hall, hrun⟩
    exact ⟨hreturns.trans ⟨fun hcond => ⟨le_of_forall_lt henough, fun _ => hcond⟩,
      fun hins => hins.stored hall⟩, hsane⟩

end

end Svacara.Sql
