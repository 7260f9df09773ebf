/-
What a row reads back as.

`dbGet` and `Scanner.record` both return all the column names of the
table and, beside them, only the values they decode: those of the
columns behind the key. The two lists are out of step by the number of
key columns, so the value found under a name is that of a later column,
and the names of the last columns have no value at all
(`get_row`, `record_row`). With a key of at least one column the last
column's is always missing, so no row comes back whole
(`round_trip_never`).
-/
import Svacara.Relational.Proofs.Rows

namespace Svacara.Relational

open Kvstore Buf Outcome

variable {σ : Type} {kv : Storage σ} {tdef : TableDef} {table : Bytes}

/-- A value of a key type for each column. A record names its columns, so
there is one for each only if no two columns share a name. -/
structure Complete (tdef : TableDef) (rec : Record) : Prop where
  names : rec.cols.Perm tdef.colNames
  distinct : tdef.colNames.Nodup
  proper : rec.Proper

/-- For every column the record read has the value of the record
written. -/
def RoundTrip (tdef : TableDef) (rec got : Record) : Prop :=
  ∀ c ∈ tdef.colNames, ∃ v i w j, rec.get c = .ok (v, i) ∧ got.get c = .ok (w, j)
    ∧ w.Same v

-- ================================================= the record read

/-- What both read paths return for a row laid out as `vals`. -/
def readBack (tdef : TableDef) (vals : List Value) : Record where
  cols := tdef.colNames
  vals := restOf tdef vals

theorem decode_row {vals : List Value} (h : ∀ v ∈ vals, v.Sound) :
    decodeValues (codes (vals.drop tdef.pkeys)) [] = .ok (restOf tdef vals) :=
  decode_codes (fun v hv => h v (List.mem_of_mem_drop hv)) []

/-- Tuples that agree on what counts have the same types. -/
theorem typed_of_map_norm {a b : List Value} (h : a.map Value.norm = b.map Value.norm)
    (hb : ∀ v ∈ b, v.Typed) : ∀ v ∈ a, v.Typed := by
  intro v hv
  have hmem : v.norm ∈ b.map Value.norm := h ▸ List.mem_map_of_mem hv
  obtain ⟨w, hw, heq⟩ := List.mem_map.mp hmem
  have htype : w.type = v.type := by
    simpa using congrArg Value.type heq
  have htyped := hb w hw
  unfold Value.Typed Value.IsKey at htyped ⊢
  rwa [htype] at htyped

/-- A read by the key columns, while the row's entry is there. -/
theorem get_row (hkeys : tdef.pkeys ≤ tdef.cols.length) {db : DB σ}
    (htab : db.tableDef table = some tdef) {vals w : List Value} {q : Record}
    (hvals : ∀ v ∈ vals, v.Sound)
    (hrow : kv.get db.kv (rowKey tdef vals) = some (codes (vals.drop tdef.pkeys)))
    (hq : Lays tdef q w) (hpk : pkOf tdef w = pkOf tdef vals) :
    get kv table q db = .ok (.ok (some (readBack tdef vals))) := by
  have htyped : ∀ v ∈ w.take tdef.pkeys, v.Typed := typed_of_map_norm hpk
    fun v hv => (hvals v (List.mem_of_mem_take hv)).typed
  have hkey : keyCode tdef.pfx (w.take tdef.pkeys) = rowKey tdef vals := by
    rw [show keyCode tdef.pfx (w.take tdef.pkeys) = rowKey tdef w from rfl, rowKey_eq, hpk,
      rowKey_eq]
  simp only [get, htab]
  unfold dbGet
  rw [checkRecord_pk hq hkeys, ok_bind]
  dsimp only
  rw [encodeKey_typed _ htyped, ok_bind, hkey, hrow]
  dsimp only
  rw [decode_row hvals]
  rfl

/-- A scanner that stands on the row's entry. -/
theorem record_row {vals : List Value} (hvals : ∀ v ∈ vals, v.Sound) {s : Scanner}
    (htdef : s.tdef = tdef) {key : Bytes}
    (hhead : s.iter.head? = some (key, codes (vals.drop tdef.pkeys))) :
    s.record = .ok (readBack tdef vals) := by
  obtain ⟨iter, hiter⟩ := List.head?_eq_some_iff.mp hhead
  unfold Scanner.record
  rw [hiter]
  dsimp only
  rw [decode_row hvals, htdef]
  rfl

-- ================================================= the last column

/-- Under a name that only the last column has, the record read has no
value: the code indexes past the end. -/
theorem readBack_last (hpos : 1 ≤ tdef.pkeys) (hkeys : tdef.pkeys ≤ tdef.cols.length)
    (hnodup : tdef.colNames.Nodup) {vals : List Value}
    (hlen : vals.length = tdef.cols.length) :
    ∃ c ∈ tdef.colNames, (readBack tdef vals).get c = .error .index := by
  have hnames : tdef.colNames.length = tdef.cols.length := by simp [TableDef.colNames]
  have hlast : tdef.cols.length - 1 < tdef.colNames.length := by omega
  refine ⟨tdef.colNames.get ⟨_, hlast⟩, List.get_mem .., ?_⟩
  cases hfind : tdef.colNames.findIdx? fun c => c = tdef.colNames.get ⟨_, hlast⟩ with
  | none =>
      have hall := List.findIdx?_eq_none_iff.mp hfind _ (List.get_mem _ ⟨_, hlast⟩)
      simp at hall
  | some i =>
      obtain ⟨hi, heq, -⟩ := List.findIdx?_eq_some_iff_getElem.mp hfind
      have hidx : i = tdef.cols.length - 1 :=
        (hnodup.getElem_inj_iff).mp (by simpa using heq)
      have hnone : (restOf tdef vals)[i]? = none := by
        rw [List.getElem?_eq_none_iff, restOf, List.length_map, List.length_drop]
        omega
      unfold Record.get
      rw [show (readBack tdef vals).cols = tdef.colNames from rfl, hfind]
      simp [valAt, readBack, hnone]

theorem not_roundTrip (hpos : 1 ≤ tdef.pkeys) (hkeys : tdef.pkeys ≤ tdef.cols.length)
    (hnodup : tdef.colNames.Nodup) {vals : List Value}
    (hlen : vals.length = tdef.cols.length) (rec : Record) :
    ¬ RoundTrip tdef rec (readBack tdef vals) := by
  intro h
  obtain ⟨c, hc, herr⟩ := readBack_last hpos hkeys hnodup hlen
  obtain ⟨v, i, w, j, -, hget, -⟩ := h c hc
  rw [herr] at hget
  cases hget

-- ====================================================== the insert

theorem colIndex_of_mem {c : Bytes} (h : c ∈ tdef.colNames) : tdef.colIndex c ≠ none := by
  intro hnone
  obtain ⟨col, hcol, rfl⟩ := List.mem_map.mp h
  have hall := List.findIdx?_eq_none_iff.mp hnone col hcol
  simp at hall

/-- A complete record is laid out. -/
theorem Complete.lays {rec : Record} (h : Complete tdef rec) : ∃ vals, Lays tdef rec vals := by
  rcases lays_or_refused h.proper.1 tdef with ⟨col, href⟩ | hlays
  · exact absurd href.unknown (colIndex_of_mem (h.names.mem_iff.mp href.named))
  · exact hlays

/-- The position of a column by its name. -/
theorem colIndex_eq_some_iff (hnodup : tdef.colNames.Nodup) {c : Bytes} {j : Nat} :
    tdef.colIndex c = some j ↔ tdef.colNames[j]? = some c := by
  have hlen : tdef.colNames.length = tdef.cols.length := List.length_map ..
  rw [TableDef.colIndex, List.findIdx?_eq_some_iff_getElem, List.getElem?_eq_some_iff]
  constructor
  · rintro ⟨hj, hname, -⟩
    refine ⟨hlen ▸ hj, ?_⟩
    rw [← of_decide_eq_true hname]
    exact List.getElem_map ..
  · rintro ⟨hj, hname⟩
    refine ⟨hlen ▸ hj, ?_, fun k hk hsame => ?_⟩
    · rw [decide_eq_true_eq, ← hname]
      exact (List.getElem_map ..).symm
    · -- an earlier column of the name would be the same one
      have hk' : k < tdef.colNames.length := Nat.lt_trans hk hj
      have heq : tdef.colNames[k] = tdef.colNames[j] := by
        rw [hname, ← of_decide_eq_true hsame]
        exact List.getElem_map ..
      exact absurd (hnodup.getElem_inj_iff.mp heq) (Nat.ne_of_lt hk)

/-- Each column has the value that the record gives for it. -/
theorem layOut_lookup (hnodup : tdef.colNames.Nodup) {given : List Value} {i : Nat}
    {cols : List Bytes} (hcols : cols.Nodup) {vals out : List Value}
    (hvals : vals.length = tdef.cols.length)
    (h : layOut tdef given i cols vals = .ok (.ok out)) {j : Nat} {c : Bytes}
    (hj : tdef.colNames[j]? = some c) :
    out[j]? = ((cols.zip (given.drop i)).lookup c).or vals[j]? := by
  induction cols generalizing i vals with
  | nil =>
      cases h
      rfl
  | cons col cols ih =>
      unfold layOut at h
      cases hcol : tdef.colIndex col with
      | none => simp [hcol] at h
      | some j₀ =>
          rw [hcol] at h
          obtain ⟨w, hw, h⟩ := bind_eq_ok.mp h
          obtain ⟨hi, rfl⟩ : ∃ hi : i < given.length, w = given.get ⟨i, hi⟩ := by
            unfold valAt at hw
            split at hw
            · next v hv =>
                cases hw
                obtain ⟨hi, hv⟩ := List.getElem?_eq_some_iff.mp hv
                exact ⟨hi, hv.symm⟩
            · cases hw
          rw [List.nodup_cons] at hcols
          have hrest := ih hcols.2 (by rw [List.length_set]; exact hvals) h
          rw [hrest, List.drop_eq_getElem_cons hi, List.zip_cons_cons, List.lookup_cons]
          by_cases heq : c = col
          · -- the column is not named again
            have hnone : (cols.zip (given.drop (i + 1))).lookup c = none := by
              rw [List.lookup_eq_none_iff]
              rintro ⟨c', v⟩ hmem
              have hc' := (List.of_mem_zip hmem).1
              rw [bne_iff_ne]
              rintro rfl
              exact hcols.1 (heq ▸ hc')
            have hjj : j₀ = j := by
              rw [← heq] at hcol
              have := (colIndex_eq_some_iff hnodup).mpr hj
              exact Option.some.inj (hcol.symm.trans this)
            have hlt : j < vals.length := by
              have hlen : tdef.colNames.length = tdef.cols.length := List.length_map ..
              have := (List.getElem?_eq_some_iff.mp hj).1
              omega
            rw [hnone, heq, hjj]
            simp [hlt]
          · have hne : j₀ ≠ j := by
              rintro rfl
              rw [colIndex_eq_some_iff hnodup, hj] at hcol
              exact heq (Option.some.inj hcol)
            have hbeq : (c == col) = false := by simpa using heq
            rw [hbeq, List.getElem?_set_ne hne]

/-- A write that was accepted found its key columns. -/
theorem pkeys_le_of_accepted {rec : Record} {mode : Nat} {db : DB σ} {e : Option DbErr}
    (h : (dbUpdate kv tdef rec mode db).1 = .ok (true, e)) :
    tdef.pkeys ≤ tdef.cols.length := by
  unfold dbUpdate at h
  split at h
  · cases h
  · cases h
  · next vals hcheck =>
      split at h
      · cases h
      · next key val hentry => exact pkeys_le_of_rowEntry hcheck hentry

/-- What an accepted insert of a complete record leaves. -/
theorem insert_accepted (hkv : kv.IsMap) (hidx : tdef.indexes = []) {db db' : DB σ}
    (htab : db.tableDef table = some tdef) {rec : Record} (hrec : Complete tdef rec)
    (hins : insert kv table rec db = (.ok (true, none), db')) :
    tdef.pkeys ≤ tdef.cols.length ∧ ∃ vals, Lays tdef rec vals ∧ (∀ v ∈ vals, v.Sound)
      ∧ kv.get db'.kv (rowKey tdef vals) = some (codes (vals.drop tdef.pkeys)) := by
  simp only [insert, onTable, htab] at hins
  have hkeys : tdef.pkeys ≤ tdef.cols.length :=
    pkeys_le_of_accepted (congrArg Prod.fst hins)
  obtain ⟨vals, hlays⟩ := hrec.lays
  have hsound := hlays.sound hrec.proper.2
  have htyped : ∀ v ∈ vals, v.Typed := fun v hv => (hsound v hv).typed
  refine ⟨hkeys, vals, hlays, hsound, ?_⟩
  by_cases hin : (kv.get db.kv (rowKey tdef vals)).isSome
  · rw [dbInsert_present hlays htyped hkeys db hin] at hins
    cases hins
  · rw [dbUpdate_writes hkv hlays htyped hkeys db 0 (fun hc => hin hc.2), hidx] at hins
    cases hins
    exact hkv.get_set ..

/-- Whatever complete record an insert accepted: while its row is stored,
neither a read by its key columns nor a scanner on it returns the
inserted value for every column. -/
theorem round_trip_never (hkv : kv.IsMap) (table : Bytes) (tdef : TableDef)
    (hidx : tdef.indexes = []) (hpos : 1 ≤ tdef.pkeys) (db db' : DB σ)
    (htab : db.tableDef table = some tdef) (rec : Record) (hrec : Complete tdef rec)
    (hins : insert kv table rec db = (.ok (true, none), db')) :
    ∃ vals val, Lays tdef rec vals ∧ kv.get db'.kv (rowKey tdef vals) = some val
      ∧ (∀ (later : DB σ) (q : Record) (w : List Value),
        later.tableDef table = some tdef →
        kv.get later.kv (rowKey tdef vals) = some val →
        Lays tdef q w → pkOf tdef w = pkOf tdef vals →
        ∃ got, get kv table q later = .ok (.ok (some got)) ∧ ¬ RoundTrip tdef rec got)
      ∧ ∀ s : Scanner, s.tdef = tdef → s.iter.head? = some (rowKey tdef vals, val) →
        ∃ got, s.record = .ok got ∧ ¬ RoundTrip tdef rec got := by
  obtain ⟨hkeys, vals, hlays, hsound, hrow⟩ := insert_accepted hkv hidx htab hrec hins
  have hnot := not_roundTrip hpos hkeys hrec.distinct hlays.length rec
  refine ⟨vals, _, hlays, hrow, fun later q w hlater hstill hq hpk => ?_,
    fun s htdef hhead => ?_⟩
  · exact ⟨_, get_row hkeys hlater hsound hstill hq hpk, hnot⟩
  · exact ⟨_, record_row hsound htdef hhead, hnot⟩

/-- Two integer columns, the first the key. -/
def pairs : TableDef where
  name := lit "pairs"
  cols := [⟨lit "a", .tInt64⟩, ⟨lit "b", .tInt64⟩]
  pkeys := 1
  pfx := hashTableName (lit "pairs")

def pairsDB : DB Memory := { kv := Memory.empty, tables := [(lit "pairs", pairs)] }

/-- The row (1, 2), its columns the other way round. -/
def oneTwo : Record :=
  ⟨[lit "b", lit "a"], [{ type := 1, i64 := 2 }, { type := 1, i64 := 1 }]⟩

theorem round_trip_never_oneTwo :
    ∃ vals val, Lays pairs oneTwo vals
      ∧ memory.get (insert memory (lit "pairs") oneTwo pairsDB).2.kv (rowKey pairs vals)
        = some val
      ∧ (∀ (later : DB Memory) (q : Record) (w : List Value),
        later.tableDef (lit "pairs") = some pairs →
        memory.get later.kv (rowKey pairs vals) = some val →
        Lays pairs q w → pkOf pairs w = pkOf pairs vals →
        ∃ got, get memory (lit "pairs") q later = .ok (.ok (some got))
          ∧ ¬ RoundTrip pairs oneTwo got)
      ∧ ∀ s : Scanner, s.tdef = pairs → s.iter.head? = some (rowKey pairs vals, val) →
        ∃ got, s.record = .ok got ∧ ¬ RoundTrip pairs oneTwo got :=
  round_trip_never memory_isOrdered.toIsMap (lit "pairs") pairs rfl (by decide) pairsDB
    _ (by decide +kernel) oneTwo ⟨by decide +kernel, by decide +kernel, by decide +kernel⟩
    (Prod.ext (by decide +kernel) rfl)

/-- Read back by its key, the row (1, 2) has the value 2 under the name
of the first column and panics at the second; a scan gives the same
record. -/
theorem oneTwo_reads_as_two :
    oneTwo.get (lit "a") = .ok ({ type := 1, i64 := 1 }, 1)
      ∧ get memory (lit "pairs") ⟨[lit "a"], [{ type := 1, i64 := 1 }]⟩
          (insert memory (lit "pairs") oneTwo pairsDB).2
        = .ok (.ok (some ⟨[lit "a", lit "b"], [{ type := 1, i64 := 2 }]⟩))
      ∧ (do
          let s ← scan memory pairs [] [] 0 0 (insert memory (lit "pairs") oneTwo pairsDB).2
          s.record) = .ok ⟨[lit "a", lit "b"], [{ type := 1, i64 := 2 }]⟩
      ∧ (⟨[lit "a", lit "b"], [{ type := 1, i64 := 2 }]⟩ : Record).get (lit "a")
        = .ok ({ type := 1, i64 := 2 }, 0)
      ∧ (⟨[lit "a", lit "b"], [{ type := 1, i64 := 2 }]⟩ : Record).get (lit "b")
        = .error .index := by
  decide +kernel

end Svacara.Relational
