/-
What a SELECT comes to.

Where every entry of the store is sane, stepping the scanner and reading
its records never faults, so a select returns exactly if its keys encode
(`selectRecords_returns_iff`): if the operands of the two key expressions
are numbers, strings and identifiers (`Scannable`).

It then returns the records of a window over the entries scanned
(`selectRecords_eq`). The counter of the loop serves for skipping and for
limiting; it stays below the end of the window, and so never wraps. That
end is the sum of two numbers of the statement, and does.
-/
import Svacara.Sql.Proofs.Insert
import Svacara.Relational.Proofs.Scan

namespace Svacara.Sql

open Kvstore Relational Outcome SortedMap

variable {σ : Type} {kv : Storage σ} {T : TableDef}

-- ======================================================== the keys

/-- The operands of a key expression have values. -/
def KeyLiteral (key : QLNode) : Prop :=
  key.type ≠ .unknown → ∀ kid ∈ key.kids, kid.literal

instance (key : QLNode) : Decidable (KeyLiteral key) :=
  inferInstanceAs (Decidable (_ → ∀ kid ∈ key.kids, _))

/-- Both keys of a scan encode. -/
def Scannable (scn : QLScan) : Prop := KeyLiteral scn.key1 ∧ KeyLiteral scn.key2

instance (scn : QLScan) : Decidable (Scannable scn) := inferInstanceAs (Decidable (_ ∧ _))

theorem keyVals_typed_iff {key : QLNode} :
    (∀ v ∈ keyVals key, v.Typed) ↔ KeyLiteral key := by
  unfold keyVals KeyLiteral
  split
  · next h => simp [evalNodes_typed_iff, h]
  · next h => simp [h]

-- ===================================================== the scanner

instance (T : TableDef) (stop : List Value) (k : Bytes) : Decidable (Within T stop k) :=
  inferInstanceAs (Decidable (_ ∨ _))

/-- A key under the table's prefix, not behind the last bound. -/
def Visible (T : TableDef) (stop : List Value) (k : Bytes) : Prop :=
  keyPrefix k = .ok T.pfx ∧ Within T stop k

instance (T : TableDef) (stop : List Value) (k : Bytes) : Decidable (Visible T stop k) :=
  inferInstanceAs (Decidable (_ ∧ _))

/-- The record that the scanner makes of an entry. -/
def recordOf (T : TableDef) (e : Bytes × Bytes) : Record :=
  { cols := T.colNames, vals := (decodeValues e.2 []).toOption.getD [] }

section

variable {e : Bytes × Bytes} (he : SaneEntry e.1 e.2)

include he

theorem valid_sane (stop : List Value) (iter : List (Bytes × Bytes)) :
    Scanner.valid { tdef := T, iter := e :: iter, stop := stopKey T stop }
      = .ok (decide (Visible T stop e.1)) := by
  obtain ⟨key, val⟩ := e
  have hprefix : ∃ p, keyPrefix key = .ok p := ⟨_, if_pos he.key⟩
  obtain ⟨p, hp⟩ := hprefix
  have hpast := past_stop_iff T stop key
  unfold Scanner.valid Visible
  dsimp only
  split
  · next h => simp [hpast.mp h]
  · next h => simp [hp, not_not.mp (mt hpast.mpr h)]

theorem record_sane (stop : Bytes) (iter : List (Bytes × Bytes)) :
    Scanner.record { tdef := T, iter := e :: iter, stop } = .ok (recordOf T e) := by
  obtain ⟨key, val⟩ := e
  obtain ⟨vals, hvals, hval⟩ := he.val
  have hdec : decodeValues val [] = .ok (vals.map Value.norm) := by
    rw [show val = codes vals from hval, decode_codes hvals, List.nil_append]
  unfold Scanner.record recordOf
  simp [hdec, Except.toOption]

end

-- ====================================================== the window

/-- The entries at the positions from `a` to below `b`. -/
def slots {α : Type} (a b : Int) (es : List α) : List α :=
  (es.drop a.toNat).take (b - max 0 a).toNat

theorem toInt_succ {n : Int64} (h : n.toInt + 1 < 2 ^ 63) : (n + 1).toInt = n.toInt + 1 := by
  have hlow := n.le_toInt
  rw [Int64.toInt_add, Int64.toInt_one]
  apply Int.bmod_eq_of_le
  · omega
  · omega

theorem slots_map {α β : Type} (f : α → β) (a b : Int) (es : List α) :
    slots a b (es.map f) = (slots a b es).map f := by
  rw [slots, slots, List.map_take, List.map_drop]

/-- In front of the window an entry is skipped. -/
theorem slots_skip {α : Type} {a b : Int} (ha : 0 < a) (x : α) (xs : List α) :
    slots a b (x :: xs) = slots (a - 1) (b - 1) xs := by
  rw [slots, slots, show a.toNat = (a - 1).toNat + 1 by omega, List.drop_succ_cons]
  congr 1
  omega

/-- In the window it is taken. -/
theorem slots_take {α : Type} {a b : Int} (ha : a ≤ 0) (hb : 0 < b) (x : α) (xs : List α) :
    slots a b (x :: xs) = x :: slots (a - 1) (b - 1) xs := by
  rw [slots, slots, show a.toNat = 0 by omega, show (a - 1).toNat = 0 by omega,
    show (b - max 0 a).toNat = (b - 1 - max 0 (a - 1)).toNat + 1 by omega]
  rfl

/-- Nothing is in a window that ends before it starts. -/
theorem slots_closed {α : Type} {a b : Int} (h : b ≤ max 0 a) (es : List α) :
    slots a b es = [] := by
  rw [slots, show (b - max 0 a).toNat = 0 by omega, List.take_zero]

/-- The loop from `count` on, over rows that the scanner can yield. The
first case skips, the second is the end of the window, and both move the
window one row nearer. -/
theorem selectLoop_rows {stop : Bytes} (offset limit count : Int64)
    (hcount : 0 ≤ count.toInt) {iter : List (Bytes × Bytes)} {rows : List Record}
    (hrows : Scanner.collect T stop iter = .ok rows) :
    selectLoop T stop offset limit count iter
      = .ok (slots (offset.toInt - count.toInt) ((offset + limit).toInt - count.toInt) rows) := by
  induction iter generalizing count rows with
  | nil =>
      cases hrows
      simp [selectLoop, slots]
  | cons e iter ih =>
      have hoff := offset.toInt_lt
      have hend := (offset + limit).toInt_lt
      obtain ⟨valid, hvalid, hrows⟩ := bind_eq_ok.mp hrows
      unfold selectLoop
      dsimp only
      rw [hvalid, ok_bind]
      cases valid with
      | false =>
          obtain rfl : [] = rows := Except.ok.inj hrows
          simp [slots]
      | true =>
          obtain ⟨row, hrow, hrows⟩ := bind_eq_ok.mp hrows
          obtain ⟨rest, hrest, hrows⟩ := bind_eq_ok.mp hrows
          obtain rfl : row :: rest = rows := Except.ok.inj hrows
          simp only [if_true, Int64.lt_iff_toInt_lt, Int64.le_iff_toInt_le]
          split
          · next hlt =>
              have hsucc := toInt_succ (show count.toInt + 1 < 2 ^ 63 by omega)
              rw [ih (count + 1) (by omega) hrest, hsucc, slots_skip (by omega),
                Int.sub_sub, Int.sub_sub]
          · next hge =>
              split
              · next hstop => rw [slots_closed (by omega)]; rfl
              · next hmore =>
                  have hsucc := toInt_succ (show count.toInt + 1 < 2 ^ 63 by omega)
                  rw [hrow, ok_bind, ih (count + 1) (by omega) hrest, hsucc,
                    slots_take (by omega) (by omega), Int.sub_sub, Int.sub_sub]
                  rfl

/-- Over sane entries the scanner yields the records of those in sight. -/
theorem collect_sane (stop : List Value) {iter : List (Bytes × Bytes)}
    (hsane : ∀ e ∈ iter, SaneEntry e.1 e.2) :
    Scanner.collect T (stopKey T stop) iter
      = .ok ((iter.takeWhile fun e => Visible T stop e.1).map (recordOf T)) := by
  induction iter with
  | nil => rfl
  | cons e iter ih =>
      obtain ⟨he, hsane⟩ := List.forall_mem_cons.mp hsane
      unfold Scanner.collect
      dsimp only
      rw [valid_sane he, ok_bind, List.takeWhile_cons]
      by_cases hvis : Visible T stop e.1
      · simp only [hvis, decide_true, if_true]
        rw [record_sane he, ok_bind, ih hsane, ok_bind]
        rfl
      · simp only [hvis, decide_false]
        rfl

theorem selectLoop_eq (stop : List Value) (offset limit count : Int64)
    (hcount : 0 ≤ count.toInt) {iter : List (Bytes × Bytes)}
    (hsane : ∀ e ∈ iter, SaneEntry e.1 e.2) :
    selectLoop T (stopKey T stop) offset limit count iter
      = .ok ((slots (offset.toInt - count.toInt) ((offset + limit).toInt - count.toInt)
          (iter.takeWhile fun e => Visible T stop e.1)).map (recordOf T)) := by
  rw [selectLoop_rows offset limit count hcount (collect_sane stop hsane), slots_map]

-- ====================================================== the select

/-- The entries that the scan of a statement stands on. -/
def scanned (T : TableDef) (scn : QLScan) (entries : List (Bytes × Bytes)) :
    List (Bytes × Bytes) :=
  (fromFloor (keyCode T.pfx (keyVals scn.key1)) entries).takeWhile
    fun e => Visible T (keyVals scn.key2) e.1

/-- Those of them in the statement's window. The end of the window is a
sum in 64 bits. -/
def selected (T : TableDef) (scn : QLScan) (entries : List (Bytes × Bytes)) :
    List (Bytes × Bytes) :=
  slots scn.offset.toInt (scn.offset + scn.limit).toInt (scanned T scn entries)

section

variable {content : σ → List (Bytes × Bytes)} (hkv : kv.IsOrdered content) {db : DB σ}
  (hsane : Sane kv db.kv)

include hkv hsane

theorem seek_sane (k : Bytes) : ∀ e ∈ kv.seek db.kv k, SaneEntry e.1 e.2 := by
  intro e he
  rw [hkv.seek_eq] at he
  have hmem : e ∈ content db.kv := mem_of_mem_fromFloor he
  refine hsane e.1 e.2 ?_
  rw [hkv.get_eq]
  exact (hkv.sorted db.kv).lookup_of_mem hmem

theorem selectRecords_eq {scn : QLScan} (h : Scannable scn) :
    selectRecords kv T scn db = .ok ((selected T scn (content db.kv)).map (recordOf T)) := by
  unfold selectRecords
  rw [scan_eq (keyVals_typed_iff.mpr h.1) (keyVals_typed_iff.mpr h.2), ok_bind]
  dsimp only
  rw [selectLoop_eq _ _ _ 0 (by decide) (seek_sane hkv hsane _), hkv.seek_eq]
  simp [selected, scanned]

theorem selectRecords_returns_iff {scn : QLScan} :
    (∃ rows, selectRecords kv T scn db = .ok rows) ↔ Scannable scn := by
  constructor
  · rintro ⟨rows, h⟩
    obtain ⟨s, hs, -⟩ := bind_eq_ok.mp h
    obtain ⟨h₁, h₂, -⟩ := scan_ok_iff.mp hs
    exact ⟨keyVals_typed_iff.mp h₁, keyVals_typed_iff.mp h₂⟩
  · exact fun h => ⟨_, selectRecords_eq hkv hsane h⟩

end

end Svacara.Sql
