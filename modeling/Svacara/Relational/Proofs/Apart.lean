/-
When a call on one table leaves the others alone.

# Families of keys

A key says under which prefix and with how many values it was encoded
(`KeyOf.unique`). A table writes in a few such families only: its own
prefix with its key columns, and each index's prefix with the index's
columns (`Owns`). Whatever a call does, and whether it returns or
panics, every other key keeps its binding (`call_frame`).

# Clashes

The prefixes are 32-bit hashes of names, and nothing compares them. If a
family of one table is the row family of another, the two share their
entries: writing the all-defaults row of the first is seen as a row of
the second (`clash_seen`). So the tables are apart exactly if no two of
them clash (`apart_iff`).
-/
import Svacara.Relational.Run
import Svacara.Relational.Proofs.IndexKeys

namespace Svacara.Relational

open Kvstore Buf Outcome

variable {σ : Type} {kv : Storage σ} {tdef : TableDef}

-- ======================================================== families

/-- The key of a tuple of `n` values under the prefix `p`. -/
def KeyOf (p : UInt32) (n : Nat) (k : Bytes) : Prop :=
  ∃ vals : List Value, vals.length = n ∧ encodeKey [] p vals = .ok k

theorem KeyOf.unique {p q : UInt32} {n m : Nat} {k : Bytes} (h : KeyOf p n k)
    (h' : KeyOf q m k) : p = q ∧ n = m := by
  obtain ⟨a, rfl, ha⟩ := h
  obtain ⟨b, rfl, hb⟩ := h'
  obtain ⟨htyped, rfl⟩ := encodeKey_ok_iff.mp ha
  obtain ⟨htyped', hk⟩ := encodeKey_ok_iff.mp hb
  obtain ⟨hp, hcodes⟩ := keyCode_inj htyped htyped' hk
  exact ⟨hp, by simpa using congrArg List.length hcodes⟩

theorem keyOf_keyCode (p : UInt32) {vals : List Value} (h : ∀ v ∈ vals, v.Typed) :
    KeyOf p vals.length (keyCode p vals) :=
  ⟨vals, rfl, encodeKey_typed p h⟩

/-- The keys a table's calls may write: those of its rows and those of
its index entries. A table with more key columns than columns writes
none. -/
def Owns (tdef : TableDef) (k : Bytes) : Prop :=
  tdef.pkeys ≤ tdef.cols.length ∧ (KeyOf tdef.pfx tdef.pkeys k
    ∨ ∃ idx ∈ tdef.indexes, KeyOf (indexPrefix tdef idx) (indexWidth tdef idx) k)

-- ========================================================== frames

/-- Only keys with `P` are bound differently. -/
structure Frame (kv : Storage σ) (P : Bytes → Prop) (db db' : DB σ) : Prop where
  tables : db'.tables = db.tables
  get : ∀ k, ¬ P k → kv.get db'.kv k = kv.get db.kv k

section

variable {P : Bytes → Prop} {db db' db'' : DB σ}

theorem Frame.refl (P : Bytes → Prop) (db : DB σ) : Frame kv P db db :=
  ⟨rfl, fun _ _ => rfl⟩

theorem Frame.trans (h : Frame kv P db db') (h' : Frame kv P db' db'') :
    Frame kv P db db'' :=
  ⟨h'.tables.trans h.tables, fun k hk => (h'.get k hk).trans (h.get k hk)⟩

theorem Frame.set (hkv : kv.IsMap) {k : Bytes} (hk : P k) (v : Bytes) (db : DB σ) :
    Frame kv P db { db with kv := (kv.set db.kv k v).2 } :=
  ⟨rfl, fun _ hk' => hkv.get_set_of_ne _ _ _ _ fun heq => hk' (heq ▸ hk)⟩

theorem Frame.del (hkv : kv.IsMap) {k : Bytes} (hk : P k) (db : DB σ) :
    Frame kv P db { db with kv := (kv.del db.kv k).2 } :=
  ⟨rfl, fun _ hk' => hkv.get_del_of_ne _ _ _ fun heq => hk' (heq ▸ hk)⟩

theorem eachIndex_frame {call : IndexDef → DB σ → Except Fault (Option DbErr) × DB σ}
    {indexes : List IndexDef} (h : ∀ idx ∈ indexes, ∀ db, Frame kv P db (call idx db).2)
    (db : DB σ) : Frame kv P db (eachIndex call indexes db).2 := by
  induction indexes generalizing db with
  | nil => exact Frame.refl P db
  | cons idx indexes ih =>
      obtain ⟨hidx, hrest⟩ := List.forall_mem_cons.mp h
      have hone := hidx db
      unfold eachIndex
      split
      · next f db' heq =>
          rw [heq] at hone
          exact hone
      · next e db' heq =>
          rw [heq] at hone
          exact hone
      · next db' heq =>
          rw [heq] at hone
          exact hone.trans (ih hrest db')

end

-- ============================================== what a call writes

theorem rowEntry_keyOf {vals : List Value} {key val : Bytes}
    (h : rowEntry tdef vals = .ok (key, val)) :
    KeyOf tdef.pfx tdef.pkeys key := by
  obtain ⟨hle, hkey, -⟩ := rowEntry_inv h
  exact ⟨_, by simpa using hle, hkey⟩

theorem indexKey_keyOf {idx : IndexDef} {row : List Value} {key : Bytes}
    (h : indexKey tdef idx row = .ok key) :
    KeyOf (indexPrefix tdef idx) (indexWidth tdef idx) key := by
  unfold indexKey at h
  obtain ⟨vals, hvals, h⟩ := bind_eq_ok.mp h
  exact ⟨vals, pickCols_length hvals, h⟩

variable (hkv : kv.IsMap)

include hkv

theorem updateIndex_frame (hkeys : tdef.pkeys ≤ tdef.cols.length) {idx : IndexDef}
    (hidx : idx ∈ tdef.indexes) (vals : List Value) (db : DB σ) :
    Frame kv (Owns tdef) db (updateIndex kv tdef idx vals db).2 := by
  unfold updateIndex
  split
  · exact Frame.refl _ db
  · next ikey ival hentry =>
      obtain ⟨k, hk, hentry⟩ := bind_eq_ok.mp hentry
      obtain ⟨pk, -, hentry⟩ := bind_eq_ok.mp hentry
      obtain ⟨v, -, hentry⟩ := bind_eq_ok.mp hentry
      cases hentry
      exact Frame.set hkv ⟨hkeys, Or.inr ⟨idx, hidx, indexKey_keyOf hk⟩⟩ ival db

theorem deleteIndex_frame (hkeys : tdef.pkeys ≤ tdef.cols.length) {idx : IndexDef}
    (hidx : idx ∈ tdef.indexes) (vals : List Value) (db : DB σ) :
    Frame kv (Owns tdef) db (deleteIndex kv tdef idx vals db).2 := by
  unfold deleteIndex
  split
  · exact Frame.refl _ db
  · next ikey hk =>
      exact Frame.del hkv ⟨hkeys, Or.inr ⟨idx, hidx, indexKey_keyOf hk⟩⟩ db

theorem dbUpdate_frame (rec : Record) (mode : Nat) (db : DB σ) :
    Frame kv (Owns tdef) db (dbUpdate kv tdef rec mode db).2 := by
  unfold dbUpdate
  split
  · exact Frame.refl _ db
  · exact Frame.refl _ db
  · next vals hcheck =>
      split
      · exact Frame.refl _ db
      · next key val hentry =>
          have hkeys := pkeys_le_of_rowEntry hcheck hentry
          have hset := Frame.set hkv (P := Owns tdef)
            ⟨hkeys, Or.inl (rowEntry_keyOf hentry)⟩ val db
          split
          · exact Frame.refl _ db
          · split
            · next msg s heq =>
                rw [heq] at hset
                exact hset
            · next s heq =>
                rw [heq] at hset
                exact hset.trans (eachIndex_frame
                  (fun idx hidx => updateIndex_frame hkv hkeys hidx vals) _)

theorem dbDelete_frame (rec : Record) (db : DB σ) :
    Frame kv (Owns tdef) db (dbDelete kv tdef rec db).2 := by
  unfold dbDelete
  split
  · exact Frame.refl _ db
  · exact Frame.refl _ db
  · next vals hcheck =>
      split
      · exact Frame.refl _ db
      · next key hkey =>
          have hlen := checkRecord_length hcheck
          rw [if_pos rfl] at hlen
          have hdel := Frame.del hkv (P := Owns tdef)
            ⟨hlen.1, Or.inl ⟨vals, hlen.2, hkey⟩⟩ db
          split
          · exact Frame.refl _ db
          · split
            · next b msg s heq =>
                rw [heq] at hdel
                exact hdel
            · next s heq =>
                rw [heq] at hdel
                exact hdel
            · next s heq =>
                rw [heq] at hdel
                split
                · exact hdel
                · split
                  · exact hdel
                  · next row hrow =>
                      exact hdel.trans (eachIndex_frame
                        (fun idx hidx => deleteIndex_frame hkv hlen.1 hidx row) _)

/-- A call changes the bindings of its own table's keys at most. -/
theorem call_frame {table : Bytes} {db : DB σ} (htab : db.tableDef table = some tdef)
    (call : Call) : Frame kv (Owns tdef) db (call.run kv table db).2 := by
  cases call with
  | insert rec =>
      rw [run_insert htab]
      exact dbUpdate_frame hkv rec 0 db
  | update rec =>
      rw [run_update htab]
      exact dbUpdate_frame hkv rec 1 db
  | delete rec =>
      rw [run_delete htab]
      exact dbDelete_frame hkv rec db

theorem after_tables (calls : List (Bytes × Call)) (db : DB σ) :
    (after kv calls db).tables = db.tables := by
  induction calls generalizing db with
  | nil => rfl
  | cons c calls ih =>
      obtain ⟨table, call⟩ := c
      have hcall : (call.run kv table db).2.tables = db.tables := by
        cases htab : db.tableDef table with
        | none => cases call <;> simp [Call.run, Relational.insert, Relational.update,
            Relational.delete, onTable, htab]
        | some tdef => exact (call_frame hkv htab call).tables
      exact (ih _).trans hcall

-- ===================================================== the answers

omit hkv in
theorem eachIndex_answer {call : IndexDef → DB σ → Except Fault (Option DbErr) × DB σ}
    (h : ∀ idx db db', (call idx db).1 = (call idx db').1) (indexes : List IndexDef)
    (db db' : DB σ) : (eachIndex call indexes db).1 = (eachIndex call indexes db').1 := by
  induction indexes generalizing db db' with
  | nil => rfl
  | cons idx indexes ih =>
      have hone := h idx db db'
      unfold eachIndex
      rcases hdb : call idx db with ⟨r, d⟩
      rcases hdb' : call idx db' with ⟨r', d'⟩
      rw [hdb, hdb'] at hone
      change r = r' at hone
      subst hone
      rcases r with f | (_ | e)
      · rfl
      · exact ih d d'
      · rfl

/-- The answer of an insert or update depends on the store only through
the presence of the row's key. -/
theorem dbUpdate_answer {db db' : DB σ} (rec : Record) (mode : Nat)
    (h : ∀ k, KeyOf tdef.pfx tdef.pkeys k → kv.get db'.kv k = kv.get db.kv k) :
    (dbUpdate kv tdef rec mode db').1 = (dbUpdate kv tdef rec mode db).1 := by
  have hupdate : ∀ vals idx (db db' : DB σ),
      (updateIndex kv tdef idx vals db).1 = (updateIndex kv tdef idx vals db').1 := by
    intro vals idx db db'
    unfold updateIndex
    split
    · rfl
    · simp [hkv.set_ok]
  unfold dbUpdate
  split
  · rfl
  · rfl
  · next vals hcheck =>
      split
      · rfl
      · next key val hentry =>
          rw [h key (rowEntry_keyOf hentry)]
          split
          · rfl
          · have hset := hkv.set_ok db.kv key val
            have hset' := hkv.set_ok db'.kv key val
            rcases hdb : kv.set db.kv key val with ⟨r, s⟩
            rcases hdb' : kv.set db'.kv key val with ⟨r', s'⟩
            rw [hdb] at hset
            rw [hdb'] at hset'
            cases hset
            cases hset'
            exact eachIndex_answer (hupdate vals) _ _ _

-- ==================================================== the property

/-- Seen from the table `B`, stored under the name `b`, the two databases
are alike: each row has the same presence and value, and each insert the
same answer. -/
structure Untouched (kv : Storage σ) (b : Bytes) (B : TableDef) (db db' : DB σ) : Prop where
  rows : ∀ (pk : List Value) (k : Bytes), pk.length = B.pkeys →
    encodeKey [] B.pfx pk = .ok k → kv.get db'.kv k = kv.get db.kv k
  inserts : ∀ rec, (insert kv b rec db').1 = (insert kv b rec db).1

/-- Some family of `A` is the row family of `B`. -/
def Clash (A B : TableDef) : Prop :=
  A.pkeys ≤ A.cols.length ∧ (A.pfx = B.pfx ∧ A.pkeys = B.pkeys
    ∨ ∃ idx ∈ A.indexes, indexPrefix A idx = B.pfx ∧ indexWidth A idx = B.pkeys)

theorem untouched_of_not_clash {a b : Bytes} {A B : TableDef} {db : DB σ}
    (hA : db.tableDef a = some A) (hB : db.tableDef b = some B) (h : ¬ Clash A B)
    (call : Call) : Untouched kv b B db (call.run kv a db).2 := by
  have hframe := call_frame hkv hA call
  have hrows : ∀ k, KeyOf B.pfx B.pkeys k →
      kv.get (call.run kv a db).2.kv k = kv.get db.kv k := by
    intro k hk
    refine hframe.get k fun ⟨hkeys, hown⟩ => h ⟨hkeys, ?_⟩
    rcases hown with hrow | ⟨idx, hidx, hentry⟩
    · exact Or.inl (hrow.unique hk)
    · exact Or.inr ⟨idx, hidx, hentry.unique hk⟩
  have hB' : (call.run kv a db).2.tableDef b = some B := by
    rw [DB.tableDef, hframe.tables]
    exact hB
  refine ⟨fun pk k hlen hk => hrows k ⟨pk, hlen, hk⟩, fun rec => ?_⟩
  simp only [insert, onTable, hB, hB']
  exact dbUpdate_answer hkv rec 0 hrows

omit hkv in
/-- The record that names no column is laid out as the defaults. -/
theorem lays_defaults (tdef : TableDef) : Lays tdef ⟨[], []⟩ (defaults tdef) :=
  ⟨by simp, rfl⟩

/-- With the clashing key absent, an update of the all-defaults row of
`A` makes it present, and it is the key of a row of `B`. -/
theorem clash_seen {a : Bytes} {A B : TableDef} (h : Clash A B) :
    ∃ (pk : List Value) (k : Bytes), pk.length = B.pkeys ∧ encodeKey [] B.pfx pk = .ok k
      ∧ ∀ db : DB σ, db.tableDef a = some A →
        (kv.get ((Call.update ⟨[], []⟩).run kv a db).2.kv k).isSome := by
  obtain ⟨hkeys, hfamily⟩ := h
  have htyped : ∀ v ∈ defaults A, v.Typed := fun v hv => (defaults_sound hv).typed
  have hlen := length_defaults A
  have hrun : ∀ db : DB σ, db.tableDef a = some A →
      ∀ k, k = rowKey A (defaults A) ∨ k ∈ A.indexes.map (indexKeyOf A (defaults A)) →
      (kv.get ((Call.update ⟨[], []⟩).run kv a db).2.kv k).isSome := by
    intro db hA k hk
    rw [run_update hA, dbUpdate_written hkv (lays_defaults A) htyped hkeys db 1 (by simp)]
    dsimp only
    rw [written, get_setAll hkv]
    split
    · rfl
    · next hnot =>
        obtain rfl := hk.resolve_right hnot
        rw [hkv.get_set]
        rfl
  rcases hfamily with ⟨hpfx, hwidth⟩ | ⟨idx, hidx, hpfx, hwidth⟩
  · refine ⟨(defaults A).take A.pkeys, rowKey A (defaults A), ?_, ?_,
      fun db hA => hrun db hA _ (Or.inl rfl)⟩
    · rw [List.length_take]
      omega
    · rw [← hpfx]
      exact encodeKey_typed _ fun v hv => htyped v (List.mem_of_mem_take hv)
  · have hpick : ∀ v ∈ picked A idx (defaults A), v.Typed := fun v hv =>
      htyped v (mem_picked hv)
    refine ⟨picked A idx (defaults A), indexKeyOf A (defaults A) idx, ?_, ?_,
      fun db hA => hrun db hA _ (Or.inr (List.mem_map_of_mem hidx))⟩
    · rw [← hwidth]
      exact length_picked idx hlen.ge
    · rw [← hpfx]
      exact encodeKey_typed _ hpick

/-- Over any store, along every run of calls, a call on one table leaves
every other table untouched, exactly if no two tables clash. -/
theorem apart_iff [Nonempty σ] (tables : List (Bytes × TableDef)) :
    (∀ (s : σ) (calls : List (Bytes × Call)) (a b : Bytes) (A B : TableDef) (call : Call),
        a ≠ b → tables.lookup a = some A → tables.lookup b = some B →
        Untouched kv b B (after kv calls { kv := s, tables })
          (call.run kv a (after kv calls { kv := s, tables })).2)
      ↔ ∀ (a b : Bytes) (A B : TableDef), a ≠ b → tables.lookup a = some A →
        tables.lookup b = some B → ¬ Clash A B := by
  constructor
  · intro h a b A B hne hA hB hclash
    obtain ⟨pk, k, hlen, hk, hseen⟩ := clash_seen (a := a) hkv hclash
    obtain ⟨s₀⟩ := ‹Nonempty σ›
    have huntouched := h (kv.del s₀ k).2 [] a b A B (.update ⟨[], []⟩) hne hA hB
    have hsame := huntouched.rows pk k hlen hk
    have hsome := hseen { kv := (kv.del s₀ k).2, tables } hA
    change kv.get _ k = kv.get (kv.del s₀ k).2 k at hsame
    rw [hkv.get_del] at hsame
    change (kv.get (Call.run kv a _ (after kv [] _)).2.kv k).isSome at hsome
    rw [hsame] at hsome
    cases hsome
  · intro h s calls a b A B call hne hA hB
    have htables : (after kv calls { kv := s, tables }).tables = tables :=
      after_tables hkv calls _
    have hA' : (after kv calls { kv := s, tables }).tableDef a = some A := by
      rw [DB.tableDef, htables]
      exact hA
    have hB' : (after kv calls { kv := s, tables }).tableDef b = some B := by
      rw [DB.tableDef, htables]
      exact hB
    exact untouched_of_not_clash hkv hA' hB' (h a b A B hne hA hB) call

omit hkv

/-- A table with one integer column, its key. -/
def oneKey (name : Bytes) : TableDef where
  name := name
  cols := [⟨lit "id", .tInt64⟩]
  pkeys := 1
  pfx := hashTableName name

/-- The database with two such tables. -/
def twoTables (a b : Bytes) : DB Memory :=
  (createTable (oneKey b) (createTable (oneKey a) (openDB Memory.empty)).2).2

theorem mem_of_lookup {tables : List (Bytes × TableDef)} {a : Bytes} {A : TableDef}
    (h : tables.lookup a = some A) : (a, A) ∈ tables := by
  obtain ⟨l₁, l₂, rfl, -⟩ := List.lookup_eq_some_iff.mp h
  simp

/-- Two names with different hashes. -/
theorem ab_cd_apart (a b : Bytes) (A B : TableDef) (hne : a ≠ b)
    (hA : (twoTables (lit "ab") (lit "cd")).tables.lookup a = some A)
    (hB : (twoTables (lit "ab") (lit "cd")).tables.lookup b = some B) : ¬ Clash A B := by
  have htables : (twoTables (lit "ab") (lit "cd")).tables
      = [(lit "cd", oneKey (lit "cd")), (lit "ab", oneKey (lit "ab"))] := by
    decide +kernel
  have hhash : hashTableName (lit "ab") ≠ hashTableName (lit "cd") := by decide +kernel
  rw [htables] at hA hB
  have hA' := mem_of_lookup hA
  have hB' := mem_of_lookup hB
  simp only [List.mem_cons, Prod.mk.injEq, List.not_mem_nil, or_false] at hA' hB'
  rintro ⟨-, ⟨hpfx, -⟩ | ⟨idx, hidx, -⟩⟩
  · rcases hA' with ⟨rfl, rfl⟩ | ⟨rfl, rfl⟩
    · rcases hB' with ⟨rfl, rfl⟩ | ⟨rfl, rfl⟩
      · exact hne rfl
      · exact hhash hpfx.symm
    · rcases hB' with ⟨rfl, rfl⟩ | ⟨rfl, rfl⟩
      · exact hhash hpfx
      · exact hne rfl
  · rcases hA' with ⟨-, rfl⟩ | ⟨-, rfl⟩
    · cases hidx
    · cases hidx

theorem apart_iff_ab_cd :
    Untouched memory (lit "cd") (oneKey (lit "cd"))
      (after memory [(lit "cd", .insert ⟨[lit "id"], [{ type := 1, i64 := 5 }]⟩)]
        { kv := Memory.empty, tables := (twoTables (lit "ab") (lit "cd")).tables })
      (Call.run memory (lit "ab") (.delete ⟨[lit "id"], [{ type := 1, i64 := 5 }]⟩)
        (after memory [(lit "cd", .insert ⟨[lit "id"], [{ type := 1, i64 := 5 }]⟩)]
          { kv := Memory.empty, tables := (twoTables (lit "ab") (lit "cd")).tables })).2 :=
  (apart_iff memory_isOrdered.toIsMap _).mpr ab_cd_apart _ _ _ _ (oneKey (lit "ab")) _ _
    (by decide +kernel) (by decide +kernel) (by decide +kernel)

/-- The hash of "ab" is that of "bA", 33 * 97 + 98 = 33 * 98 + 65, and
both tables are accepted: a row of one is a row of the other. -/
theorem ab_bA_clash :
    (createTable (oneKey (lit "ab")) (openDB Memory.empty)).1 = none
      ∧ (createTable (oneKey (lit "bA"))
        (createTable (oneKey (lit "ab")) (openDB Memory.empty)).2).1 = none
      ∧ (insert memory (lit "bA") ⟨[lit "id"], [{ type := 1, i64 := 5 }]⟩
        (twoTables (lit "ab") (lit "bA"))).1 = .ok (true, none)
      ∧ (insert memory (lit "bA") ⟨[lit "id"], [{ type := 1, i64 := 5 }]⟩
        (insert memory (lit "ab") ⟨[lit "id"], [{ type := 1, i64 := 5 }]⟩
          (twoTables (lit "ab") (lit "bA"))).2).1 = .ok (false, none) := by
  decide +kernel

end Svacara.Relational
