/-
What a scan visits.

# The range

`InRange T start stop k` says that `k` is the key of a row of `T` between
the two bounds, both included, an empty `stop` being none. A scan is
exact if it visits the entries with such keys, each once and in order
(`Exactly`).

# Where it starts

`Seek` lands on the greatest key that is not above the first bound, or on
the smallest key of all. If that key is below the bound, it is no row of
the range; but `Scanner.Valid` compares with the last bound only. So if it
is a row of `T`, the scan visits it, and if it is another table's, the
scan ends before it began. From the bound on all is well: between two
keys under one prefix there is no key under another (`inRange_convex`).
Hence a scan is exact if the key it lands on is not below the bound, and
otherwise only if that key stops it and there was nothing to visit
(`scan_exact_iff`).
-/
import Svacara.Relational.Proofs.Apart
import Svacara.Btree.Proofs.Search
import Mathlib.Data.List.Nodup

namespace Svacara.Relational

open Kvstore Buf Outcome SortedMap

variable {σ : Type} {kv : Storage σ} {T : TableDef}

-- ======================================================= the range

/-- Not behind the last bound. -/
def Within (T : TableDef) (stop : List Value) (k : Bytes) : Prop :=
  stop = [] ∨ k ≤ keyCode T.pfx stop

/-- The key of a row of `T` from the first bound to the last. -/
structure InRange (T : TableDef) (start stop : List Value) (k : Bytes) : Prop where
  row : KeyOf T.pfx T.pkeys k
  lower : keyCode T.pfx start ≤ k
  upper : Within T stop k

/-- The list has the entries in range and no other, each once and in key
order. -/
structure Exactly (T : TableDef) (start stop : List Value)
    (entries visited : List (Bytes × Bytes)) : Prop where
  sorted : Sorted visited
  mem : ∀ e, e ∈ visited ↔ e ∈ entries ∧ InRange T start stop e.1

/-- Every entry is a row of one of the tables or an entry of one of their
indexes; no two tables share a prefix, nor do a table and an index. -/
structure Filled (tables : List TableDef) (entries : List (Bytes × Bytes)) : Prop where
  apart : (tables.map (·.pfx)).Nodup
  indexes : ∀ U ∈ tables, ∀ idx ∈ U.indexes, ∀ V ∈ tables, indexPrefix U idx ≠ V.pfx
  rows : ∀ e ∈ entries, ∃ U ∈ tables, KeyOf U.pfx U.pkeys e.1
    ∨ ∃ idx ∈ U.indexes, KeyOf (indexPrefix U idx) (indexWidth U idx) e.1

-- ============================================= the keys of a table

theorem keyOf_eq {p : UInt32} {n : Nat} {k : Bytes} (h : KeyOf p n k) :
    ∃ r, k = beBytes 4 p.toNat ++ r := by
  obtain ⟨vals, -, hk⟩ := h
  exact ⟨_, (encodeKey_ok_iff.mp hk).2⟩

theorem keyPrefix_keyOf {p : UInt32} {n : Nat} {k : Bytes} (h : KeyOf p n k) :
    keyPrefix k = .ok p := by
  obtain ⟨r, rfl⟩ := keyOf_eq h
  have hlen : (beBytes 4 p.toNat).length = 4 := length_beBytes ..
  unfold keyPrefix
  rw [if_pos (by rw [List.length_append]; omega), List.take_left' hlen,
    beNat_beBytes p.toNat_lt, UInt32.ofNat_toNat]

/-- A key under a smaller prefix is smaller. -/
theorem lt_of_pfx_lt {p q : UInt32} (h : p.toNat < q.toNat) (a b : Bytes) :
    beBytes 4 p.toNat ++ a < beBytes 4 q.toNat ++ b :=
  ((below_beBytes h q.toNat_lt).append a b).lt

/-- What lies between two keys under one prefix is under it too. -/
theorem pfx_between {p q : UInt32} {a b r : Bytes}
    (hlow : beBytes 4 p.toNat ++ a ≤ beBytes 4 q.toNat ++ r)
    (hhigh : beBytes 4 q.toNat ++ r ≤ beBytes 4 p.toNat ++ b) : q = p := by
  rcases lt_trichotomy q.toNat p.toNat with h | h | h
  · exact absurd hlow (not_le.mpr (lt_of_pfx_lt h r a))
  · exact UInt32.toNat_inj.mp h
  · exact absurd hhigh (not_le.mpr (lt_of_pfx_lt h b r))

section

variable {tables : List TableDef} {entries : List (Bytes × Bytes)}
  (hfilled : Filled tables entries) (hT : T ∈ tables) {e : Bytes × Bytes}
  (he : e ∈ entries)

include hfilled hT he

/-- The prefix tells the table. -/
theorem exists_keyOf : ∃ p n, KeyOf p n e.1 ∧ (p = T.pfx → KeyOf T.pfx T.pkeys e.1) := by
  obtain ⟨U, hU, hrow | ⟨idx, hidx, hentry⟩⟩ := hfilled.rows e he
  · refine ⟨_, _, hrow, fun hpfx => ?_⟩
    rw [← List.inj_on_of_nodup_map hfilled.apart hU hT hpfx]
    exact hrow
  · exact ⟨_, _, hentry, fun hpfx => absurd hpfx (hfilled.indexes U hU idx hidx T hT)⟩

/-- Below a row in range and not below the first bound, there are only
rows in range. -/
theorem inRange_convex {start stop : List Value} {k : Bytes}
    (hlow : keyCode T.pfx start ≤ e.1) (hle : e.1 ≤ k) (hk : InRange T start stop k) :
    InRange T start stop e.1 := by
  obtain ⟨p, n, hkey, hrow⟩ := exists_keyOf hfilled hT he
  obtain ⟨r, hr⟩ := keyOf_eq hkey
  obtain ⟨b, hb⟩ := keyOf_eq hk.row
  have hpfx : p = T.pfx := by
    rw [hr, keyCode] at hlow
    rw [hr, hb] at hle
    exact pfx_between hlow hle
  refine ⟨hrow hpfx, hlow, ?_⟩
  rcases hk.upper with hstop | hstop
  · exact Or.inl hstop
  · exact Or.inr (hle.trans hstop)

end

-- ===================================================== the scanner

/-- The bound that `scan` hands to the scanner. -/
def stopKey (T : TableDef) (stop : List Value) : Bytes :=
  if stop = [] then [] else keyCode T.pfx stop

theorem encodeKeyPartial_ok_iff {p : UInt32} {vals : List Value} {k : Bytes} :
    encodeKeyPartial [] p vals 0 = .ok k ↔ (∀ v ∈ vals, v.Typed) ∧ k = keyCode p vals := by
  unfold encodeKeyPartial
  rw [bind_eq_ok, ← encodeKey_ok_iff]
  simp

/-- A scan starts exactly if both bounds encode. -/
theorem scan_ok_iff {start stop : List Value} {db : DB σ} {s : Scanner} :
    scan kv T start stop 0 0 db = .ok s ↔ (∀ v ∈ start, v.Typed) ∧ (∀ v ∈ stop, v.Typed)
      ∧ ⟨T, kv.seek db.kv (keyCode T.pfx start), stopKey T stop⟩ = s := by
  unfold scan stopKey
  by_cases h₁ : start = []
  · by_cases h₂ : stop = []
    · simp [h₁, h₂, bind_eq_ok, encodeKey_ok_iff]
    · simp [h₁, h₂, bind_eq_ok, encodeKey_ok_iff, encodeKeyPartial_ok_iff, and_assoc]
  · by_cases h₂ : stop = []
    · simp [h₁, h₂, bind_eq_ok, encodeKeyPartial_ok_iff, and_assoc]
    · simp [h₁, h₂, bind_eq_ok, encodeKeyPartial_ok_iff, and_assoc]

theorem scan_eq {start stop : List Value} (hstart : ∀ v ∈ start, v.Typed)
    (hstop : ∀ v ∈ stop, v.Typed) (db : DB σ) :
    scan kv T start stop 0 0 db
      = .ok ⟨T, kv.seek db.kv (keyCode T.pfx start), stopKey T stop⟩ :=
  scan_ok_iff.mpr ⟨hstart, hstop, rfl⟩

theorem stopKey_ne_nil_iff {stop : List Value} : stopKey T stop ≠ [] ↔ stop ≠ [] := by
  unfold stopKey
  split
  · next h => simp [h]
  · next h =>
      refine ⟨fun _ => h, fun _ hnil => ?_⟩
      have hlen := congrArg List.length hnil
      simp [keyCode] at hlen

/-- The first test of `Scanner.Valid`. -/
theorem past_stop_iff (T : TableDef) (stop : List Value) (k : Bytes) :
    stopKey T stop ≠ [] ∧ 0 < Btree.compareKeys k (stopKey T stop) ↔ ¬ Within T stop k := by
  rw [stopKey_ne_nil_iff, Btree.compareKeys, Btree.cmp_pos_iff, Within, not_or, not_le]
  refine and_congr_right fun h => ?_
  rw [stopKey, if_neg h]

/-- On any entry the scanner is valid exactly if it is a row of its own
table not behind the last bound. -/
theorem valid_iff {tables : List TableDef} {entries : List (Bytes × Bytes)}
    (hfilled : Filled tables entries) (hT : T ∈ tables) {e : Bytes × Bytes}
    (he : e ∈ entries) (stop : List Value) (iter : List (Bytes × Bytes)) :
    ∃ b, Scanner.valid { tdef := T, iter := e :: iter, stop := stopKey T stop } = .ok b
      ∧ (b = true ↔ KeyOf T.pfx T.pkeys e.1 ∧ Within T stop e.1) := by
  obtain ⟨p, n, hkey, hrow⟩ := exists_keyOf hfilled hT he
  have hpfx : p = T.pfx ↔ KeyOf T.pfx T.pkeys e.1 :=
    ⟨hrow, fun h => (hkey.unique h).1⟩
  have hpast := past_stop_iff T stop e.1
  obtain ⟨key, val⟩ := e
  unfold Scanner.valid
  dsimp only at hpfx hpast hkey ⊢
  split
  · next h => exact ⟨false, rfl, by simp [hpast.mp h]⟩
  · next h =>
      rw [keyPrefix_keyOf hkey]
      refine ⟨decide (p = T.pfx), rfl, ?_⟩
      rw [decide_eq_true_iff, hpfx]
      exact ⟨fun hk => ⟨hk, not_not.mp (mt hpast.mpr h)⟩, And.left⟩

/-- The scanner visits a front part of what the iterator has, up to the
first entry it rejects. -/
theorem walk_split {tables : List TableDef} {entries : List (Bytes × Bytes)}
    (hfilled : Filled tables entries) (hT : T ∈ tables) (stop : List Value)
    {iter : List (Bytes × Bytes)} (hiter : ∀ e ∈ iter, e ∈ entries) :
    ∃ out rest, Scanner.walk T (stopKey T stop) iter = .ok out ∧ iter = out ++ rest
      ∧ (∀ e ∈ out, KeyOf T.pfx T.pkeys e.1 ∧ Within T stop e.1)
      ∧ ∀ e ∈ rest.head?, ¬ (KeyOf T.pfx T.pkeys e.1 ∧ Within T stop e.1) := by
  induction iter with
  | nil => exact ⟨[], [], rfl, rfl, by simp, by simp⟩
  | cons e iter ih =>
      obtain ⟨he, hiter⟩ := List.forall_mem_cons.mp hiter
      obtain ⟨b, hvalid, hb⟩ := valid_iff hfilled hT he stop iter
      rw [Scanner.walk, hvalid, ok_bind]
      cases b with
      | true =>
          obtain ⟨out, rest, hwalk, rfl, hout, hrest⟩ := ih hiter
          refine ⟨e :: out, rest, ?_, rfl, ?_, hrest⟩
          · rw [if_pos rfl, hwalk]
            rfl
          · exact List.forall_mem_cons.mpr ⟨hb.mp rfl, hout⟩
      | false =>
          refine ⟨[], e :: iter, rfl, rfl, by simp, fun e' he' => ?_⟩
          cases he'
          exact fun h => nomatch hb.mpr h

-- ======================================================== the scan

/-- The entry the seek lands on is visited exactly if it is not
rejected. -/
theorem head_mem_iff {out rest B : List (Bytes × Bytes)} {e : Bytes × Bytes}
    {P : Bytes × Bytes → Prop} (h : e :: B = out ++ rest) (hout : ∀ e ∈ out, P e)
    (hrest : ∀ e ∈ rest.head?, ¬ P e) : (out = [] ↔ ¬ P e) ∧ (P e → e ∈ out) := by
  cases out with
  | nil =>
      rw [List.nil_append] at h
      have he : ¬ P e := hrest e (by rw [← h]; rfl)
      exact ⟨⟨fun _ => he, fun _ => rfl⟩, fun hP => absurd hP he⟩
  | cons a out =>
      cases h
      have he := hout e (List.mem_cons_self ..)
      exact ⟨⟨fun hnil => (nomatch hnil), fun hnot => absurd he hnot⟩,
        fun _ => List.mem_cons_self ..⟩

section

variable {tables : List TableDef} {entries : List (Bytes × Bytes)}
  (hfilled : Filled tables entries) (hT : T ∈ tables) (hsorted : Sorted entries)
  {start stop : List Value}

include hfilled hT hsorted

/-- From the first bound on, the entries visited are those in range. -/
theorem exactly_of_lower {A B out rest : List (Bytes × Bytes)} {e : Bytes × Bytes}
    (hsplit : entries = A ++ e :: B) (hA : A = [] ∨ e.1 ≤ keyCode T.pfx start)
    (hlow : keyCode T.pfx start ≤ e.1) (hiter : e :: B = out ++ rest)
    (hout : ∀ e ∈ out, KeyOf T.pfx T.pkeys e.1 ∧ Within T stop e.1)
    (hrest : ∀ e ∈ rest.head?, ¬ (KeyOf T.pfx T.pkeys e.1 ∧ Within T stop e.1)) :
    Exactly T start stop entries out := by
  have hs : Sorted (A ++ e :: B) := hsplit ▸ hsorted
  have htail : Sorted (out ++ rest) := hiter ▸ (List.pairwise_append.mp hs).2.1
  have hbehind : ∀ e' ∈ out ++ rest, keyCode T.pfx start ≤ e'.1 := by
    intro e' he'
    rw [← hiter] at he'
    rcases List.mem_cons.mp he' with rfl | hB
    · exact hlow
    · exact hlow.trans (Sorted.allGt (List.pairwise_append.mp hs).2.1 e' hB).le
  have hin : ∀ e' ∈ out ++ rest, e' ∈ entries := by
    intro e' he'
    rw [hsplit, hiter]
    exact List.mem_append_right A he'
  refine ⟨(List.pairwise_append.mp htail).1, fun e' => ⟨fun he' => ?_, ?_⟩⟩
  · have hmem := List.mem_append_left rest he'
    exact ⟨hin e' hmem, (hout e' he').1, hbehind e' hmem, (hout e' he').2⟩
  · rintro ⟨he', hrange⟩
    rw [hsplit, hiter] at he'
    rcases List.mem_append.mp he' with hmemA | he'
    · -- in front of where the seek lands, all keys are below the bound
      have hlt : e'.1 < e.1 := hs.allLt e' hmemA
      have hle := hA.resolve_left (List.ne_nil_of_mem hmemA)
      exact absurd hrange.lower (not_le.mpr (hlt.trans_le hle))
    · rcases List.mem_append.mp he' with he' | he'
      · exact he'
      · cases rest with
        | nil => cases he'
        | cons r rest =>
            have hr : r ∈ out ++ r :: rest :=
              List.mem_append_right out (List.mem_cons_self ..)
            have hle : r.1 ≤ e'.1 := by
              rcases List.mem_cons.mp he' with rfl | hlater
              · exact le_rfl
              · exact (Sorted.allGt (List.pairwise_append.mp htail).2.1 e' hlater).le
            have hconvex := inRange_convex hfilled hT (hin r hr) (hbehind r hr) hle hrange
            exact absurd ⟨hconvex.row, hconvex.upper⟩ (hrest r rfl)

theorem walk_exact_iff :
    (∃ visited, Scanner.walk T (stopKey T stop)
          (fromFloor (keyCode T.pfx start) entries) = .ok visited
        ∧ Exactly T start stop entries visited)
      ↔ ∀ k₀, floorKey (keyCode T.pfx start) entries = some k₀ →
        keyCode T.pfx start ≤ k₀ ∨ ¬ (KeyOf T.pfx T.pkeys k₀ ∧ Within T stop k₀)
          ∧ ∀ e ∈ entries, ¬ InRange T start stop e.1 := by
  by_cases hnil : entries = []
  · subst hnil
    refine ⟨fun _ k₀ hk₀ => (nomatch hk₀), fun _ => ⟨[], rfl, ?_⟩⟩
    exact ⟨List.Pairwise.nil, fun e => by simp⟩
  obtain ⟨A, e, B, hsplit, hB, hA⟩ := exists_floor_split hsorted hnil (keyCode T.pfx start)
  have hs : Sorted (A ++ e :: B) := hsplit ▸ hsorted
  have hfloor : floorKey (keyCode T.pfx start) entries = some e.1 :=
    hsplit ▸ floorKey_split hs hB hA
  have hseek : fromFloor (keyCode T.pfx start) entries = e :: B :=
    hsplit ▸ fromFloor_split hs hB hA
  obtain ⟨out, rest, hwalk, hiter, hout, hrest⟩ := walk_split hfilled hT stop
    (fun e' he' => by rw [hsplit]; exact List.mem_append_right A he' : ∀ e' ∈ e :: B, e' ∈ entries)
  obtain ⟨hempty, hfirst⟩ := head_mem_iff hiter hout hrest
  rw [hseek, hwalk, hfloor]
  constructor
  · rintro ⟨visited, hvisited, hexact⟩ k₀ hk₀
    cases hvisited
    cases hk₀
    by_cases hlow : keyCode T.pfx start ≤ e.1
    · exact Or.inl hlow
    · have hreject : ¬ (KeyOf T.pfx T.pkeys e.1 ∧ Within T stop e.1) := fun hP =>
        hlow ((hexact.mem e).mp (hfirst hP)).2.lower
      refine Or.inr ⟨hreject, fun e' he' hrange => ?_⟩
      have hmem := (hexact.mem e').mpr ⟨he', hrange⟩
      rw [hempty.mpr hreject] at hmem
      cases hmem
  · intro h
    refine ⟨out, rfl, ?_⟩
    rcases h e.1 rfl with hlow | ⟨hreject, hnone⟩
    · exact exactly_of_lower hfilled hT hsorted hsplit hA hlow hiter hout hrest
    · rw [hempty.mpr hreject]
      refine ⟨List.Pairwise.nil, fun e' => ⟨fun he' => (nomatch he'), ?_⟩⟩
      rintro ⟨he', hrange⟩
      exact absurd hrange (hnone e' he')

end

/-- Stepping the scanner of a scan visits exactly the rows in range, if
and only if the key that the seek lands on is not below the first bound,
or else is rejected, being no row of the table up to the last bound, and
the range has no row. -/
theorem scan_exact_iff {content : σ → List (Bytes × Bytes)} (hkv : kv.IsOrdered content)
    (tables : List TableDef) (db : DB σ) (hfilled : Filled tables (content db.kv))
    (T : TableDef) (hT : T ∈ tables) (start stop : List Value)
    (hstart : ∀ v ∈ start, v.IsKey) (hstop : ∀ v ∈ stop, v.IsKey) :
    (∃ s visited, scan kv T start stop 0 0 db = .ok s ∧ s.visited = .ok visited
        ∧ Exactly T start stop (content db.kv) visited)
      ↔ ∀ k₀, floorKey (keyCode T.pfx start) (content db.kv) = some k₀ →
        keyCode T.pfx start ≤ k₀ ∨ ¬ (KeyOf T.pfx T.pkeys k₀ ∧ Within T stop k₀)
          ∧ ∀ e ∈ content db.kv, ¬ InRange T start stop e.1 := by
  rw [← walk_exact_iff hfilled hT (hkv.sorted db.kv),
    scan_eq (fun v hv => (hstart v hv).typed) (fun v hv => (hstop v hv).typed),
    hkv.seek_eq]
  constructor
  · rintro ⟨s, visited, hs, hvisited, hexact⟩
    cases hs
    exact ⟨visited, hvisited, hexact⟩
  · rintro ⟨visited, hvisited, hexact⟩
    exact ⟨_, visited, rfl, hvisited, hexact⟩

/-- A row of the table `oneKey`. -/
def keyRow (id : Int64) : Record := ⟨[lit "id"], [{ type := 1, i64 := id }]⟩

/-- Two tables with the rows 1 and 3 each. -/
def fourRows : DB Memory :=
  after memory [(lit "a", .insert (keyRow 1)), (lit "b", .insert (keyRow 1)),
    (lit "a", .insert (keyRow 3)), (lit "b", .insert (keyRow 3))]
    (twoTables (lit "a") (lit "b"))

def rowOf (name : String) (id : Int64) : Bytes × Bytes :=
  (keyCode (hashTableName (lit name)) [{ type := 1, i64 := id }], [])

/-- What a scan of one of them visits. -/
def visits (name : String) (start stop : List Value) :
    Except Fault (List (Bytes × Bytes)) := do
  let s ← scan memory (oneKey (lit name)) start stop 0 0 fourRows
  s.visited

theorem rowOf_keyOf (name : String) (id : Int64) :
    KeyOf (oneKey (lit name)).pfx (oneKey (lit name)).pkeys (rowOf name id).1 :=
  keyOf_keyCode _ (List.forall_mem_singleton.mpr (Or.inl (Or.inl rfl)))

theorem fourRows_filled :
    Filled [oneKey (lit "a"), oneKey (lit "b")] fourRows.kv.1 := by
  have hrows : fourRows.kv.1 = [rowOf "a" 1, rowOf "a" 3, rowOf "b" 1, rowOf "b" 3] := by
    decide +kernel
  refine ⟨by decide +kernel, by simp [oneKey], ?_⟩
  rw [hrows]
  have hmem : oneKey (lit "a") ∈ [oneKey (lit "a"), oneKey (lit "b")]
      ∧ oneKey (lit "b") ∈ [oneKey (lit "a"), oneKey (lit "b")] := by simp
  intro e he
  simp only [List.mem_cons, List.not_mem_nil, or_false] at he
  rcases he with rfl | rfl | rfl | rfl
  · exact ⟨_, hmem.1, Or.inl (rowOf_keyOf "a" 1)⟩
  · exact ⟨_, hmem.1, Or.inl (rowOf_keyOf "a" 3)⟩
  · exact ⟨_, hmem.2, Or.inl (rowOf_keyOf "b" 1)⟩
  · exact ⟨_, hmem.2, Or.inl (rowOf_keyOf "b" 3)⟩

/-- A scan that starts at a row there is. -/
theorem scan_exact_iff_from_three :
    ∃ s visited,
      scan memory (oneKey (lit "a")) [{ type := 1, i64 := 3 }] [] 0 0 fourRows = .ok s
        ∧ s.visited = .ok visited
        ∧ Exactly (oneKey (lit "a")) [{ type := 1, i64 := 3 }] [] fourRows.kv.1 visited :=
  (scan_exact_iff memory_isOrdered _ fourRows fourRows_filled (oneKey (lit "a")) (by simp)
    [{ type := 1, i64 := 3 }] [] (by decide) (by decide)).mpr fun k₀ hk₀ => by
      have hfloor : floorKey (keyCode (oneKey (lit "a")).pfx [{ type := 1, i64 := 3 }])
          fourRows.kv.1 = some (rowOf "a" 3).1 := by decide +kernel
      rw [hfloor] at hk₀
      cases hk₀
      exact Or.inl le_rfl

/-- A scan from 2 on visits 1 as well; and a scan of all of the second
table lands on the last row of the first and visits nothing. -/
theorem scan_starts_wrong :
    visits "a" [{ type := 1, i64 := 2 }] [] = .ok [rowOf "a" 1, rowOf "a" 3]
      ∧ ¬ Exactly (oneKey (lit "a")) [{ type := 1, i64 := 2 }] [] fourRows.kv.1
        [rowOf "a" 1, rowOf "a" 3]
      ∧ visits "b" [] [] = .ok []
      ∧ ¬ Exactly (oneKey (lit "b")) [] [] fourRows.kv.1 [] := by
  refine ⟨by decide +kernel, fun h => ?_, by decide +kernel, fun h => ?_⟩
  · have hlower := ((h.mem (rowOf "a" 1)).mp (List.mem_cons_self ..)).2.lower
    exact absurd hlower (by decide +kernel)
  · have hmem := (h.mem (rowOf "b" 1)).mpr
      ⟨by decide +kernel, rowOf_keyOf "b" 1, by decide +kernel, Or.inl rfl⟩
    cases hmem

end Svacara.Relational
