/-
The store is a persistent map as long as it writes once.

`State` is where a run without a fault ends: on the empty store, or on
one with the leaf of the only `Set`. `run_fresh` decides from the calls
alone whether the run gets there or faults behind the end of the file.
-/
import Svacara.Kvstore.Proofs.Single

namespace Svacara.Kvstore

open Svacara.Storage Outcome

variable {file : File} {key val : Bytes} {fuel : Nat} {mode : SyncMode} {ops : List Op}

-- ========================================================= the map

/-- The map with one pair. -/
def pair (key val : Bytes) : Bytes → Option Bytes :=
  Function.update (fun _ => none) key (some val)

theorem apply_del_empty (w : World) (key : Bytes) :
    (Op.del w key).apply (fun _ => none) = fun _ => none :=
  Function.update_eq_self key (fun _ => none)

theorem apply_spares {op : Op} (h : op.spares key = true) :
    op.apply (pair key val) = pair key val := by
  cases op with
  | set w key' val' => cases h
  | del w other =>
      have hne : other ≠ key := by simpa [Op.spares] using h
      have hnone : pair key val other = none := Function.update_of_ne hne ..
      show Function.update (pair key val) other none = pair key val
      rw [← hnone, Function.update_eq_self]

theorem foldl_spares (h : ops.all (Op.spares key) = true) :
    ops.foldl Op.apply (pair key val) = pair key val := by
  induction ops with
  | nil => rfl
  | cons op ops ih =>
      rw [List.all_cons, Bool.and_eq_true] at h
      rw [List.foldl_cons, apply_spares h.1]
      exact ih h.2

-- ====================================================== the states

/-- Where the calls lead when none of them faults. -/
inductive State (mode : SyncMode) (ops : List Op) : KV → Prop where
  | fresh (hset : ops.any Op.isSet = false) (hmap : contents ops = fun _ => none) :
      State mode ops (fresh mode)
  | single (file : File) (key val : Bytes) (h : OneLeaf file key val)
      (hset : ops.any Op.isSet = true) (hmap : contents ops = pair key val) :
      State mode ops (single file mode)

theorem State.shows {db : KV} (h : State mode ops db) (hfuel : 0 < fuel) :
    Shows fuel db (contents ops) := by
  cases h with
  | fresh hset hmap =>
      rw [hmap]
      exact shows_fresh fuel mode
  | single file key val hfile hset hmap =>
      rw [hmap]
      exact shows_single hfile hfuel mode

theorem reopens_empty (fuel : Nat) : Reopens fuel ⟨[], []⟩ fun _ => none :=
  fun _ mode hw => ⟨fresh mode, open_empty hw mode, shows_fresh fuel mode⟩

theorem reopens_single (h : OneLeaf file key val) (hfuel : 0 < fuel) :
    Reopens fuel file (pair key val) :=
  fun _ mode hw => ⟨single file mode, open_single h hw mode, shows_single h hfuel mode⟩

theorem State.reopens {db : KV} (h : State mode ops db) (hfuel : 0 < fuel) :
    Reopens fuel db.close (contents ops) := by
  cases h with
  | fresh hset hmap =>
      rw [hmap]
      exact reopens_empty fuel
  | single file key val hfile hset hmap =>
      rw [hmap]
      exact reopens_single hfile hfuel

-- ============================================================ runs

theorem step_single (h : OneLeaf file key val) (hfuel : 0 < fuel) (op : Op) :
    step fuel (single file mode) op
      = if op.spares key then .ok (none, single file mode) else .error .pastEof := by
  cases op with
  | set w key' val' => exact set_single h fuel w mode key' val'
  | del w other =>
      unfold step Op.spares
      by_cases hne : other = key
      · subst hne
        simp [del_single_self h hfuel w mode]
      · simp [del_single_other h hfuel w mode hne, hne]

theorem run_single (h : OneLeaf file key val) (hfuel : 0 < fuel) (ops : List Op) :
    run fuel (single file mode) ops
      = if ops.all (Op.spares key) then .ok (ops.map fun _ => none, single file mode)
        else .error .pastEof := by
  induction ops with
  | nil => rfl
  | cons op ops ih =>
      rw [run, step_single h hfuel, List.all_cons]
      cases hop : op.spares key with
      | false => rfl
      | true =>
          rw [if_pos rfl, ok_bind, Bool.true_and]
          dsimp only
          rw [ih]
          cases ops.all (Op.spares key) <;> rfl

/-- A run from an empty file: either no call writes after the first
`Set`, and all return, or the run ends in a fault. -/
theorem run_fresh (hfuel : 0 < fuel) (mode : SyncMode) (ops : List Op)
    (hrows : ∀ op ∈ ops, op.IsRow) :
    (oneSet ops = true ∧ ∃ db, run fuel (fresh mode) ops = .ok (ops.map fun _ => none, db)
        ∧ State mode ops db)
      ∨ oneSet ops = false ∧ run fuel (fresh mode) ops = .error .pastEof := by
  induction ops with
  | nil => exact Or.inl ⟨rfl, fresh mode, rfl, .fresh rfl rfl⟩
  | cons op ops ih =>
      have hop := hrows op (List.mem_cons_self ..)
      cases op with
      | del w k =>
          have hstep : step fuel (fresh mode) (.del w k) = .ok (none, fresh mode) := rfl
          have hmap : contents (.del w k :: ops) = contents ops := by
            unfold contents
            rw [List.foldl_cons, apply_del_empty]
          rw [run, hstep, ok_bind]
          dsimp only
          rcases ih fun op' hop' => hrows op' (List.mem_cons_of_mem _ hop') with
            ⟨hone, db, hrun, hstate⟩ | ⟨hone, hrun⟩
          · rw [hrun]
            refine Or.inl ⟨hone, db, rfl, ?_⟩
            cases hstate with
            | fresh hset hempty => exact .fresh hset (hmap.trans hempty)
            | single file key val h hset hpair =>
                exact .single file key val h hset (hmap.trans hpair)
          · rw [hrun]
            exact Or.inr ⟨hone, rfl⟩
      | set w k v =>
          obtain ⟨hw, hk, hv⟩ := hop
          obtain ⟨page, leaf, -, -, hfile, hset⟩ := set_fresh hw hk hv fuel mode
          have hstep : step fuel (fresh mode) (.set w k v) = _ := hset
          rw [run, hstep, ok_bind]
          dsimp only
          rw [run_single hfile hfuel]
          show (ops.all (Op.spares k) = true ∧ _) ∨ (ops.all (Op.spares k) = false ∧ _)
          cases hall : ops.all (Op.spares k) with
          | false => exact Or.inr ⟨rfl, rfl⟩
          | true =>
              refine Or.inl ⟨rfl, _, rfl, .single _ k v hfile rfl ?_⟩
              exact foldl_spares hall

/-- The end of a run that has returned without errors. -/
theorem Reaches.state {db : KV} (h : Reaches fuel mode ops db) (hfuel : 0 < fuel)
    (hrows : ∀ op ∈ ops, op.IsRow) : State mode ops db ∧ oneSet ops = true := by
  obtain ⟨db₀, errs, hopen, hrun, -⟩ := h
  rw [open_empty (fun _ => rfl)] at hopen
  cases hopen
  rcases run_fresh hfuel mode ops hrows with ⟨hone, db', hrun', hstate⟩ | ⟨-, hfault⟩
  · rw [hrun] at hrun'
    cases hrun'
    exact ⟨hstate, hone⟩
  · rw [hrun] at hfault
    cases hfault

/-- The calls all return and their map is there, before and after `Close`
and `Open`, if and only if what follows the first `Set` are deletions of
other keys. -/
theorem persists_iff (fuel : Nat) (hfuel : 0 < fuel) (mode : SyncMode) (ops : List Op)
    (hrows : ∀ op ∈ ops, op.IsRow) : Persists fuel mode ops ↔ oneSet ops = true := by
  constructor
  · intro ⟨db, hreach, _, _⟩
    exact (hreach.state hfuel hrows).2
  · intro hone
    rcases run_fresh hfuel mode ops hrows with ⟨-, db, hrun, hstate⟩ | ⟨hnot, -⟩
    · refine ⟨db, ⟨fresh mode, _, open_empty (fun _ => rfl) mode, hrun, ?_⟩,
        hstate.shows hfuel, hstate.reopens hfuel⟩
      intro e he
      obtain ⟨op, -, rfl⟩ := List.mem_map.mp he
      rfl
    · rw [hone] at hnot
      cases hnot

/-- A deletion, the only `Set`, and the deletion of another key. -/
def oneSetRun : List Op :=
  [.del .calm (make 13), .set .calm (make 13) [1], .del .calm (1 :: make 12)]

theorem persists_iff_one_set :
    (Persists 1 syncFull oneSetRun ↔ oneSet oneSetRun = true)
      ∧ oneSet oneSetRun = true ∧ contents oneSetRun (make 13) = some [1] := by
  refine ⟨persists_iff 1 Nat.one_pos syncFull oneSetRun ?_, by decide, by decide⟩
  have hw : World.calm.Quiet := fun _ => rfl
  intro op hop
  simp only [oneSetRun, List.mem_cons, List.not_mem_nil, or_false] at hop
  rcases hop with rfl | rfl | rfl
  · exact ⟨hw, rfl⟩
  · exact ⟨hw, rfl, by decide⟩
  · exact ⟨hw, rfl⟩

/-- Two `Set`s of different keys. -/
def twoSetRun : List Op := [.set .calm (make 13) [1], .set .calm (1 :: make 12) [2]]

/-- The second `Set` touches page 2 of a file that has two pages. -/
theorem second_set_faults :
    (∃ db, KV.open .calm ⟨[], []⟩ syncFull = .ok (.ok db)
        ∧ run 1 db twoSetRun = .error .pastEof)
      ∧ ¬ Persists 1 syncFull twoSetRun := by
  have hw : World.calm.Quiet := fun _ => rfl
  have hrows : ∀ op ∈ twoSetRun, op.IsRow := by
    intro op hop
    simp only [twoSetRun, List.mem_cons, List.not_mem_nil, or_false] at hop
    rcases hop with rfl | rfl <;> exact ⟨hw, rfl, by decide⟩
  have hnot : oneSet twoSetRun = false := by decide
  constructor
  · rcases run_fresh Nat.one_pos syncFull twoSetRun hrows with ⟨hone, -⟩ | ⟨-, hfault⟩
    · rw [hnot] at hone
      cases hone
    · exact ⟨fresh syncFull, open_empty hw syncFull, hfault⟩
  · intro ⟨db, hreach, _⟩
    have hone := (hreach.state Nat.one_pos hrows).2
    rw [hnot] at hone
    cases hone

end Svacara.Kvstore
