/-
What a call can do.

`Change` lists the outcomes of a call on a transaction, one constructor
each with the guards that lead there, and `step_cases` says that a step
is one of them, a `Begin`, or nothing. Every invariant is proved from
these. `trace_induction` is the rule for runs.
-/
import Svacara.Transaction.Log
import Mathlib.Data.List.Induction

namespace Svacara.Transaction

/-- The outcomes of a call on the transaction `tx`: the answer, the
transaction and the manager afterwards. -/
inductive Change (trim : Bool) (m : Manager) (tx : Tx) :
    Call → Answer → Tx → Manager → Prop where
  | get (i : Nat) (key : Bytes) :
      Change trim m tx (.get i key) (.got (tx.get m.kv key).1)
        (tx.get m.kv key).2 m
  | seek (i : Nat) (key : Bytes) :
      Change trim m tx (.seek i key) .none (tx.seek key) m
  | set (i : Nat) (key : Bytes) (val : Option Bytes) :
      Change trim m tx (.set i key val) .none (tx.set key val) m
  | del (i : Nat) (key : Bytes) :
      Change trim m tx (.del i key) .none (tx.del key) m
  | finished (i : Nat) (ranges writes : Visit Write) (fails : Nat → Bool)
      (hfin : tx.finished = true) :
      Change trim m tx (.commit i ranges writes fails)
        (.committed (some .finished)) tx m
  | conflict (i : Nat) (ranges writes : Visit Write) (fails : Nat → Bool)
      (hfin : tx.finished = false) (hiso : serializable ≤ tx.isolation)
      (hdet : detectConflicts m tx = true) :
      Change trim m tx (.commit i ranges writes fails)
        (.committed (some .conflict)) { tx with aborted := true } (endOngoing m tx)
  | empty (i : Nat) (ranges writes : Visit Write) (fails : Nat → Bool)
      (hfin : tx.finished = false)
      (hdet : serializable ≤ tx.isolation → detectConflicts m tx = false)
      (hnone : tx.pending.entries.length = 0) :
      Change trim m tx (.commit i ranges writes fails) (.committed none)
        { tx with committed := true } (updateMinVer (endOngoing m tx))
  | failed (i : Nat) (ranges writes : Visit Write) (fails : Nat → Bool)
      (hfin : tx.finished = false)
      (hdet : serializable ≤ tx.isolation → detectConflicts m tx = false)
      (hsome : tx.pending.entries.length ≠ 0) (kv : Store) (e : CommitError)
      (happly : applyWrites fails 0 (writes.order tx.pending.entries) m.kv
        = (kv, some e)) :
      Change trim m tx (.commit i ranges writes fails) (.committed (some e)) tx
        { m with
          kv := kv
          history := m.history ++ [⟨tx.version,
            (ranges.order tx.pending.entries).map fun w => ⟨w.1, w.1⟩⟩] }
  | done (i : Nat) (ranges writes : Visit Write) (fails : Nat → Bool)
      (hfin : tx.finished = false)
      (hdet : serializable ≤ tx.isolation → detectConflicts m tx = false)
      (hsome : tx.pending.entries.length ≠ 0) (kv : Store)
      (happly : applyWrites fails 0 (writes.order tx.pending.entries) m.kv
        = (kv, none)) (m' : Manager)
      (hm' : m' = updateMinVer (endOngoing { m with
        kv := kv
        history := m.history ++ [⟨tx.version,
          (ranges.order tx.pending.entries).map fun w => ⟨w.1, w.1⟩⟩] } tx)) :
      Change trim m tx (.commit i ranges writes fails) (.committed none)
        { tx with committed := true } (if trim then trimHistory m' else m')
  | abortFinished (i : Nat) (hfin : tx.finished = true) :
      Change trim m tx (.abort i) .none tx m
  | abort (i : Nat) (hfin : tx.finished = false) :
      Change trim m tx (.abort i) .none { tx with aborted := true }
        (updateMinVer (endOngoing m tx))

theorem commit_change (trim : Bool) (m : Manager) (tx : Tx) (i : Nat)
    (ranges writes : Visit Write) (fails : Nat → Bool) :
    Change trim m tx (.commit i ranges writes fails)
      (.committed (commit trim m tx ranges writes fails).1)
      (commit trim m tx ranges writes fails).2.1
      (commit trim m tx ranges writes fails).2.2 := by
  unfold commit
  by_cases hfin : tx.finished = true
  · rw [if_pos hfin]
    exact .finished i ranges writes fails hfin
  · rw [if_neg hfin]
    have hfin' : tx.finished = false := by simpa using hfin
    by_cases hdet : serializable ≤ tx.isolation ∧ detectConflicts m tx = true
    · rw [if_pos hdet]
      exact .conflict i ranges writes fails hfin' hdet.1 hdet.2
    · rw [if_neg hdet]
      have hdet' : serializable ≤ tx.isolation → detectConflicts m tx = false := by
        intro hiso
        simpa using fun h => hdet ⟨hiso, h⟩
      by_cases hnone : tx.pending.entries.length = 0
      · rw [if_pos hnone]
        exact .empty i ranges writes fails hfin' hdet' hnone
      · rw [if_neg hnone]
        dsimp only
        cases happly : applyWrites fails 0 (writes.order tx.pending.entries) m.kv with
        | mk kv err =>
            cases err with
            | none => exact .done i ranges writes fails hfin' hdet' hnone kv happly _ rfl
            | some e => exact .failed i ranges writes fails hfin' hdet' hnone kv e happly

/-- The outcome of a `Commit` is seen from its result. -/
theorem change_of_commit {trim : Bool} {m m' : Manager} {tx tx' : Tx}
    {ranges writes : Visit Write} {fails : Nat → Bool} {err : Option CommitError}
    (h : commit trim m tx ranges writes fails = (err, tx', m')) (i : Nat) :
    Change trim m tx (.commit i ranges writes fails) (.committed err) tx' m' := by
  have hchange := commit_change trim m tx i ranges writes fails
  rwa [h] at hchange

theorem commit_pending (trim : Bool) (m : Manager) (tx : Tx) (ranges writes : Visit Write)
    (fails : Nat → Bool) : (commit trim m tx ranges writes fails).2.1.pending = tx.pending := by
  rcases h : commit trim m tx ranges writes fails with ⟨err, tx', m'⟩
  cases change_of_commit h 0 with
  | finished => rfl
  | conflict => rfl
  | empty => rfl
  | failed => rfl
  | done => rfl

theorem get_snd (tx : Tx) (kv : Store) (key : Bytes) :
    (tx.get kv key).2 = { tx with reads := tx.reads ++ [⟨key, key⟩] } := by
  rw [Tx.get]
  split
  · rfl
  · rfl

/-- A call on a transaction has one of the outcomes. -/
theorem callOn_change (trim : Bool) (m : Manager) (tx : Tx) {c : Call} {i : Nat}
    (hc : c.tx = some i) :
    Change trim m tx c (callOn trim m tx c).1 (callOn trim m tx c).2.1
      (callOn trim m tx c).2.2 := by
  cases c with
  | begin isolation => cases hc
  | get j key => exact .get j key
  | seek j key => exact .seek j key
  | set j key val => exact .set j key val
  | del j key => exact .del j key
  | commit j ranges writes fails => exact commit_change trim m tx j ranges writes fails
  | abort j =>
      unfold callOn abort
      by_cases hfin : tx.finished = true
      · simp only [if_pos hfin]
        exact .abortFinished j hfin
      · have hfin' : tx.finished = false := by simpa using hfin
        simp only [if_neg hfin]
        exact .abort j hfin'

/-- A call on a transaction, as a step. -/
theorem step_of_tx (trim : Bool) (s : Sys) {c : Call} {i : Nat} (hc : c.tx = some i) :
    step trim s c = match s.txs[i]? with
      | none => (.none, s)
      | some tx => ((callOn trim s.manager tx c).1,
          ⟨(callOn trim s.manager tx c).2.2,
            s.txs.set i (callOn trim s.manager tx c).2.1⟩) := by
  cases c with
  | begin isolation => cases hc
  | _ =>
      cases hc
      rfl

/-- What a step can do. -/
theorem step_cases (trim : Bool) (s : Sys) (c : Call) :
    (∃ isolation, c = .begin isolation)
      ∨ (∃ i, c.tx = some i ∧ s.txs[i]? = none ∧ step trim s c = (.none, s))
      ∨ ∃ i tx a tx' m', c.tx = some i ∧ s.txs[i]? = some tx
        ∧ Change trim s.manager tx c a tx' m'
        ∧ step trim s c = (a, ⟨m', s.txs.set i tx'⟩) := by
  cases hc : c.tx with
  | none =>
      left
      cases c with
      | begin isolation => exact ⟨isolation, rfl⟩
      | _ => cases hc
  | some i =>
      right
      have hstep := step_of_tx trim s hc
      cases htx : s.txs[i]? with
      | none =>
          left
          rw [htx] at hstep
          exact ⟨i, rfl, htx, hstep⟩
      | some tx =>
          right
          rw [htx] at hstep
          exact ⟨i, tx, _, _, _, rfl, htx, callOn_change trim s.manager tx hc, hstep⟩

-- ======================================== replacing and adding one

section Elements

variable {α : Type}

/-- An element of a list with one replaced. -/
theorem getElem?_set_cases {xs : List α} {i j : Nat} {x x' y : α}
    (hi : xs[i]? = some x) (hj : (xs.set i x')[j]? = some y) :
    (j = i ∧ y = x') ∨ (j ≠ i ∧ xs[j]? = some y) := by
  rw [List.getElem?_set] at hj
  by_cases hij : i = j
  · left
    rw [if_pos hij, if_pos (List.getElem?_eq_some_iff.mp hi).1] at hj
    exact ⟨hij.symm, (Option.some.inj hj).symm⟩
  · right
    rw [if_neg hij] at hj
    exact ⟨fun h => hij h.symm, hj⟩

theorem getElem?_set_of_ne {xs : List α} {i j : Nat} {x' : α} (h : j ≠ i) :
    (xs.set i x')[j]? = xs[j]? :=
  List.getElem?_set_ne (Ne.symm h)

theorem getElem?_set_eq {xs : List α} {i : Nat} {x x' : α}
    (hi : xs[i]? = some x) : (xs.set i x')[i]? = some x' :=
  List.getElem?_set_self (List.getElem?_eq_some_iff.mp hi).1

/-- An element of a list with a new one behind. -/
theorem getElem?_concat_cases {xs : List α} {j : Nat} {x y : α}
    (hj : (xs ++ [x])[j]? = some y) :
    xs[j]? = some y ∨ (j = xs.length ∧ y = x) := by
  rw [List.getElem?_append] at hj
  split at hj
  · exact Or.inl hj
  · right
    obtain ⟨hlt, heq⟩ := List.getElem?_eq_some_iff.mp hj
    rw [List.length_singleton] at hlt
    have hj' : j = xs.length := by omega
    subst hj'
    simp at heq
    exact ⟨rfl, heq.symm⟩

end Elements

-- ============================================================ runs

theorem trace_concat (trim : Bool) (kv : Store) (calls : List Call) (c : Call) :
    trace trim kv (calls ++ [c]) = tick trim (trace trim kv calls) c := by
  unfold trace
  rw [List.foldl_append]
  rfl

/-- What holds initially and is kept by every call that may be made holds
after every run. -/
theorem trace_induction {trim : Bool} {kv : Store} {ok : Sys × Log → Call → Prop}
    {P : Sys × Log → Prop} (hinit : P (Sys.init kv, Log.empty))
    (hstep : ∀ x c, P x → ok x c → P (tick trim x c)) {calls : List Call}
    (hok : Along ok trim (Sys.init kv, Log.empty) calls) : P (trace trim kv calls) := by
  unfold trace
  generalize (Sys.init kv, Log.empty) = x at hinit hok
  induction calls generalizing x with
  | nil => exact hinit
  | cons c calls ih => exact ih _ (hstep x c hinit hok.1) hok.2

theorem along_of_forall {trim : Bool} {ok : Sys × Log → Call → Prop} {calls : List Call}
    (hok : ∀ c ∈ calls, ∀ x, ok x c) (x : Sys × Log) : Along ok trim x calls := by
  induction calls generalizing x with
  | nil => trivial
  | cons c calls ih =>
      refine ⟨hok c (List.mem_cons_self ..) x, ih (fun c hc => ?_) _⟩
      exact hok c (List.mem_cons_of_mem _ hc)

/-- What holds along a run holds along its beginning. -/
theorem Along.left {trim : Bool} {ok : Sys × Log → Call → Prop} {before rest : List Call}
    {x : Sys × Log} (h : Along ok trim x (before ++ rest)) : Along ok trim x before := by
  induction before generalizing x with
  | nil => trivial
  | cons c before ih => exact ⟨h.1, ih h.2⟩

theorem Along.and {trim : Bool} {ok ok' : Sys × Log → Call → Prop} {calls : List Call}
    {x : Sys × Log} (h : Along ok trim x calls) (h' : Along ok' trim x calls) :
    Along (fun x c => ok x c ∧ ok' x c) trim x calls := by
  induction calls generalizing x with
  | nil => trivial
  | cons c calls ih => exact ⟨⟨h.1, h'.1⟩, ih h.2 h'.2⟩

end Svacara.Transaction
