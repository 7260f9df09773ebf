/-
When a `Commit` that returns an error has done nothing.

The history entry is made before the first write and stays there, and the
writes made before the one that failed stay in the store. So nothing has
been done only if no store operation is reached: `allOrNothing_iff` says
exactly when.
-/
import Svacara.Transaction.Proofs.Step

namespace Svacara.Transaction

variable {m : Manager} {tx : Tx}

/-- The loop over the writes ends with an error if and only if one of its
store operations fails. -/
theorem applyWrites_error_iff (fails : Nat → Bool) (ws : List Write) (n : Nat) (kv : Store) :
    (applyWrites fails n ws kv).2 = none ↔ ∀ i < ws.length, fails (n + i) = false := by
  induction ws generalizing n kv with
  | nil => simp [applyWrites]
  | cons w ws ih =>
      obtain ⟨key, val⟩ := w
      cases hfail : fails n with
      | true =>
          -- the loop stops here, whichever operation it is
          have hstop : (applyWrites fails n (⟨key, val⟩ :: ws) kv).2 ≠ none := by
            cases val <;> simp [applyWrites, hfail]
          refine iff_of_false hstop fun hall => ?_
          have h0 := hall 0 (Nat.zero_lt_succ _)
          rw [Nat.add_zero, hfail] at h0
          cases h0
      | false =>
          have hstep : applyWrites fails n (⟨key, val⟩ :: ws) kv
              = applyWrites fails (n + 1) ws (Function.update kv key val) := by
            cases val <;> simp [applyWrites, hfail]
          rw [hstep, ih]
          constructor
          · intro hall i hi
            cases i with
            | zero => exact hfail
            | succ i =>
                have := hall i (Nat.lt_of_succ_lt_succ hi)
                rwa [Nat.add_right_comm] at this
          · intro hall i hi
            have := hall (i + 1) (Nat.succ_lt_succ hi)
            rwa [← Nat.add_assoc, Nat.add_right_comm] at this

/-- A `Commit` that is refused changes neither store nor history. -/
theorem commit_of_refused (h : Refused m tx) (ranges writes : Visit Write)
    (fails : Nat → Bool) :
    (commit true m tx ranges writes fails).1 ≠ none
      ∧ (commit true m tx ranges writes fails).2.2.kv = m.kv
      ∧ (commit true m tx ranges writes fails).2.2.history = m.history := by
  unfold commit
  by_cases hfin : tx.finished = true
  · rw [if_pos hfin]
    exact ⟨Option.some_ne_none _, rfl, rfl⟩
  · rw [if_neg hfin, if_pos (h.resolve_left hfin)]
    exact ⟨Option.some_ne_none _, rfl, rfl⟩

/-- One that is not refused returns an error if and only if a store
operation fails, and then the history has an entry. -/
theorem commit_of_not_refused (h : ¬ Refused m tx) (ranges writes : Visit Write)
    (fails : Nat → Bool) :
    ((commit true m tx ranges writes fails).1 = none
        ↔ ∀ i < tx.pending.entries.length, fails i = false)
      ∧ ((commit true m tx ranges writes fails).1 ≠ none →
        ∃ e ∈ (commit true m tx ranges writes fails).2.2.history,
          e.version = tx.version) := by
  have hlen := (writes.perm tx.pending.entries).length_eq
  have herr := applyWrites_error_iff fails (writes.order tx.pending.entries) 0 m.kv
  simp only [hlen, Nat.zero_add] at herr
  unfold commit
  rw [if_neg fun hfin => h (Or.inl hfin), if_neg fun hconf => h (Or.inr hconf)]
  by_cases hnone : tx.pending.entries.length = 0
  · rw [if_pos hnone, hnone]
    exact ⟨iff_of_true rfl fun i hi => absurd hi (Nat.not_lt_zero i), fun h => absurd rfl h⟩
  · rw [if_neg hnone]
    dsimp only
    rw [← herr]
    split
    · next kv e happly =>
        rw [happly]
        refine ⟨iff_of_false (Option.some_ne_none e) (Option.some_ne_none e), fun _ => ?_⟩
        exact ⟨_, List.mem_append_right _ (List.mem_singleton_self _), rfl⟩
    · next kv happly =>
        rw [happly]
        exact ⟨iff_of_true rfl rfl, fun h => absurd rfl h⟩

/-- An error of `Commit` leaves everything as it was if and only if either
it was refused, by a manager that has no entry for the transaction from
before, or none of the store operations for its writes fails. -/
theorem allOrNothing_iff (m : Manager) (tx : Tx) (ranges writes : Visit Write)
    (fails : Nat → Bool) :
    AllOrNothing m tx ranges writes fails
      ↔ (Refused m tx → ∀ h ∈ m.history, h.version ≠ tx.version)
        ∧ (¬ Refused m tx → ∀ i < tx.pending.entries.length, fails i = false) := by
  unfold AllOrNothing
  dsimp only
  by_cases h : Refused m tx
  · obtain ⟨herr, hkv, hhist⟩ := commit_of_refused h ranges writes fails
    rw [hkv, hhist]
    constructor
    · intro hall
      exact ⟨fun _ => (hall herr).2, fun hn => absurd h hn⟩
    · intro hall _
      exact ⟨rfl, hall.1 h⟩
  · obtain ⟨hnone, hentry⟩ := commit_of_not_refused h ranges writes fails
    constructor
    · intro hall
      refine ⟨fun hr => absurd hr h, fun _ => ?_⟩
      rw [← hnone]
      by_contra herr
      obtain ⟨e, he, hver⟩ := hentry herr
      exact (hall herr).2 e he hver
    · intro hall herr
      exact absurd (hnone.mpr (hall.2 h)) herr

/-- A transaction that has set two keys. -/
def twoWrites : Tx :=
  (((begin (newManager fun _ => none) readCommitted).1.set [1] (some [7])).set [2] (some [8]))

/-- The second of two writes fails: the error is returned, the first write
has been made, and the history has the entry. -/
theorem second_write_fails :
    let m := (begin (newManager fun _ => none) readCommitted).2
    let (err, _, m') := commit true m twoWrites .inOrder .inOrder (· == 1)
    err = some .set ∧ m.kv [2] = none ∧ m'.kv [2] = some [8]
      ∧ m'.history.map CommittedTX.version = [twoWrites.version]
      ∧ ¬ AllOrNothing m twoWrites .inOrder .inOrder (· == 1) := by
  refine ⟨by decide, by decide, by decide, by decide, ?_⟩
  intro hall
  have hkv := congrFun (hall (by decide)).1 [2]
  exact absurd hkv (by decide)

end Svacara.Transaction
