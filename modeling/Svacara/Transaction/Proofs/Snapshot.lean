/-
What a transaction reads.

`Begin` records a snapshot, but `Tx.Get` asks the live store, so a key
that the transaction has not written itself reads as the commits since
its `Begin` have left it. `get_snapshot_iff` says exactly when that is
the value at the `Begin`; `get_sees_later_commit` is a run in which it
is not. The isolation level plays no part in it.
-/
import Svacara.Transaction.Proofs.Product

namespace Svacara.Transaction

variable {trim : Bool} {i : Nat}

/-- `Tx.Get` is the transaction's own write if there is one, and the live
store otherwise. -/
theorem step_get {kv : Store} {x : Sys × Log} (h : Product kv x)
    (hi : i < x.1.txs.length) (k : Bytes) :
    (step trim x.1 (.get i k)).1
      = .got ((net (x.2.events i) k).getD (x.1.manager.kv k)) := by
  obtain ⟨tx, htx⟩ : ∃ tx, x.1.txs[i]? = some tx := ⟨_, List.getElem?_eq_getElem hi⟩
  rw [step_of_tx trim x.1 rfl, htx, ← h.pending i tx htx]
  simp only [callOn, Tx.get]
  cases tx.pending.lookup k <;> rfl

-- ================================================ what a run keeps

/-- Transactions and commits are only ever added. -/
structure Extends (x y : Sys × Log) : Prop where
  txs : x.1.txs.length ≤ y.1.txs.length
  commits : x.2.commits <+: y.2.commits

theorem commits_observe (l : Log) (c : Call) (a : Answer) :
    l.commits <+: (observe l c a).commits := by
  cases c with
  | begin isolation => exact List.prefix_rfl
  | get i key => cases a <;> exact List.prefix_rfl
  | seek i key => exact List.prefix_rfl
  | set i key val => exact List.prefix_rfl
  | del i key => exact List.prefix_rfl
  | commit i ranges writes fails =>
      cases a with
      | none => exact List.prefix_rfl
      | got val => exact List.prefix_rfl
      | committed err =>
          cases err with
          | none => exact List.prefix_append ..
          | some e => exact List.prefix_rfl
  | abort i => exact List.prefix_rfl

theorem extends_tick (trim : Bool) (x : Sys × Log) (c : Call) : Extends x (tick trim x c) := by
  refine ⟨?_, commits_observe ..⟩
  show x.1.txs.length ≤ (step trim x.1 c).2.txs.length
  rcases step_cases trim x.1 c with ⟨isolation, rfl⟩ | ⟨i, _, _, heq⟩
    | ⟨i, tx, a, tx', m', _, _, _, heq⟩
  · show x.1.txs.length ≤ (x.1.txs ++ _).length
    rw [List.length_append]
    exact Nat.le_add_right ..
  · rw [heq]
  · rw [heq, List.length_set]

theorem extends_trace (trim : Bool) (kv : Store) (before rest : List Call) :
    Extends (trace trim kv before) (trace trim kv (before ++ rest)) := by
  induction rest using List.reverseRecOn with
  | nil =>
      rw [List.append_nil]
      exact ⟨Nat.le_refl _, List.prefix_rfl⟩
  | append_singleton rest c ih =>
      rw [← List.append_assoc, trace_concat]
      have hlast := extends_tick trim (trace trim kv (before ++ rest)) c
      exact ⟨Nat.le_trans ih.txs hlast.txs, ih.commits.trans hlast.commits⟩

-- ======================================================= snapshots

theorem committed_since {l l' : Log} (h : l.commits <+: l'.commits) :
    l'.committed = l.committed ++ l'.since l.commits.length := by
  rw [committed_split l' l.commits.length, ← List.prefix_iff_eq_take.mp h]
  rfl

/-- The transaction begun after `before`, in a run whose store operations
do not fail: a `Get` of `k` returns its own latest write of `k`, or else
the value at its `Begin`, if and only if it has such a write or the
commits since then together leave `k` alone or at that value. -/
theorem get_snapshot_iff (kv : Store) (before rest : List Call)
    (isolation : IsolationLevel)
    (hok : ∀ c ∈ before ++ .begin isolation :: rest, c.StoreOk) (k : Bytes) :
    let start := trace true kv before
    let now := trace true kv (before ++ .begin isolation :: rest)
    let i := start.1.txs.length
    (step true now.1 (.get i k)).1
        = .got ((net (now.2.events i) k).getD (start.1.manager.kv k))
      ↔ net (now.2.events i) k ≠ none
        ∨ ∀ v, net (now.2.since start.2.commits.length) k = some v →
          v = start.1.manager.kv k := by
  intro start now i
  have hstart : Product kv start := trace_product true kv before fun c hc =>
    hok c (List.mem_append_left _ hc)
  have hnow : Product kv now := trace_product true kv _ hok
  have hext : Extends start now := extends_trace true kv before _
  have hbegun : i < now.1.txs.length := by
    have hfirst := extends_trace true kv (before ++ [.begin isolation]) rest
    rw [trace_concat, List.append_assoc] at hfirst
    refine Nat.lt_of_lt_of_le ?_ hfirst.txs
    show i < (start.1.txs ++ _).length
    rw [List.length_append]
    exact Nat.lt_succ_self i
  have hstore : now.1.manager.kv k
      = (net (now.2.since start.2.commits.length) k).getD (start.1.manager.kv k) := by
    rw [hnow.store, committed_since hext.commits, after_append, after_apply, hstart.store]
  rw [step_get hnow hbegun, hstore]
  cases net (now.2.events i) k with
  | some own => simp
  | none =>
      cases net (now.2.since start.2.commits.length) k with
      | none => simp
      | some v => simp

/-- The calls after a `Begin` during which another transaction writes
`key` and commits. -/
def laterCommit (key : Bytes) : List Call :=
  [.begin serializable, .set 1 key (some [7]), .commit 1 .inOrder .inOrder fun _ => false]

/-- A commit of another key in between does no harm. -/
theorem get_snapshot_iff_other_key :
    let kv : Store := fun _ => some [0]
    let now := trace true kv ([] ++ .begin snapshotIsolation :: laterCommit [2])
    ((step true now.1 (.get 0 [1])).1
        = .got ((net (now.2.events 0) [1]).getD ((trace true kv []).1.manager.kv [1]))
      ↔ net (now.2.events 0) [1] ≠ none
        ∨ ∀ v, net (now.2.since (trace true kv []).2.commits.length) [1] = some v →
          v = (trace true kv []).1.manager.kv [1])
      ∧ (step true now.1 (.get 0 [1])).1 = .got (some [0]) := by
  refine ⟨get_snapshot_iff _ [] (laterCommit [2]) snapshotIsolation ?_ [1], by decide⟩
  simp [laterCommit, Call.StoreOk]

/-- A commit of the key itself shows: the transaction has not written
`[1]`, the store did not have it at its `Begin`, and still its `Get`
returns what the other transaction has committed since. -/
theorem get_sees_later_commit :
    let kv : Store := fun _ => none
    let start := trace true kv []
    let now := trace true kv ([] ++ .begin snapshotIsolation :: laterCommit [1])
    net (now.2.events 0) [1] = none
      ∧ start.1.manager.kv [1] = none
      ∧ (step true now.1 (.get 0 [1])).1 = .got (some [7])
      ∧ (step true now.1 (.get 0 [1])).1
        ≠ .got ((net (now.2.events 0) [1]).getD (start.1.manager.kv [1])) := by
  decide

end Svacara.Transaction
