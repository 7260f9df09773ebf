/-
Calls on a tree in memory do not run out of pages.

The contract of the page callbacks lets `NewPage` refuse, so the results
about the tree read "unless it did". For a store that hands out addresses
in order, as the one in memory does, that is a matter of counting: it
refuses when it has come to the last of them (`Numbered`), so a call that
makes no more allocations than there are addresses left is not refused
(`Numbered.returns`). Keeping a log of the calls or a ledger of the pages
changes nothing (`Numbered.logged`, `Numbered.audited`).
-/
import Svacara.Btree.Memory
import Svacara.Btree.Proofs.Traffic

namespace Svacara.Btree

open Outcome

/-- The address handed out next is `next`, and all that stops a call is
that there is none. -/
structure Numbered {σ : Type} (ops : PageOps σ) (next : σ → Nat) : Prop where
  getPage : ∀ s p, ops.getPage s p ≠ .error .noPage
  newPage : ∀ s node, Meets (fun _ => 2 ^ 64 ≤ next s) (ops.newPage s node) fun r =>
    next r.2 = next s + 1
  delPage : ∀ s p, Meets (· ≠ .noPage) (ops.delPage s p) fun s' => next s' = next s

section Counting

variable {σ α : Type} {ops : PageOps σ} {next : σ → Nat} {s s' : σ} {a d k : Nat}
  {x : Except Fault α} {st : α → σ} {P : α → Nat → Prop} {Q : α → Prop}

/-- The next address counts the allocations. -/
theorem Numbered.traffic (hn : Numbered ops next) (h : Traffic ops a d s s') :
    next s' = next s + a := by
  induction h with
  | none s => rfl
  | new _ _ hnew ih => exact ((hn.newPage _ _).get hnew).trans (congrArg Nat.succ ih)
  | del _ hdel ih => exact ((hn.delPage _ _).get hdel).trans ih

/-- With room for all its allocations a call is not refused. -/
theorem Numbered.ne_noPage (hn : Numbered ops next) (hx : Calls ops k s x st P)
    (hroom : next s + k ≤ 2 ^ 64) : x ≠ .error .noPage := by
  rintro rfl
  rcases hx with ⟨r, hr, -⟩ | ⟨e, he, hstop⟩
  · cases hr
  cases he
  cases hstop with
  | get _ he => exact hn.getPage _ _ he
  | del _ he =>
      rcases hn.delPage _ _ with ⟨s', hs, -⟩ | ⟨e, he', hne⟩
      · rw [he] at hs
        cases hs
      · rw [he] at he'
        cases he'
        exact hne rfl
  | new h ha he =>
      have hnext := hn.traffic h
      rcases hn.newPage _ _ with ⟨r, hr, -⟩ | ⟨e, -, hfull⟩
      · rw [he] at hr
        cases hr
      · omega

/-- What a call leaves unless it is refused a page, it leaves. -/
theorem Numbered.returns (hn : Numbered ops next) (hx : Calls ops k s x st P)
    (hroom : next s + k ≤ 2 ^ 64) (h : Returns .noPage x Q) :
    ∃ r, x = .ok r ∧ Q r ∧ next (st r) ≤ next s + k := by
  rcases h with ⟨r, heq, hQ⟩ | ⟨e, heq, rfl⟩
  · obtain ⟨a, d, ha, ht, -⟩ := hx.get heq
    have hnext := hn.traffic ht
    exact ⟨r, heq, hQ, by omega⟩
  · exact absurd heq (hn.ne_noPage hx hroom)

end Counting

theorem memOps_numbered : Numbered memOps MemStore.next where
  getPage s p h := by
    cases hp : s.pages p with
    | none =>
        rw [memOps_getPage_none hp] at h
        cases h
    | some node =>
        rw [memOps_getPage_some hp] at h
        cases h
  newPage s node := by
    show Meets _ (dite _ _ _) _
    by_cases h : s.next < 2 ^ 64
    · rw [dif_pos h]
      exact Meets.ok rfl
    · rw [dif_neg h]
      exact Or.inr ⟨_, rfl, Nat.le_of_not_lt h⟩
  delPage s p := by
    cases hp : s.pages p with
    | none =>
        rw [memOps_delPage_none hp]
        exact Or.inr ⟨_, rfl, by simp⟩
    | some node =>
        rw [memOps_delPage_some hp]
        exact Meets.ok rfl

theorem Numbered.logged {σ : Type} {ops : PageOps σ} {next : σ → Nat} (hn : Numbered ops next) :
    Numbered (logged ops) fun x => next x.1 where
  getPage x p := hn.getPage x.1 p
  newPage x node := (hn.newPage x.1 node).bind fun _ h => Meets.ok h
  delPage x p := (hn.delPage x.1 p).bind fun _ h => Meets.ok h

theorem Numbered.audited {σ : Type} {refusal : Fault} {ops : PageOps σ}
    {live : σ → Ptr → Option BNode} {next : σ → Nat} (hn : Numbered ops next)
    (hl : Lawful refusal ops live) : Numbered (audited hl) fun x => next x.store where
  getPage x p := hn.getPage x.store p
  newPage x node := by
    unfold Btree.audited
    dsimp only
    split
    · next p s' h => exact Meets.ok ((hn.newPage x.store node).get h)
    · next e h =>
        rcases hn.newPage x.store node with ⟨r, hr, -⟩ | ⟨e', -, hfull⟩
        · rw [h] at hr
          cases hr
        · exact Or.inr ⟨e, rfl, hfull⟩
  delPage x p := by
    unfold Btree.audited
    dsimp only
    split
    · split
      · next s' h => exact Meets.ok ((hn.delPage x.store p).get h)
      · next e h =>
          rcases hn.delPage x.store p with ⟨s', hs, -⟩ | ⟨e', he, hne⟩
          · rw [h] at hs
            cases hs
          · rw [h] at he
            cases he
            exact Or.inr ⟨e, rfl, hne⟩
    · exact Or.inr ⟨_, rfl, by simp⟩

end Svacara.Btree
