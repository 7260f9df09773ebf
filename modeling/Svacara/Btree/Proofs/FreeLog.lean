/-
What a free list gives back over a whole run, from an empty list on.

Nothing is handed out twice and nothing that was not pushed
(`popped_sublist_pushed`). A pointer can be lost: the head falls off the
last page or passes the slots behind its 64th unread, and a push then
lands where it never looks. `popHead_zero_iff` says when a `PopHead` that
finds nothing means that there is nothing.
-/
import Svacara.Btree.Proofs.FreeChain
import Svacara.Btree.Memory
import Mathlib.Data.List.Perm.Subperm

namespace Svacara.Btree

open Outcome

variable {σ : Type} {refusal : Fault} {ops : FreeOps σ} {pages : σ → Ptr → Option BNode}
  {m : Ptr → Option BNode} {x y : FreeLog σ} {chunks : List (Ptr × List Ptr)}
  {passed : List Ptr} {safe : Prop}

-- ============================================================ runs

theorem Tracked.step (hl : FreeLawful refusal ops pages)
    (h : Tracked (pages x.pages) x chunks passed safe) {c : FreeCall}
    (hc : ∀ p, c = .push p → p ≠ 0) :
    Returns refusal (x.step ops c) fun r => ∃ chunks' passed',
      Tracked (pages r.2.pages) r.2 chunks' passed'
        (safe ∧ x.list.Safe (pages x.pages) c) := by
  cases c with
  | push p => exact h.push hl (hc p rfl)
  | pop =>
      obtain ⟨ptr, y, passed', hstep, hy⟩ := h.pop hl
      exact Meets.of_eq hstep ⟨chunks, passed', hy⟩

/-- Whether all calls are safe is known after each of them. -/
theorem allSafe_cons {ptr : Ptr} {c : FreeCall} {calls : List FreeCall}
    (hstep : x.step ops c = .ok (ptr, y)) :
    AllSafe ops pages x (c :: calls)
      ↔ x.list.Safe (pages x.pages) c ∧ AllSafe ops pages y calls := by
  refine and_congr_right fun _ => ⟨fun h => h ptr y hstep, fun h ptr' y' hstep' => ?_⟩
  rw [hstep] at hstep'
  cases hstep'
  exact h

theorem Tracked.congr {safe' : Prop} (h : Tracked m x chunks passed safe)
    (hsafe : safe ↔ safe') : Tracked m x chunks passed safe' :=
  { h with whole := h.whole.trans hsafe }

theorem Tracked.run (hl : FreeLawful refusal ops pages) {calls : List FreeCall}
    (hpush : ∀ p, .push p ∈ calls → p ≠ 0)
    (h : Tracked (pages x.pages) x chunks passed safe) :
    Returns refusal (x.run ops calls) fun y => ∃ chunks' passed',
      Tracked (pages y.pages) y chunks' passed' (safe ∧ AllSafe ops pages x calls) := by
  induction calls generalizing x chunks passed safe with
  | nil => exact Meets.ok ⟨chunks, passed, h.congr (and_iff_left trivial).symm⟩
  | cons c calls ih =>
      have hstep := h.step hl (c := c) fun p hp => hpush p (hp ▸ List.mem_cons_self ..)
      rcases hstep with ⟨⟨ptr, y⟩, hstep, chunks', passed', hy⟩ | ⟨e, herr, he⟩
      · rw [FreeLog.run, hstep, ok_bind]
        refine (ih (fun p hp => hpush p (List.mem_cons_of_mem _ hp)) hy).mono ?_
        rintro z ⟨chunks'', passed'', hz⟩
        refine ⟨chunks'', passed'', hz.congr ?_⟩
        rw [allSafe_cons hstep, and_assoc]
      · exact Or.inr ⟨e, by rw [FreeLog.run, herr, error_bind], he⟩

theorem Tracked.passed_sublist (h : Tracked m x chunks passed safe) :
    passed.Sublist x.pushed := by
  rw [h.pushed]
  cases h.head with
  | start => exact List.nil_sublist _
  | off => exact List.Sublist.refl _
  | inside heq =>
      rw [heq, List.flatMap_append, List.flatMap_cons]
      exact List.Sublist.append_left
        ((List.take_sublist _ _).trans (List.sublist_append_left _ _)) _

/-- What `PopHead` returns are pushed pointers, each push at most once and
in the order of the pushes, and every slot that is read or written lies
in its page. -/
theorem popped_sublist_pushed (hl : FreeLawful refusal ops pages) (s : σ) (calls : List FreeCall)
    (hpush : ∀ p, .push p ∈ calls → p ≠ 0) :
    Returns refusal ((FreeLog.start s).run ops calls) fun x =>
      x.popped.Sublist x.pushed ∧ ∀ i ∈ x.used, i < freeListCap := by
  refine ((Tracked.start s).run hl hpush).mono ?_
  rintro x ⟨chunks, passed, hx⟩
  exact ⟨hx.popped.trans hx.passed_sublist, hx.used⟩

/-- A run in which the head overtakes the tail. -/
def overtaking : List FreeCall := [.push 5, .pop, .pop, .push 7]

theorem overtaking_nonzero (p : Ptr) (hp : .push p ∈ overtaking) : p ≠ 0 := by
  simp only [overtaking, List.mem_cons, FreeCall.push.injEq, reduceCtorEq, false_or,
    List.not_mem_nil, or_false] at hp
  rcases hp with rfl | rfl <;> decide

theorem popped_sublist_pushed_overtaking :
    ∃ x, (FreeLog.start MemStore.empty).run memFreeOps overtaking = .ok x
      ∧ x.popped.Sublist x.pushed ∧ ∀ i ∈ x.used, i < freeListCap :=
  (popped_sublist_pushed memFreeOps_lawful .empty overtaking overtaking_nonzero).ok_of_isOk
    (by decide +kernel)

-- ============================================ what is not returned

/-- As many of each as were pushed, in the order of the pushes: all that
were pushed. -/
theorem returned_iff (hsub : x.popped.Sublist x.pushed) :
    x.Returned ↔ x.popped = x.pushed := by
  constructor
  · intro h
    have hperm : List.Subperm x.pushed x.popped := List.subperm_ext_iff.mpr fun p _ => h p
    exact hsub.eq_of_length_le hperm.length_le
  · intro h p
    rw [h]

/-- The pages behind a page hold nothing if the first slot of the next
one is empty. -/
theorem Chained.behind {fl : FreeList} {P Q : List (Ptr × List Ptr)} {xs : List Ptr}
    (h : Chained m fl (P ++ (fl.headPage, xs) :: Q))
    (hxs : ∀ c ∈ Q, ∀ p ∈ c.2, p ≠ 0) :
    Q.flatMap Prod.snd = [] ↔ NothingBehind m fl := by
  obtain ⟨⟨hne, node, hnode, -, hnext, -⟩, -⟩ := h.page_at
  have hbehind : NothingBehind m fl ↔ firstPage Q 0 = 0
      ∨ slotAt m (firstPage Q 0) 0 = some 0 := by
    constructor
    · intro hnb
      exact (hnb.resolve_left hne) node _ hnode hnext
    · intro hq
      refine Or.inr fun node' next' hnode' hnext' => ?_
      rw [hnode] at hnode'
      cases hnode'
      rw [hnext] at hnext'
      cases hnext'
      exact hq
  rw [hbehind]
  cases Q with
  | nil => exact iff_of_true rfl (Or.inl rfl)
  | cons d Q =>
      obtain ⟨-, -, hd, -⟩ := linked_append.mp h.linked.1
      have hslot : slotAt m d.1 0 = some 0 ↔ d.2 = [] := by
        rw [hd.slotAt (by decide), Option.some_inj,
          getD_eq_zero_iff (hxs d (List.mem_cons_self ..))]
        exact Nat.le_zero.trans List.length_eq_zero_iff
      rw [List.flatMap_cons, List.append_eq_nil_iff]
      show _ ↔ d.1 = 0 ∨ slotAt m d.1 0 = some 0
      rw [or_iff_right hd.ne, hslot]
      refine and_iff_left_of_imp fun hd0 => ?_
      -- only the last page of the chain may be empty
      generalize hchunks : P ++ (fl.headPage, xs) :: d :: Q = chunks at h
      cases h with
      | empty => simp at hchunks
      | pages hchain =>
          rename_i C ys
          rw [← List.singleton_append, ← List.append_assoc] at hchunks
          rcases append_singleton_cases hchunks.symm with ⟨-, -, hQ⟩ | ⟨Q', -, hC⟩
          · rw [hQ]
            rfl
          · exact absurd hd0 (hchain.full d (by rw [hC]; simp))

theorem Tracked.pop_zero (hl : FreeLawful refusal ops pages)
    (h : Tracked (pages x.pages) x chunks passed safe)
    (hpop : x.step ops .pop = .ok (0, y)) :
    x.Returned ↔ safe ∧ NothingBehind (pages x.pages) x.list := by
  rw [returned_iff (h.popped.trans h.passed_sublist)]
  have hall : passed = x.pushed → x.list.headPage = 0 →
      (x.popped = x.pushed ↔ safe ∧ NothingBehind (pages x.pages) x.list) := by
    intro hp h0
    have hnb : NothingBehind (pages x.pages) x.list := Or.inl h0
    rw [← hp, and_iff_left hnb]
    exact h.whole
  cases h.head with
  | start hnil hpage => exact hall (by rw [h.pushed, hnil]; rfl) hpage
  | off hne hpage => exact hall h.pushed.symm hpage
  | @inside P Q xs heq hseq =>
      have hxs : ∀ p ∈ xs, p ≠ 0 := h.chunk_nonzero (c := (x.list.headPage, xs))
        (by rw [heq]; exact List.mem_append_cons_self)
      obtain ⟨z, passed', hstep, -⟩ := h.pop_read hl heq rfl hseq
      rw [hpop] at hstep
      have hzero : xs.getD x.list.headSeq.toNat 0 = 0 := by
        injection hstep with hstep
        exact (congrArg Prod.fst hstep).symm
      have htake : xs.take x.list.headSeq.toNat = xs :=
        List.take_of_length_le ((getD_eq_zero_iff hxs _).mp hzero)
      have hpushed : x.pushed = P.flatMap Prod.snd ++ xs ++ Q.flatMap Prod.snd := by
        rw [h.pushed, heq, List.flatMap_append, List.flatMap_cons, List.append_assoc]
      have hchained := h.chained
      rw [heq] at hchained
      have hbehind := hchained.behind fun c hc => h.chunk_nonzero (by
        rw [heq]
        exact List.mem_append_right _ (List.mem_cons_of_mem _ hc))
      have hsub := h.popped
      have hwhole := h.whole
      rw [htake] at hsub hwhole
      rw [hpushed, ← hbehind, ← hwhole]
      have := whole_extend [] (Q.flatMap Prod.snd) hsub
      rwa [List.append_nil, List.append_nil] at this

/-- A `PopHead` that returns 0 means that all has been returned, in a run
of safe calls that leaves nothing behind the head page, and in no other
run. -/
theorem popHead_zero_iff (hl : FreeLawful refusal ops pages) (s : σ) (calls : List FreeCall)
    (hpush : ∀ p, .push p ∈ calls → p ≠ 0)
    (hrun : (FreeLog.start s).run ops calls = .ok x) (hpop : x.step ops .pop = .ok (0, y)) :
    x.Returned
      ↔ AllSafe ops pages (.start s) calls ∧ NothingBehind (pages x.pages) x.list := by
  obtain ⟨chunks, passed, hx⟩ := ((Tracked.start s).run hl hpush).get hrun
  rw [hx.pop_zero hl hpop, true_and]

/-- A run and a `PopHead` after it, with what it returned and the log before it. -/
def FreeLog.runPop (calls : List FreeCall) : Except Fault (Ptr × List Ptr × List Ptr) := do
  let x ← (FreeLog.start MemStore.empty).run memFreeOps calls
  let (ptr, _) ← x.step memFreeOps .pop
  return (ptr, x.pushed, x.popped)

theorem runPop_eq_ok {calls : List FreeCall} {ptr : Ptr} {pushed popped : List Ptr}
    (h : FreeLog.runPop calls = .ok (ptr, pushed, popped)) :
    ∃ x y, (FreeLog.start MemStore.empty).run memFreeOps calls = .ok x
      ∧ x.step memFreeOps .pop = .ok (ptr, y) ∧ x.pushed = pushed ∧ x.popped = popped := by
  obtain ⟨x, hrun, h⟩ := bind_eq_ok.mp h
  obtain ⟨⟨p, y⟩, hpop, h⟩ := bind_eq_ok.mp h
  cases h
  exact ⟨x, y, hrun, hpop, rfl, rfl⟩

/-- One pointer is pushed and returned; then there is nothing. -/
theorem popHead_zero_iff_one :
    ∃ x y, (FreeLog.start MemStore.empty).run memFreeOps [.push 5, .pop] = .ok x
      ∧ x.step memFreeOps .pop = .ok (0, y) ∧ x.Returned
      ∧ AllSafe memFreeOps MemStore.pages (.start .empty) [.push 5, .pop]
      ∧ NothingBehind (MemStore.pages x.pages) x.list := by
  have hval : FreeLog.runPop [.push 5, .pop] = .ok (0, [5], [5]) := by
    decide +kernel
  obtain ⟨x, y, hrun, hpop, hpushed, hpopped⟩ := runPop_eq_ok hval
  have hret : x.Returned := by
    intro p
    rw [hpushed, hpopped]
  have hiff := popHead_zero_iff memFreeOps_lawful .empty [.push 5, .pop] (by simp) hrun hpop
  exact ⟨x, y, hrun, hpop, hret, hiff.mp hret⟩

/-- The head has gone past the slot that 7 is pushed to: 7 is not
returned, and the next `PopHead` finds nothing. -/
theorem overtaking_loses :
    (∃ x y, (FreeLog.start MemStore.empty).run memFreeOps overtaking = .ok x
      ∧ x.step memFreeOps .pop = .ok (0, y) ∧ 7 ∈ x.pushed ∧ 7 ∉ x.popped
      ∧ ¬ x.Returned) := by
  have hval : FreeLog.runPop overtaking = .ok (0, [5, 7], [5]) := by
    decide +kernel
  obtain ⟨x, y, hrun, hpop, hpushed, hpopped⟩ := runPop_eq_ok hval
  refine ⟨x, y, hrun, hpop, by rw [hpushed]; decide, by rw [hpopped]; decide, fun h => ?_⟩
  have h7 := h 7
  rw [hpushed, hpopped] at h7
  revert h7
  decide

end Svacara.Btree
