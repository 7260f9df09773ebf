/-
Ownership of cells in a partial heap.

A heap is a function to `Option`. `Owned F m ps` says that `m` is the
frame `F` with the cells `ps` added: the cells are distinct, free in the
frame, live in `m`, and `m` is the frame everywhere else. It is the
frame rule of separation logic with the footprint written down: what a
computation proves from `Owned F m ps` for every frame `F` it proves
beside anything else that is owned (`Owned.split`, `Owned.join`).
-/
import Mathlib.Logic.Function.Basic
import Mathlib.Data.List.Basic

namespace Heap

variable {κ β : Type _}

/-- `m` is `F` with the live cells `ps` added. -/
structure Owned (F m : κ → Option β) (ps : List κ) : Prop where
  nodup : ps.Nodup
  fresh : ∀ p ∈ ps, F p = none
  live : ∀ p ∈ ps, m p ≠ none
  frame : ∀ p, p ∉ ps → m p = F p

variable {F G m : κ → Option β} {ps qs : List κ} {p : κ} {b : β}

theorem owned_nil (m : κ → Option β) : Owned m m ([] : List κ) where
  nodup := List.nodup_nil
  fresh _ hp := absurd hp List.not_mem_nil
  live _ hp := absurd hp List.not_mem_nil
  frame _ _ := rfl

theorem Owned.perm (h : Owned F m ps) (hp : ps.Perm qs) : Owned F m qs where
  nodup := hp.nodup_iff.mp h.nodup
  fresh p hq := h.fresh p (hp.mem_iff.mpr hq)
  live p hq := h.live p (hp.mem_iff.mpr hq)
  frame p hq := h.frame p (mt hp.mem_iff.mp hq)

/-- A cell that is live in the frame is not among the added ones. -/
theorem Owned.not_mem (h : Owned F m ps) (hF : F p ≠ none) : p ∉ ps :=
  fun hp => hF (h.fresh p hp)

/-- A cell of the frame keeps its content. -/
theorem Owned.eq_of_frame (h : Owned F m ps) (hF : F p ≠ none) : m p = F p :=
  h.frame p (h.not_mem hF)

/-- A cell that is free in `m` is not among the added ones. -/
theorem Owned.not_mem_of_none (h : Owned F m ps) (hm : m p = none) : p ∉ ps :=
  fun hp => h.live p hp hm

variable [DecidableEq κ]

/-- Filling a free cell adds it. -/
theorem Owned.put (h : Owned F m ps) (hm : m p = none) :
    Owned F (Function.update m p (some b)) (p :: ps) where
  nodup := List.nodup_cons.mpr ⟨h.not_mem_of_none hm, h.nodup⟩
  fresh q hq := by
    rcases List.mem_cons.mp hq with rfl | hq
    · rw [← h.frame q (h.not_mem_of_none hm)]
      exact hm
    · exact h.fresh q hq
  live q hq := by
    by_cases hqp : q = p
    · rw [hqp, Function.update_self]
      exact Option.some_ne_none b
    · rw [Function.update_of_ne hqp]
      rcases List.mem_cons.mp hq with rfl | hq
      · exact absurd rfl hqp
      · exact h.live q hq
  frame q hq := by
    obtain ⟨hqp, hq⟩ := not_or.mp (mt List.mem_cons.mpr hq)
    rw [Function.update_of_ne hqp]
    exact h.frame q hq

/-- Emptying an added cell gives it back. -/
theorem Owned.erase (h : Owned F m (p :: ps)) :
    Owned F (Function.update m p none) ps := by
  obtain ⟨hp, hnd⟩ := List.nodup_cons.mp h.nodup
  refine ⟨hnd, fun q hq => h.fresh q (List.mem_cons_of_mem _ hq), ?_, ?_⟩
  · intro q hq
    have hqp : q ≠ p := fun he => hp (he ▸ hq)
    rw [Function.update_of_ne hqp]
    exact h.live q (List.mem_cons_of_mem _ hq)
  · intro q hq
    by_cases hqp : q = p
    · rw [hqp, Function.update_self, h.fresh p (List.mem_cons_self ..)]
    · rw [Function.update_of_ne hqp]
      refine h.frame q fun hmem => ?_
      rcases List.mem_cons.mp hmem with hmem | hmem
      · exact hqp hmem
      · exact hq hmem

/-- The heap without the cells `ps`. -/
def hide (ps : List κ) (m : κ → Option β) : κ → Option β :=
  fun p => if p ∈ ps then none else m p

/-- Setting one part aside: the rest is the frame of the other part. -/
theorem Owned.split (h : Owned F m (ps ++ qs)) :
    Owned (hide ps m) m ps ∧ Owned F (hide ps m) qs := by
  obtain ⟨hps, hqs, hdis⟩ := List.nodup_append.mp h.nodup
  have hout : ∀ q ∈ qs, q ∉ ps := fun q hq hp => hdis q hp q hq rfl
  refine ⟨⟨hps, ?_, ?_, ?_⟩, ⟨hqs, ?_, ?_, ?_⟩⟩
  · intro q hq
    exact if_pos hq
  · intro q hq
    exact h.live q (List.mem_append_left _ hq)
  · intro q hq
    exact (if_neg hq).symm
  · intro q hq
    exact h.fresh q (List.mem_append_right _ hq)
  · intro q hq
    rw [hide, if_neg (hout q hq)]
    exact h.live q (List.mem_append_right _ hq)
  · intro q hq
    by_cases hp : q ∈ ps
    · rw [hide, if_pos hp, h.fresh q (List.mem_append_left _ hp)]
    · rw [hide, if_neg hp]
      refine h.frame q fun hmem => ?_
      rcases List.mem_append.mp hmem with hmem | hmem
      · exact hp hmem
      · exact hq hmem

omit [DecidableEq κ] in
/-- Two parts side by side. -/
theorem Owned.join (hG : Owned F G qs) (hm : Owned G m ps) :
    Owned F m (ps ++ qs) := by
  have hout : ∀ q ∈ qs, q ∉ ps := fun q hq => hm.not_mem (hG.live q hq)
  refine ⟨List.nodup_append.mpr ⟨hm.nodup, hG.nodup, ?_⟩, ?_, ?_, ?_⟩
  · rintro a ha b hb rfl
    exact hout a hb ha
  · intro q hq
    rcases List.mem_append.mp hq with hq | hq
    · by_cases hqs : q ∈ qs
      · exact hG.fresh q hqs
      · rw [← hG.frame q hqs]
        exact hm.fresh q hq
    · exact hG.fresh q hq
  · intro q hq
    rcases List.mem_append.mp hq with hq | hq
    · exact hm.live q hq
    · rw [hm.frame q (hout q hq)]
      exact hG.live q hq
  · intro q hq
    obtain ⟨hps, hqs⟩ := not_or.mp (mt List.mem_append.mpr hq)
    rw [hm.frame q hps, hG.frame q hqs]

/-- What is left of the other part while one part is worked on. -/
theorem Owned.hide_eq (h : Owned F m (ps ++ qs)) (hq : p ∈ qs) :
    hide ps m p = m p := by
  obtain ⟨-, -, hdis⟩ := List.nodup_append.mp h.nodup
  exact if_neg fun hp => hdis p hp p hq rfl

end Heap
