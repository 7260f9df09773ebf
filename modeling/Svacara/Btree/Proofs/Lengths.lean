/-
How long the pages are.

Nothing resizes a buffer, so if the store hands out pages of at most two
pages' length to begin with, it does so after any insertion
(`insert_paged`), and no key or value longer than that can ever be found
(`get_length`).
-/
import Svacara.Btree.Oversize
import Svacara.Btree.Proofs.Traffic

namespace Svacara.Btree

open Outcome

variable {σ : Type} {ops : PageOps σ} {s s' : σ} {a d : Nat} {key val : Bytes}

theorem Paging.traffic (hp : Paging ops) (h : Traffic ops a d s s') (hs : Paged ops s) :
    Paged ops s' := by
  induction h with
  | none => exact hs
  | new _ hnode hnew ih => exact hp.newPage _ _ _ (ih hs) hnode hnew
  | del _ hdel ih => exact hp.delPage _ _ _ (ih hs) hdel

/-- An insertion keeps the pages short, whatever it inserts. -/
theorem insert_paged (hp : Paging ops) {fuel : Nat} {tree tree' : BTree σ}
    (hs : Paged ops tree.pages) (h : insert ops fuel tree key val = .ok tree') :
    Paged ops tree'.pages := by
  obtain ⟨a, d, -, ht, -⟩ := (insert_calls fuel tree key val).get h
  exact hp.traffic ht hs

/-- What a lookup finds is no longer than two pages, key and value. -/
theorem getLoop_length (hs : Paged ops s) :
    ∀ (fuel : Nat) (node : BNode), node.length ≤ 2 * btreePageSize →
      getLoop ops fuel s node key = .ok (some val) →
      key.length ≤ 2 * btreePageSize ∧ val.length ≤ 2 * btreePageSize := by
  intro fuel
  induction fuel with
  | zero =>
      intro node hlen h
      cases h
  | succ fuel ih =>
      intro node hlen h
      obtain ⟨idx, -, h⟩ := bind_eq_ok.mp h
      obtain ⟨ty, -, h⟩ := bind_eq_ok.mp h
      by_cases hleaf : ty = bnodeLeaf
      · rw [if_pos hleaf] at h
        obtain ⟨k, hk, h⟩ := bind_eq_ok.mp h
        by_cases hcmp : cmp key k = 0
        · rw [if_pos hcmp] at h
          obtain ⟨v, hv, h⟩ := bind_eq_ok.mp h
          cases h
          rw [cmp_eq_zero_iff.mp hcmp]
          exact ⟨((indexes_getKey ..).get hk).trans hlen, ((indexes_getVal ..).get hv).trans hlen⟩
        · rw [if_neg hcmp] at h
          cases h
      rw [if_neg hleaf] at h
      by_cases hinner : ty = bnodeInternal
      · rw [if_pos hinner] at h
        obtain ⟨kptr, -, h⟩ := bind_eq_ok.mp h
        obtain ⟨knode, hk, h⟩ := bind_eq_ok.mp h
        exact ih knode (hs _ _ hk) h
      · rw [if_neg hinner] at h
        exact ih node hlen h

theorem get_length {fuel : Nat} {tree : BTree σ}
    (hs : Paged ops tree.pages) (h : get ops fuel tree key = .ok (some val)) :
    key.length ≤ 2 * btreePageSize ∧ val.length ≤ 2 * btreePageSize := by
  rw [get] at h
  by_cases hroot : tree.root = 0
  · rw [if_pos hroot] at h
    cases h
  · rw [if_neg hroot] at h
    obtain ⟨node, hnode, h⟩ := bind_eq_ok.mp h
    exact getLoop_length hs fuel node (hs _ _ hnode) h

/-- Only a pair no longer than two pages can be inserted without harm. -/
theorem Harmless.length_le (hp : Paging ops) {fuel : Nat} {tree : BTree σ}
    (hs : Paged ops tree.pages) (h : Harmless ops fuel tree key val) :
    key.length ≤ 2 * btreePageSize ∧ val.length ≤ 2 * btreePageSize := by
  obtain ⟨tree', hins, hget⟩ := h
  have hkey := hget key
  rw [if_pos rfl] at hkey
  exact get_length (insert_paged hp hs hins) hkey

end Svacara.Btree
