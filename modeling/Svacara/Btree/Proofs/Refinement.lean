/-
The tree is the map its calls describe.

`Tracks` ties a tree to the calls made on it so far: its pairs bind
every key to what the last call on that key left. Each call answers from
that map and keeps the tie (`step_spec`), so a run does (`run_spec`). No
fault but the one `NewPage` refuses a page with can end a run: an index
outside a buffer, a fetch of a page that is not there or a loop that does
not end would be one.
-/
import Svacara.Btree.Proofs.Delete
import Svacara.Btree.Proofs.Room

namespace Svacara.Btree

open Outcome Heap SortedMap

variable {σ : Type} {refusal : Fault} {ops : PageOps σ} {live : σ → Ptr → Option BNode}

-- ================================================= the last effect

/-- A further call decides the keys it has an effect on. -/
theorem bound_concat (before : List Call) (c : Call) (k : Bytes) :
    bound (before ++ [c]) k = ((c.effect k).getD (bound before k)) := by
  unfold bound
  rw [List.reverse_append, List.reverse_singleton, List.singleton_append,
    List.findSome?_cons]
  cases c.effect k with
  | none => rfl
  | some b => rfl

theorem bound_insert (before : List Call) (key val k : Bytes) :
    bound (before ++ [.insert key val]) k
      = if k = key then some val else bound before k := by
  rw [bound_concat, Call.effect]
  split <;> rfl

theorem bound_delete (before : List Call) (key k : Bytes) :
    bound (before ++ [.delete key]) k
      = if k = key then none else bound before k := by
  rw [bound_concat, Call.effect]
  split <;> rfl

-- ======================================================== one call

/-- Beside the frame `F`, the heap holds a tree of height below `n` that
binds every key as the calls did. -/
def Tracks (F m : Ptr → Option BNode) (n : Nat) (root : Ptr)
    (calls : List Call) : Prop :=
  ∃ l, HasTree F m n root l ∧ Rows l ∧ ∀ k, l.lookup k = bound calls k

theorem Tracks.root_eq_zero {F m : Ptr → Option BNode} {n : Nat} {root : Ptr}
    {calls : List Call} (ht : Tracks F m n root calls) :
    root = 0 ↔ ∀ k, bound calls k = none := by
  obtain ⟨l, htree, -, hl⟩ := ht
  rw [htree.root_eq_zero]
  constructor
  · intro hnil k
    rw [← hl k, hnil]
    rfl
  · intro hnone
    cases l with
    | nil => rfl
    | cons e l =>
        have h := hl e.1
        rw [hnone, List.lookup_cons, beq_self_eq_true] at h
        cases h

/-- Pairs too large for one page are spread over leaves. -/
theorem Tracks.internal {F m : Ptr → Option BNode} {n : Nat} {root : Ptr} {calls : List Call}
    (ht : Tracks F m n root calls) (kvs : List (Bytes × Bytes)) (hnodup : kvs.Nodup)
    (hbound : ∀ kv ∈ kvs, bound calls kv.1 = some kv.2)
    (hlarge : btreePageSize < header + (kvs.map pairSize).sum) :
    ∃ node, m root = some node ∧ btype node = .ok bnodeInternal := by
  obtain ⟨l, htree, -, hl⟩ := ht
  have hmem : kvs ⊆ l := by
    intro kv hkv
    obtain ⟨A, B, rfl, -⟩ := List.lookup_eq_some_iff.mp ((hl kv.1).trans (hbound kv hkv))
    exact List.mem_append_cons_self
  have hsum : (kvs.map pairSize).sum ≤ (l.map pairSize).sum := by
    obtain ⟨l', hperm, hsub⟩ := List.subperm_of_subset hnodup hmem
    obtain ⟨rest, hrest⟩ := hsub.exists_perm_append
    rw [← (hperm.map pairSize).sum_nat, (hrest.map pairSize).sum_nat, List.map_append,
      List.sum_append]
    exact Nat.le_add_right _ _
  cases htree with
  | empty _ hnil _ =>
      rw [hnil, List.map_nil, List.sum_nil] at hsum
      have hpg : btreePageSize = 4096 := rfl
      have hhd : header = 4 := rfl
      omega
  | tree _ h t _ hsub hflat =>
      obtain ⟨⟨node, hnode, henc⟩, -⟩ := hsub.stored _ (List.mem_singleton.mpr rfl)
      obtain ⟨hpage, -⟩ := hsub.good _ (List.mem_singleton.mpr rfl)
      refine ⟨node, hnode, ?_⟩
      cases h with
      | zero =>
          obtain rfl : t = l := hflat
          have hsize : nodeSize (entries 0 t) = header + (List.map pairSize t).sum :=
            nodeSize_pairs t
          have hfits : nodeSize (entries 0 t) ≤ btreePageSize := hpage.2
          omega
      | succ h => exact Holds.btype henc

/-- One call answers from the map and carries it on. -/
theorem step_spec (hl : Lawful refusal ops live) {F : Ptr → Option BNode} {n fuel : Nat}
    {tree : BTree σ} {before : List Call} {c : Call} (hfuel : n ≤ fuel)
    (hc : c.IsRow) (ht : Tracks F (live tree.pages) n tree.root before) :
    Returns refusal (step ops fuel tree c) fun r => r.1 = expected before c
      ∧ Tracks F (live r.2.pages) (n + 1) r.2.root (before ++ [c]) := by
  obtain ⟨l, htree, hr, hlook⟩ := ht
  cases c with
  | insert key val =>
      obtain ⟨hk, hv⟩ := hc
      refine (insert_spec hl hk hv hfuel hr htree).bind fun tree' ht' => ?_
      refine Meets.ok ⟨rfl, ins key val l, ht', rows_ins hr hk hv, fun k => ?_⟩
      rw [lookup_ins, bound_insert, hlook]
      split <;> rfl
  | delete key =>
      refine (delete_spec hl key hfuel hr htree).bind ?_
      intro ⟨found, tree'⟩ ⟨hfound, ht'⟩
      have hans : found = (bound before key).isSome := by
        rw [← hlook]
        exact hfound
      refine Meets.ok ⟨congrArg Answer.deleted hans, del key l,
        ht'.mono (Nat.le_succ n), rows_del _ hr, fun k => ?_⟩
      rw [lookup_del, bound_delete, hlook]
      split <;> rfl
  | get key =>
      have hget := get_spec hl key hfuel htree
      rw [step, hget, ok_bind]
      refine Meets.ok ⟨congrArg Answer.got (hlook key), l,
        htree.mono (Nat.le_succ n), hr, fun k => ?_⟩
      rw [bound_concat]
      exact hlook k

-- =========================================================== a run

/-- The induction is on the calls still to be made. -/
theorem run_spec (hl : Lawful refusal ops live) {F : Ptr → Option BNode} {fuel : Nat} :
    ∀ (calls : List Call) (n : Nat) (tree : BTree σ) (before : List Call),
      (∀ c ∈ calls, c.IsRow) → n + calls.length ≤ fuel →
      Tracks F (live tree.pages) n tree.root before →
      Returns refusal (run ops fuel tree calls) fun r => r.1 = answers before calls
        ∧ Tracks F (live r.2.pages) (n + calls.length) r.2.root
          (before ++ calls) := by
  intro calls
  induction calls with
  | nil =>
      intro n tree before hrows hfuel ht
      rw [List.append_nil]
      exact Meets.ok ⟨rfl, ht⟩
  | cons c calls ih =>
      intro n tree before hrows hfuel ht
      rw [List.length_cons] at hfuel
      refine (step_spec hl (by omega) (hrows c (List.mem_cons_self ..)) ht).bind ?_
      intro ⟨a, tree₁⟩ ⟨ha, ht₁⟩
      refine (ih (n + 1) tree₁ (before ++ [c])
        (fun c' hc' => hrows c' (List.mem_cons_of_mem _ hc')) (by omega) ht₁).bind ?_
      intro ⟨as, tree₂⟩ ⟨has, ht₂⟩
      have hlen : n + 1 + calls.length = n + (c :: calls).length := by
        rw [List.length_cons]
        omega
      rw [List.append_assoc, List.singleton_append, hlen] at ht₂
      exact Meets.ok ⟨congrArg₂ List.cons ha has, ht₂⟩

/-- An empty tree tracks no calls. -/
theorem tracks_nil (m : Ptr → Option BNode) : Tracks m m 0 0 [] :=
  ⟨[], .empty rfl rfl (owned_nil m), fun _ hkv => absurd hkv List.not_mem_nil,
    fun _ => rfl⟩

/-- Every run of row calls from an empty tree gives the answers of the
map, and the root is 0 exactly when the map is empty. -/
theorem run_refines_map (hl : Lawful refusal ops live) (s : σ) (calls : List Call)
    (hrows : ∀ c ∈ calls, c.IsRow) (fuel : Nat) (hfuel : calls.length ≤ fuel) :
    Returns refusal (run ops fuel ⟨0, s⟩ calls) fun r => r.1 = answers [] calls
      ∧ (r.2.root = 0 ↔ ∀ k, bound calls k = none) := by
  refine (run_spec hl calls 0 ⟨0, s⟩ [] hrows (by omega)
    (tracks_nil (live s))).mono ?_
  intro r ⟨hans, ht⟩
  exact ⟨hans, ht.root_eq_zero⟩

/-- The longest row whose key ends in `i`. -/
def longRow (i : UInt8) : Bytes × Bytes := (make 12 ++ [i], List.replicate 1000 i)

/-- Five of them, of which a page has room for three, and calls on two. -/
def longRows : List Call :=
  ([0, 1, 2, 3, 4].map fun i => .insert (longRow i).1 (longRow i).2)
    ++ [.get (longRow 2).1, .delete (longRow 4).1, .get (longRow 4).1]

theorem longRows_isRow : ∀ c ∈ longRows, c.IsRow := by decide +kernel

theorem length_longRows : longRows.length = 8 := by decide +kernel

/-- They leave a tree that has split. -/
theorem Tracks.longRows {F m : Ptr → Option BNode} {n : Nat} {root : Ptr}
    (ht : Tracks F m n root longRows) :
    ∃ node, m root = some node ∧ btype node = .ok bnodeInternal :=
  ht.internal ([0, 1, 2, 3].map longRow) (by decide +kernel) (by decide +kernel)
    (by decide +kernel)

/-- On pages in memory the calls all return, and `Get` finds a row in a
tree that has split. -/
theorem run_refines_map_memory :
    ∃ tree node, run memOps 8 ⟨0, .empty⟩ longRows = .ok ([.done, .done, .done, .done, .done,
        .got (some (longRow 2).2), .deleted true, .got none], tree)
      ∧ tree.root ≠ 0 ∧ tree.pages.pages tree.root = some node
      ∧ btype node = .ok bnodeInternal := by
  have hlen := Nat.le_of_eq length_longRows
  have hcalls := @run_calls _ memOps 8 longRows ⟨0, .empty⟩
  obtain ⟨⟨as, tree⟩, hrun, ⟨hans, hroot⟩, -⟩ :=
    memOps_numbered.returns hcalls (by decide +kernel)
      (run_refines_map memOps_lawful .empty longRows longRows_isRow 8 hlen)
  have htracks := ((run_spec memOps_lawful longRows 0 ⟨0, .empty⟩ [] longRows_isRow
    (by rwa [Nat.zero_add]) (tracks_nil _)).get hrun).2
  obtain ⟨node, hnode, hinternal⟩ := htracks.longRows
  obtain rfl := hans.trans (by decide +kernel : answers [] longRows = [.done, .done, .done,
    .done, .done, .got (some (longRow 2).2), .deleted true, .got none])
  refine ⟨tree, node, hrun, fun hzero => ?_, hnode, hinternal⟩
  have hnone := hroot.mp hzero (longRow 2).1
  have hsome : bound longRows (longRow 2).1 = some (longRow 2).2 := by decide +kernel
  rw [hsome] at hnone
  cases hnone

end Svacara.Btree
