/-
The page calls of one operation, counted.

Nothing is assumed of the callbacks here. `Traffic ops a d s s'` says that
`s'` comes from `s` by `a` allocations, none of a node longer than two
pages, and `d` frees. `Calls ops k s x st Q` says that `x`, started on
`s`, makes no more than `k` allocations: it returns a value with `Q` of
it and of the frees made, the store being then `st` of it, or it is
`Stopped`, by an index out of range, the end of the fuel or a callback
that failed.

An insertion takes at most three allocations a level, and four for the
root; a deletion takes one a level and one for the root. Either frees a
page when it changes a tree that is not empty, and no more pages than the
depth of the recursion allows.
-/
import Svacara.Btree.Run
import Svacara.Btree.Proofs.Faults

namespace Svacara.Btree

open Outcome

section Rules

variable {σ α β : Type} {ops : PageOps σ} {s s' s'' : σ} {a b c d k j : Nat} {e : Fault}

inductive Traffic (ops : PageOps σ) : Nat → Nat → σ → σ → Prop where
  | none (s : σ) : Traffic ops 0 0 s s
  | new {a d : Nat} {s s' s'' : σ} {node : BNode} {ptr : Ptr} (h : Traffic ops a d s s')
      (hnode : node.length ≤ 2 * btreePageSize)
      (hnew : ops.newPage s' node = .ok (ptr, s'')) : Traffic ops (a + 1) d s s''
  | del {a d : Nat} {s s' s'' : σ} {ptr : Ptr} (h : Traffic ops a d s s')
      (hdel : ops.delPage s' ptr = .ok s'') : Traffic ops a (d + 1) s s''

/-- The counts of two stretches add up. -/
theorem Traffic.trans (h : Traffic ops a c s s') (h' : Traffic ops b d s' s'') :
    Traffic ops (a + b) (c + d) s s'' := by
  induction h' with
  | none s => exact h
  | new _ hnode hnew ih => exact (ih h).new hnode hnew
  | del _ hdel ih => exact (ih h).del hdel

/-- Why a call with `k` allocations that started on `s` may fail. -/
inductive Stopped (ops : PageOps σ) (k : Nat) (s : σ) : Fault → Prop where
  | index : Stopped ops k s .index
  | fuel : Stopped ops k s .fuel
  | get {a d : Nat} {s' : σ} {p : Ptr} {e : Fault} (h : Traffic ops a d s s')
      (he : ops.getPage s' p = .error e) : Stopped ops k s e
  | del {a d : Nat} {s' : σ} {p : Ptr} {e : Fault} (h : Traffic ops a d s s')
      (he : ops.delPage s' p = .error e) : Stopped ops k s e
  | new {a d : Nat} {s' : σ} {node : BNode} {e : Fault} (h : Traffic ops a d s s')
      (ha : a < k) (he : ops.newPage s' node = .error e) : Stopped ops k s e

/-- A stop after more calls. -/
theorem Stopped.after (ht : Traffic ops a d s s') (hk : a + j ≤ k) (h : Stopped ops j s' e) :
    Stopped ops k s e := by
  cases h with
  | index => exact .index
  | fuel => exact .fuel
  | get h he => exact .get (ht.trans h) he
  | del h he => exact .del (ht.trans h) he
  | new h ha he => exact .new (ht.trans h) (by omega) he

def Calls (ops : PageOps σ) (k : Nat) (s : σ) (x : Except Fault α) (st : α → σ)
    (Q : α → Nat → Prop) : Prop :=
  Meets (Stopped ops k s) x fun r => ∃ a d, a ≤ k ∧ Traffic ops a d s (st r) ∧ Q r d

variable {st : α → σ} {Q R : α → Nat → Prop} {x : Except Fault α} {f : β → Except Fault α}

/-- Calls that begin after others. -/
theorem Calls.after (ht : Traffic ops a d s s') (hk : a + j ≤ k)
    (h : Calls ops j s' x st fun r c => Q r (d + c)) : Calls ops k s x st Q := by
  refine (h.weaken fun e he => he.after ht hk).mono ?_
  rintro r ⟨b, c, hb, ht', hQ⟩
  exact ⟨a + b, d + c, by omega, ht.trans ht', hQ⟩

theorem Calls.mono (h : Calls ops j s x st R) (hk : j ≤ k) (hQ : ∀ r d, R r d → Q r d) :
    Calls ops k s x st Q := by
  refine Calls.after (.none s) (j := j) (by omega) (Meets.mono h ?_)
  rintro r ⟨a, d, ha, ht, hR⟩
  exact ⟨a, d, ha, ht, (congrArg (Q r) (Nat.zero_add d)).mpr (hQ r d hR)⟩

theorem calls_ok {r : α} (hs : st r = s) (hQ : Q r 0) : Calls ops k s (.ok r) st Q :=
  Meets.ok ⟨0, 0, Nat.zero_le k, by rw [hs]; exact .none s, hQ⟩

theorem calls_fuel : Calls ops k s (.error .fuel) st Q := Or.inr ⟨_, rfl, .fuel⟩

/-- A call on nodes comes first. -/
theorem calls_node {x : Except Fault β} {P : β → Prop} (hx : Indexes x P)
    (hf : ∀ b, P b → Calls ops k s (f b) st Q) : Calls ops k s (x >>= f) st Q :=
  Meets.bind (hx.weaken fun _ he => he ▸ .index) hf

theorem calls_getPage {p : Ptr} {f : BNode → Except Fault α}
    (hf : ∀ node, Calls ops k s (f node) st Q) :
    Calls ops k s (ops.getPage s p >>= f) st Q := by
  cases hx : ops.getPage s p with
  | ok node => exact hf node
  | error e => exact Or.inr ⟨e, rfl, .get (.none s) hx⟩

theorem calls_delPage {p : Ptr} {f : σ → Except Fault α}
    (hf : ∀ s', Calls ops k s' (f s') st fun r d => Q r (1 + d)) :
    Calls ops k s (ops.delPage s p >>= f) st Q := by
  cases hx : ops.delPage s p with
  | ok s' => exact (hf s').after ((Traffic.none s).del hx) (by omega)
  | error e => exact Or.inr ⟨e, rfl, .del (.none s) hx⟩

theorem calls_newPage {node : BNode} {f : Ptr × σ → Except Fault α}
    (hnode : node.length ≤ 2 * btreePageSize)
    (hf : ∀ ptr s', Calls ops k s' (f (ptr, s')) st Q) :
    Calls ops (k + 1) s (ops.newPage s node >>= f) st Q := by
  cases hx : ops.newPage s node with
  | ok r =>
      refine ((hf r.1 r.2).mono le_rfl fun r' d h => ?_).after
        ((Traffic.none s).new hnode hx) (by omega)
      rw [Nat.zero_add]
      exact h
  | error e => exact Or.inr ⟨e, rfl, .new (.none s) (Nat.succ_pos k) hx⟩

/-- The bounds of two calls add up. -/
theorem Calls.bind {x : Except Fault β} {st' : β → σ} {P : β → Nat → Prop}
    (hx : Calls ops k s x st' P)
    (hf : ∀ b c, P b c → Calls ops j (st' b) (f b) st fun r d => Q r (c + d)) :
    Calls ops (k + j) s (x >>= f) st Q := by
  rcases hx with ⟨b, rfl, a, c, ha, ht, hP⟩ | ⟨e, rfl, he⟩
  · exact (hf b c hP).after ht (by omega)
  · exact Or.inr ⟨e, rfl, he.after (.none s) (by omega)⟩

end Rules

variable {σ : Type} {ops : PageOps σ} {fuel : Nat} {tree tree' : BTree σ} {key val : Bytes}

-- ======================================================= insertion

/-- One allocation a kid, and no free. -/
theorem appendKids_calls : ∀ (kids : List BNode) (idx : Nat) (new : BNode) (s : σ),
    (∀ kid ∈ kids, kid.length ≤ 2 * btreePageSize) →
      Calls ops kids.length s (appendKids ops kids idx new s) Prod.snd fun r d =>
        r.1.length = new.length ∧ d = 0
  | [], _, _, _, _ => calls_ok rfl ⟨rfl, rfl⟩
  | kid :: kids, idx, new, s, hkids => by
      obtain ⟨hkid, hkids⟩ := List.forall_mem_cons.mp hkids
      refine calls_newPage hkid fun ptr s₁ => calls_node (indexes_getKey ..) fun key _ => ?_
      refine calls_node (fills_nodeAppendKV ..) fun new' hnew => ?_
      exact (appendKids_calls kids _ new' s₁ hkids).mono le_rfl fun r d h =>
        ⟨h.1.trans hnew, h.2⟩

theorem nodeReplaceKidN_calls {s : σ} (new old : BNode) (idx : Nat) (kids : List BNode)
    (hkids : ∀ kid ∈ kids, kid.length ≤ 2 * btreePageSize) :
    Calls ops kids.length s (nodeReplaceKidN ops new old idx kids s) Prod.snd fun r d =>
      r.1.length = new.length ∧ d = 0 := by
  refine calls_node (indexes_uintAt ..) fun n _ => calls_node (fills_setHeader ..) fun b hb => ?_
  refine calls_node (fills_nodeAppendRange ..) fun b' hb' => ?_
  refine (appendKids_calls kids _ b' s hkids).bind (j := 0) ?_
  rintro ⟨b'', s'⟩ c ⟨hb'', rfl⟩
  refine calls_node (fills_nodeAppendRange ..) fun b₃ hb₃ => calls_ok rfl ⟨?_, rfl⟩
  exact ((hb₃.trans hb'').trans hb').trans hb

/-- The induction is on the levels; a node of two pages is returned at
each. -/
theorem treeInsert_calls (key val : Bytes) : ∀ (fuel : Nat) (s : σ) (node : BNode),
    Calls ops (3 * fuel) s (treeInsert ops fuel s node key val) Prod.snd fun r d =>
      r.1.length = 2 * btreePageSize ∧ d ≤ fuel
  | 0, _, _ => calls_fuel
  | fuel + 1, s, node => by
      have hmake : (make (2 * btreePageSize)).length = 2 * btreePageSize := length_make _
      have hleaf : ∀ {x}, Fills (make (2 * btreePageSize)) x →
          Calls ops (3 * (fuel + 1)) s (do let new ← x; return (new, s)) Prod.snd fun r d =>
            r.1.length = 2 * btreePageSize ∧ d ≤ fuel + 1 := fun hx =>
        calls_node hx fun new hnew => calls_ok rfl ⟨hnew.trans hmake, Nat.zero_le _⟩
      rw [treeInsert]
      refine calls_node (indexes_nodeLookupLE ..) fun idx _ => ?_
      refine calls_node (indexes_uintAt ..) fun ty _ => ?_
      split
      · refine calls_node (indexes_uintAt ..) fun n _ => ?_
        split
        · exact hleaf (fills_leafInsert ..)
        · refine calls_node (indexes_getKey ..) fun k _ => ?_
          split
          · exact hleaf (fills_leafUpdate ..)
          · exact hleaf (fills_leafInsert ..)
      · split
        · refine calls_node (indexes_getPtr ..) fun kptr _ => calls_getPage fun knode => ?_
          refine calls_delPage fun s₁ => ?_
          refine (treeInsert_calls key val fuel s₁ knode).bind (j := 3) ?_
          rintro ⟨knode', s₂⟩ c ⟨hlen, hc⟩
          refine calls_node (indexes_nodeSplit3 ..) fun parts ⟨_, hthree, hshort⟩ => ?_
          refine (nodeReplaceKidN_calls _ _ _ parts (hshort (Nat.le_of_eq hlen))).mono hthree ?_
          rintro r d ⟨hr, rfl⟩
          exact ⟨hr.trans hmake, by omega⟩
        · exact calls_ok rfl ⟨hmake, Nat.zero_le _⟩

/-- One allocation a part, and no free. -/
theorem appendSplit_calls : ∀ (parts : List BNode) (i : Nat) (root : BNode) (s : σ),
    (∀ part ∈ parts, part.length ≤ 2 * btreePageSize) →
      Calls ops parts.length s (appendSplit ops parts i root s) Prod.snd fun r d =>
        r.1.length = root.length ∧ d = 0
  | [], _, _, _, _ => calls_ok rfl ⟨rfl, rfl⟩
  | part :: parts, i, root, s, hparts => by
      obtain ⟨hpart, hparts⟩ := List.forall_mem_cons.mp hparts
      refine calls_newPage hpart fun ptr s₁ => calls_node (indexes_offsetPos ..) fun pos _ => ?_
      refine calls_node (fills_copyAt ..) fun b hb => ?_
      refine calls_node (indexes_getKey ..) fun key _ => ?_
      refine calls_node (fills_nodeAppendKV ..) fun b' hb' => ?_
      exact (appendSplit_calls parts _ b' s₁ hparts).mono le_rfl fun r d h =>
        ⟨(h.1.trans hb').trans hb, h.2⟩

/-- An insertion into a tree that is not empty frees its root. -/
theorem insert_calls (fuel : Nat) (tree : BTree σ) (key val : Bytes) :
    Calls ops (3 * fuel + 4) tree.pages (insert ops fuel tree key val) BTree.pages fun _ d =>
      (tree.root ≠ 0 → 0 < d) ∧ d ≤ fuel + 1 := by
  have hmake : (make btreePageSize).length ≤ 2 * btreePageSize := by rw [length_make]; omega
  have hroot : ∀ {s : σ} {node : BNode} {Q : BTree σ → Nat → Prop},
      node.length ≤ 2 * btreePageSize → (∀ tree, Q tree 0) → Calls ops 1 s (do
        let r ← ops.newPage s node
        return (⟨r.1, r.2⟩ : BTree σ)) BTree.pages Q := fun hnode hQ =>
    calls_newPage (k := 0) hnode fun _ _ => calls_ok rfl (hQ _)
  rw [insert]
  split
  · next hzero =>
      refine calls_node (fills_setHeader ..) fun b hb => ?_
      refine calls_node (fills_nodeAppendKV ..) fun b' hb' => ?_
      refine (hroot (Q := fun _ d => d = 0) ((hb'.trans hb).trans_le hmake) fun _ => rfl).mono
        (by omega) ?_
      rintro _ _ rfl
      exact ⟨absurd hzero, Nat.zero_le _⟩
  refine calls_getPage fun node => calls_delPage fun s₁ => ?_
  refine (treeInsert_calls key val fuel s₁ node).bind ?_
  rintro ⟨node', s₂⟩ c ⟨hlen, hc⟩
  refine calls_node (indexes_nodeSplit3 ..) fun parts hsplit => ?_
  obtain ⟨-, hthree, hshort⟩ := hsplit
  have hparts := hshort (Nat.le_of_eq hlen)
  have hdone : (tree.root ≠ 0 → 0 < 1 + (c + 0)) ∧ 1 + (c + 0) ≤ fuel + 1 :=
    ⟨fun _ => by omega, by omega⟩
  dsimp only
  split
  · refine (hroot (Q := fun _ d => d = 0) (hparts _ (List.mem_singleton.mpr rfl))
      fun _ => rfl).mono (by omega) ?_
    rintro _ _ rfl
    exact hdone
  · refine calls_node (fills_setHeader ..) fun b hb => ?_
    refine ((appendSplit_calls parts _ b s₂ hparts).bind (j := 1) ?_).mono (by omega)
      fun _ _ h => h
    rintro ⟨b', s₃⟩ _ ⟨hb', rfl⟩
    exact hroot ((hb'.trans hb).trans_le hmake) fun _ => hdone

/-- An insertion into an empty tree allocates its root. -/
theorem insert_empty (hroot : tree.root = 0)
    (h : insert ops fuel tree key val = .ok tree') :
    ∃ root, ops.newPage tree.pages root = .ok (tree'.root, tree'.pages) := by
  rw [insert, if_pos hroot] at h
  obtain ⟨root, -, h⟩ := bind_eq_ok.mp h
  obtain ⟨root₁, -, h⟩ := bind_eq_ok.mp h
  obtain ⟨⟨ptr, s₁⟩, hnew, h⟩ := bind_eq_ok.mp h
  cases h
  exact ⟨root₁, hnew⟩

-- ======================================================== deletion

/-- Choosing a sibling only reads. -/
theorem shouldMerge_calls (s : σ) (node : BNode) (idx : Nat) (updated : BNode) :
    Calls ops 0 s (shouldMerge ops s node idx updated) (fun _ => s) fun _ d => d = 0 := by
  have hdir : ∀ dir : MergeDir, Calls ops 0 s (.ok dir) (fun _ => s) fun _ d => d = 0 :=
    fun dir => calls_ok rfl rfl
  have hright : Calls ops 0 s (shouldMergeRight ops s node idx updated) (fun _ => s)
      fun _ d => d = 0 := by
    refine calls_node (indexes_uintAt ..) fun n _ => Meets.ite ?_ (hdir _)
    refine calls_node (indexes_getPtr ..) fun p _ => calls_getPage fun sibling => ?_
    refine calls_node (indexes_nbytes ..) fun ss _ => calls_node (indexes_nbytes ..) fun us _ => ?_
    exact Meets.ite (hdir _) (hdir _)
  refine calls_node (indexes_nbytes ..) fun us _ => Meets.ite (hdir _) (Meets.ite ?_ hright)
  refine calls_node (indexes_getPtr ..) fun p _ => calls_getPage fun sibling => ?_
  exact calls_node (indexes_nbytes ..) fun ss _ => Meets.ite (hdir _) hright

/-- A level stores one node, and frees another if two are merged. -/
theorem rebuildKid_calls {s : σ} {node updated : BNode} {idx : Nat}
    (hupdated : updated.length = btreePageSize) :
    Calls ops 1 s (rebuildKid ops s node idx updated) Prod.snd fun r d =>
      r.1.length = btreePageSize ∧ d ≤ 1 := by
  have hmake : (make btreePageSize).length = btreePageSize := length_make _
  have hmerge : ∀ (left right : BNode) (i j : Nat), Calls ops 1 s (do
      let merged ← nodeMerge (make btreePageSize) left right
      let p ← getPtr node i
      let s ← ops.delPage s p
      let r ← ops.newPage s merged
      let k ← getKey merged 0
      let new ← nodeReplace2Kid (make btreePageSize) node j r.1 k
      return (new, r.2)) Prod.snd fun r d => r.1.length = btreePageSize ∧ d ≤ 1 := by
    intro left right i j
    refine calls_node (fills_nodeMerge ..) fun merged hmerged => ?_
    refine calls_node (indexes_getPtr ..) fun p _ => calls_delPage fun s₁ => ?_
    refine calls_newPage (k := 0) (by omega) fun ptr s₂ => ?_
    refine calls_node (indexes_getKey ..) fun k _ => ?_
    refine calls_node (fills_nodeReplace2Kid ..) fun new hnew => ?_
    exact calls_ok rfl ⟨hnew.trans hmake, Nat.le_refl 1⟩
  refine (shouldMerge_calls s node idx updated).bind (j := 1) ?_
  rintro dir c rfl
  simp only [Nat.zero_add]
  cases dir with
  | left sibling => exact hmerge ..
  | right sibling => exact hmerge ..
  | none =>
      refine calls_node (indexes_uintAt ..) fun n _ => Meets.ite ?_ ?_
      · refine calls_node (fills_setHeader ..) fun new hnew => ?_
        exact calls_ok rfl ⟨hnew.trans hmake, Nat.zero_le 1⟩
      · refine (nodeReplaceKidN_calls _ _ _ [updated] ?_).mono le_rfl ?_
        · exact List.forall_mem_singleton.mpr (by omega)
        · rintro r d ⟨hr, rfl⟩
          exact ⟨hr.trans hmake, Nat.zero_le 1⟩

theorem treeDelete_calls (key : Bytes) : ∀ (fuel : Nat) (s : σ) (node : BNode),
    Calls ops fuel s (treeDelete ops fuel s node key) Prod.snd fun r d =>
      (∀ new, r.1 = some new → new.length = btreePageSize) ∧ d ≤ 2 * fuel
  | 0, _, _ => calls_fuel
  | fuel + 1, s, node => by
      have hmake : (make btreePageSize).length = btreePageSize := length_make _
      have hnone : ∀ {k s}, Calls ops k s (.ok ((none : Option BNode), s)) Prod.snd fun r d =>
          (∀ new, r.1 = some new → new.length = btreePageSize) ∧ d = 0 :=
        calls_ok rfl ⟨nofun, rfl⟩
      rw [treeDelete]
      refine calls_node (indexes_nodeLookupLE ..) fun idx _ => ?_
      refine calls_node (indexes_uintAt ..) fun ty _ => ?_
      split
      · refine calls_node (indexes_getKey ..) fun k _ => ?_
        split
        · exact hnone.mono le_rfl fun r d h => ⟨h.1, by omega⟩
        · refine calls_node (indexes_uintAt ..) fun n _ => ?_
          refine calls_node (fills_setHeader ..) fun b hb => ?_
          refine calls_node (fills_nodeAppendRange ..) fun b' hb' => ?_
          refine calls_node (fills_nodeAppendRange ..) fun b₃ hb₃ => calls_ok rfl ⟨?_, by omega⟩
          rintro _ ⟨⟩
          exact ((hb₃.trans hb').trans hb).trans hmake
      · split
        · refine calls_node (indexes_getPtr ..) fun kptr _ => calls_getPage fun knode => ?_
          refine (treeDelete_calls key fuel s knode).bind (j := 1) ?_
          rintro ⟨updated?, s₁⟩ c ⟨hlen, hc⟩
          cases updated? with
          | none => exact hnone.mono le_rfl fun r d h => ⟨h.1, by omega⟩
          | some updated =>
              refine calls_delPage fun s₂ => ?_
              refine (rebuildKid_calls (hlen updated rfl)).bind (j := 0) ?_
              rintro ⟨new, s₃⟩ d ⟨hnew, hd⟩
              refine calls_ok rfl ⟨?_, by omega⟩
              rintro _ ⟨⟩
              exact hnew
        · exact hnone.mono le_rfl fun r d h => ⟨h.1, by omega⟩

/-- The deletion of a key that is there frees the root. -/
theorem delete_calls (fuel : Nat) (tree : BTree σ) (key : Bytes) :
    Calls ops (fuel + 1) tree.pages (delete ops fuel tree key) (fun r => r.2.pages) fun r d =>
      (r.1 = true → 0 < d) ∧ d ≤ 2 * fuel + 1 := by
  rw [delete]
  split
  · exact calls_ok rfl ⟨nofun, Nat.zero_le _⟩
  refine calls_getPage fun node => (treeDelete_calls key fuel _ node).bind (j := 1) ?_
  rintro ⟨updated?, s₁⟩ c ⟨hlen, hc⟩
  cases updated? with
  | none => exact calls_ok rfl ⟨nofun, by omega⟩
  | some updated =>
      have hupdated := hlen updated rfl
      refine calls_delPage fun s₂ => calls_node (indexes_uintAt ..) fun n _ => ?_
      split
      · exact calls_ok rfl ⟨fun _ => by omega, by omega⟩
      · refine calls_newPage (k := 0) (by omega) fun ptr s₃ => ?_
        exact calls_ok rfl ⟨fun _ => by omega, by omega⟩

-- ====================================================== whole runs

theorem getLoop_calls (s : σ) (key : Bytes) : ∀ (fuel : Nat) (node : BNode),
    Calls ops 0 s (getLoop ops fuel s node key) (fun _ => s) fun _ _ => True
  | 0, _ => calls_fuel
  | fuel + 1, node => by
      rw [getLoop]
      refine calls_node (indexes_nodeLookupLE ..) fun idx _ => ?_
      refine calls_node (indexes_uintAt ..) fun ty _ => Meets.ite ?_ (Meets.ite ?_ ?_)
      · refine calls_node (indexes_getKey ..) fun k _ => Meets.ite ?_ (calls_ok rfl trivial)
        exact calls_node (indexes_getVal ..) fun v _ => calls_ok rfl trivial
      · refine calls_node (indexes_getPtr ..) fun kptr _ => calls_getPage fun knode => ?_
        exact getLoop_calls s key fuel knode
      · exact getLoop_calls s key fuel node

theorem step_calls (fuel : Nat) (tree : BTree σ) (call : Call) :
    Calls ops (3 * fuel + 4) tree.pages (step ops fuel tree call) (fun r => r.2.pages)
      fun _ _ => True := by
  cases call with
  | insert key val =>
      exact (insert_calls fuel tree key val).bind (j := 0) fun _ _ _ => calls_ok rfl trivial
  | delete key =>
      have hle : fuel + 1 ≤ 3 * fuel + 4 := by omega
      exact ((delete_calls fuel tree key).mono hle fun _ _ h => h).bind (j := 0) fun _ _ _ =>
        calls_ok rfl trivial
  | get key =>
      have hget : Calls ops 0 tree.pages (get ops fuel tree key) (fun _ => tree.pages)
          fun _ _ => True :=
        Meets.ite (calls_ok rfl trivial) (calls_getPage fun node => getLoop_calls ..)
      exact (hget.mono (Nat.zero_le _) fun _ _ h => h).bind (j := 0) fun _ _ _ =>
        calls_ok rfl trivial

/-- A run makes no more allocations than each of its calls may. -/
theorem run_calls (fuel : Nat) (calls : List Call) : ∀ tree : BTree σ,
    Calls ops (calls.length * (3 * fuel + 4)) tree.pages (run ops fuel tree calls)
      (fun r => r.2.pages) fun _ _ => True := by
  induction calls with
  | nil => exact fun _ => calls_ok rfl trivial
  | cons c calls ih =>
      intro tree
      rw [List.length_cons, Nat.succ_mul, Nat.add_comm]
      refine (step_calls fuel tree c).bind fun r _ _ => ?_
      exact (ih r.2).bind (j := 0) fun _ _ _ => calls_ok rfl trivial

end Svacara.Btree
