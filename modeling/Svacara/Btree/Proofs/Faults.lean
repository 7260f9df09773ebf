/-
What the functions on nodes can fail with, and how long the buffers are
that they return.

A function on nodes fails only with an index out of range (`Indexes`),
and nothing resizes a buffer: a node is as long as the buffer it was made
in, one page or two (`Fills`). Nothing is assumed of the nodes; this holds
of garbage as well, which is what an entry whose lengths wrap around may
leave behind.
-/
import Svacara.Btree.Delete
import Svacara.Btree.Proofs.Build

namespace Svacara.Btree

open Buf Outcome

/-- The call returned a value with `Q`, unless an index was out of range. -/
abbrev Indexes {α : Type} (x : Except Fault α) (Q : α → Prop) : Prop :=
  Meets (· = Fault.index) x Q

/-- The node returned is as long as the buffer. -/
abbrev Fills (buf : BNode) (x : Except Fault BNode) : Prop :=
  Indexes x fun new => new.length = buf.length

/-- One call after another on the same buffer. -/
theorem Fills.next {buf : BNode} {x : Except Fault BNode} {f : BNode → Except Fault BNode}
    (hx : Fills buf x) (hf : ∀ new, Fills new (f new)) : Fills buf (x >>= f) :=
  Meets.bind hx fun new hnew => (hf new).mono fun _ h => h.trans hnew

/-- A bounds check. -/
theorem indexes_guard {α : Type} {c : Prop} [Decidable c] {a : α} {Q : α → Prop} (h : Q a) :
    Indexes (if c then .ok a else .error .index) Q :=
  Meets.ite (Meets.ok h) (Or.inr ⟨_, rfl, rfl⟩)

-- ======================================================= one field

theorem indexes_uintAt (w : Nat) (node : BNode) (pos : Nat) :
    Indexes (uintAt w node pos) fun _ => True :=
  indexes_guard trivial

/-- A slice is no longer than its node. -/
theorem indexes_sliceAt (node : BNode) (pos len : Nat) :
    Indexes (sliceAt node pos len) fun out => out.length ≤ node.length := by
  refine indexes_guard ?_
  rw [slice, List.length_take, List.length_drop]
  omega

/-- Writing a field keeps the length. -/
theorem fills_putUintAt (w : Nat) (node : BNode) (pos v : Nat) :
    Fills node (putUintAt w node pos v) :=
  (indexes_guard (Q := fun _ => True) trivial).keep.mono fun _ h => putUintAt_length h.1

/-- So does copying into the node. -/
theorem fills_copyAt (node : BNode) (pos : Nat) (src : Bytes) :
    Fills node (copyAt node pos src) :=
  (indexes_guard (Q := fun _ => True) trivial).keep.mono fun _ h => (copyAt_length h.1).2

theorem fills_setHeader (node : BNode) (ty n : Nat) : Fills node (setHeader node ty n) :=
  (fills_putUintAt ..).next fun _ => fills_putUintAt ..

theorem indexes_getPtr (node : BNode) (idx : Nat) : Indexes (getPtr node idx) fun _ => True :=
  (indexes_uintAt ..).bind fun _ _ => Meets.ok trivial

theorem indexes_offsetPos (node : BNode) (idx : Nat) :
    Indexes (offsetPos node idx) fun _ => True :=
  (indexes_uintAt ..).bind fun _ _ => Meets.ok trivial

theorem indexes_getOffset (node : BNode) (idx : Nat) :
    Indexes (getOffset node idx) fun _ => True :=
  Meets.ite (Meets.ok trivial) ((indexes_offsetPos ..).bind fun _ _ => indexes_uintAt ..)

theorem indexes_kvPos (node : BNode) (idx : Nat) : Indexes (kvPos node idx) fun _ => True :=
  (indexes_uintAt ..).bind fun _ _ => (indexes_getOffset ..).bind fun _ _ => Meets.ok trivial

theorem indexes_nbytes (node : BNode) : Indexes (nbytes node) fun _ => True :=
  (indexes_uintAt ..).bind fun _ _ => indexes_kvPos ..

/-- A key is no longer than its node. -/
theorem indexes_getKey (node : BNode) (idx : Nat) :
    Indexes (getKey node idx) fun key => key.length ≤ node.length :=
  (indexes_kvPos ..).bind fun _ _ => (indexes_uintAt ..).bind fun _ _ => indexes_sliceAt ..

/-- Nor is a value. -/
theorem indexes_getVal (node : BNode) (idx : Nat) :
    Indexes (getVal node idx) fun val => val.length ≤ node.length :=
  (indexes_kvPos ..).bind fun _ _ => (indexes_uintAt ..).bind fun _ _ =>
    (indexes_uintAt ..).bind fun _ _ => indexes_sliceAt ..

-- ========================================================= entries

/-- Every write of an entry is in place. -/
theorem fills_nodeAppendKV (new : BNode) (idx : Nat) (ptr : Ptr) (key val : Bytes) :
    Fills new (nodeAppendKV new idx ptr key val) := by
  unfold nodeAppendKV
  apply (fills_putUintAt ..).next; intro new
  apply (indexes_kvPos ..).bind; intro pos _
  apply (fills_putUintAt ..).next; intro new
  apply (fills_putUintAt ..).next; intro new
  apply (fills_copyAt ..).next; intro new
  apply (fills_copyAt ..).next; intro new
  apply (indexes_getOffset ..).bind; intro off _
  exact (indexes_offsetPos ..).bind fun _ _ => fills_putUintAt ..

/-- The induction is on the entries left to copy. -/
theorem fills_nodeAppendRange (old : BNode) (dstNew srcOld n : Nat) :
    ∀ new, Fills new (nodeAppendRange new old dstNew srcOld n) := by
  unfold nodeAppendRange
  induction List.range n with
  | nil => exact fun _ => Meets.ok rfl
  | cons i is ih =>
      intro new
      rw [List.foldlM_cons]
      refine Fills.next ?_ ih
      unfold appendRangeStep
      apply (indexes_getPtr ..).bind; intro ptr _
      apply (indexes_getKey ..).bind; intro key _
      apply (indexes_getVal ..).bind; intro val _
      exact fills_nodeAppendKV ..

theorem fills_appendAll (es : List Entry) : ∀ (new : BNode) (idx : Nat),
    Fills new (appendAll new idx es) := by
  induction es with
  | nil => exact fun _ _ => Meets.ok rfl
  | cons e es ih => exact fun _ _ => (fills_nodeAppendKV ..).next fun _ => ih ..

/-- A node built entry by entry. -/
theorem fills_build (buf : BNode) (ty : Nat) (es : List Entry) :
    Fills buf (build buf ty es) :=
  (fills_setHeader ..).next fun _ => fills_appendAll ..

/-- The search only reads keys. -/
theorem indexes_lookupLoop (node : BNode) (key : Bytes) :
    ∀ fuel lo hi, Indexes (lookupLoop node key fuel lo hi) fun _ => True := by
  intro fuel
  induction fuel with
  | zero => exact fun _ _ => Meets.ok trivial
  | succ fuel ih =>
      intro lo hi
      unfold lookupLoop
      refine Meets.ite ((indexes_getKey ..).bind fun k _ => ?_) (Meets.ok trivial)
      exact Meets.ite (ih ..) (ih ..)

theorem indexes_nodeLookupLE (node : BNode) (key : Bytes) :
    Indexes (nodeLookupLE node key) fun _ => True :=
  (indexes_uintAt ..).bind fun _ _ => (indexes_lookupLoop ..).bind fun _ _ => Meets.ok trivial

-- ===================================================== whole nodes

/-- The new leaf is as long as its buffer. -/
theorem fills_leafInsert (new old : BNode) (idx : Nat) (key val : Bytes) :
    Fills new (leafInsert new old idx key val) :=
  (indexes_uintAt ..).bind fun _ _ => (fills_setHeader ..).next fun _ =>
    (fills_nodeAppendRange ..).next fun _ => (fills_nodeAppendKV ..).next fun _ =>
      fills_nodeAppendRange ..

/-- An update writes as an insertion does. -/
theorem fills_leafUpdate (new old : BNode) (idx : Nat) (key val : Bytes) :
    Fills new (leafUpdate new old idx key val) :=
  (indexes_uintAt ..).bind fun _ _ => (fills_setHeader ..).next fun _ =>
    (fills_nodeAppendRange ..).next fun _ => (fills_nodeAppendKV ..).next fun _ =>
      fills_nodeAppendRange ..

/-- Merging fills one buffer from two nodes. -/
theorem fills_nodeMerge (new left right : BNode) : Fills new (nodeMerge new left right) :=
  (indexes_uintAt ..).bind fun _ _ => (indexes_uintAt ..).bind fun _ _ =>
    (indexes_uintAt ..).bind fun _ _ => (fills_setHeader ..).next fun _ =>
      (fills_nodeAppendRange ..).next fun _ => fills_nodeAppendRange ..

theorem fills_nodeReplace2Kid (new node : BNode) (idx : Nat) (ptr : Ptr) (key : Bytes) :
    Fills new (nodeReplace2Kid new node idx ptr key) :=
  (indexes_uintAt ..).bind fun _ _ => (fills_setHeader ..).next fun _ =>
    (fills_nodeAppendRange ..).next fun _ => (fills_nodeAppendKV ..).next fun _ =>
      fills_nodeAppendRange ..

/-- The loop only reads entries. -/
theorem indexes_splitLoop (old : BNode) (n total : Nat) :
    ∀ fuel i accum cut, Indexes (splitLoop old n total fuel i accum cut) fun _ => True := by
  intro fuel
  induction fuel with
  | zero => exact fun _ _ _ => Meets.ok trivial
  | succ fuel ih =>
      intro i accum cut
      unfold splitLoop
      refine Meets.ite ((indexes_getKey ..).bind fun k _ => ?_) (Meets.ok trivial)
      exact (indexes_getVal ..).bind fun v _ => Meets.ite (Meets.ok trivial) (ih ..)

/-- The halves are as long as their buffers. -/
theorem indexes_nodeSplit2 (left right old : BNode) :
    Indexes (nodeSplit2 left right old) fun r =>
      r.1.length = left.length ∧ r.2.length = right.length := by
  unfold nodeSplit2
  apply (indexes_uintAt ..).bind; intro n _
  apply (indexes_nbytes ..).bind; intro total _
  apply (indexes_splitLoop ..).bind; intro cut _
  apply (indexes_uintAt ..).bind; intro ty _
  refine (fills_setHeader ..).bind fun l hl => (fills_nodeAppendRange ..).bind fun l' hl' => ?_
  refine (fills_setHeader ..).bind fun r hr => (fills_nodeAppendRange ..).bind fun r' hr' => ?_
  exact Meets.ok ⟨hl'.trans hl, hr'.trans hr⟩

/-- One to three parts, none longer than two pages if the node is not. -/
theorem indexes_nodeSplit3 (old : BNode) :
    Indexes (nodeSplit3 old) fun parts =>
      1 ≤ parts.length ∧ parts.length ≤ 3 ∧ (old.length ≤ 2 * btreePageSize →
        ∀ part ∈ parts, part.length ≤ 2 * btreePageSize) := by
  have hpair : ∀ {a b : BNode}, a.length ≤ 2 * btreePageSize → b.length ≤ 2 * btreePageSize →
      ∀ part ∈ [a, b], part.length ≤ 2 * btreePageSize := fun ha hb =>
    List.forall_mem_cons.mpr ⟨ha, List.forall_mem_singleton.mpr hb⟩
  have hone : (make btreePageSize).length ≤ 2 * btreePageSize := by rw [length_make]; omega
  have htwo : (make (2 * btreePageSize)).length ≤ 2 * btreePageSize :=
    Nat.le_of_eq (length_make _)
  unfold nodeSplit3
  refine (indexes_nbytes ..).bind fun size _ => ?_
  split
  · exact Meets.ok ⟨by simp, by simp, fun hold => List.forall_mem_singleton.mpr hold⟩
  refine (indexes_nodeSplit2 ..).bind fun ⟨left, right⟩ ⟨hl, hr⟩ => ?_
  refine (indexes_nbytes ..).bind fun lsize _ => ?_
  split
  · exact Meets.ok ⟨by simp, by simp, fun _ => hpair (hl.trans_le htwo) (hr.trans_le hone)⟩
  refine (indexes_nodeSplit2 ..).bind fun ⟨leftleft, middle⟩ ⟨hll, hm⟩ => ?_
  refine Meets.ok ⟨by simp, by simp, fun _ => List.forall_mem_cons.mpr ⟨?_, ?_⟩⟩
  · exact hll.trans_le hone
  · exact hpair (hm.trans_le hone) (hr.trans_le hone)

end Svacara.Btree
