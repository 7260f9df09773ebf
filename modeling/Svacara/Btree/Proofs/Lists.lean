/-
Nodes as lists of entries.

`build` makes a node the way the source does, a header and then one entry
after the other. Where the entries fit the buffer, the node returned gives
exactly these entries back (`build_readable`). The operations that make a
node out of others are equal to `build`, run on the list that the
operation is meant to give (`nodes_are_lists`), so what holds of a node
built from a list holds of their results.
-/
import Svacara.Btree.Proofs.Splitting

namespace Svacara.Btree

open Buf Outcome

/-- What the accessors read off a node. -/
structure Readable (node : BNode) (ty : Nat) (es : List Entry) : Prop where
  btype : btype node = .ok ty
  nkeys : nkeys node = .ok es.length
  getPtr : ∀ i e, es[i]? = some e → getPtr node i = .ok e.ptr
  getKey : ∀ i e, es[i]? = some e → getKey node i = .ok e.key
  getVal : ∀ i e, es[i]? = some e → getVal node i = .ok e.val
  nbytes : nbytes node = .ok (4 + (es.map fun e => 14 + e.key.length + e.val.length).sum)

theorem nodeSize_eq_sum (es : List Entry) :
    nodeSize es = 4 + (es.map fun e => 14 + e.key.length + e.val.length).sum := by
  induction es with
  | nil => rfl
  | cons e es ih =>
      rw [nodeSize_cons, ih, List.map_cons, List.sum_cons, Entry.size]
      omega

theorem Encodes.readable {node : BNode} {ty : Nat} {es : List Entry} (h : Encodes node ty es) :
    Readable node ty es where
  btype := Holds.btype h
  nkeys := h.nkeys
  getPtr _ _ he := Holds.getPtr h he
  getKey _ _ he := Holds.getKey h he
  getVal _ _ he := Holds.getVal h he
  nbytes := by rw [h.nbytes, nodeSize_eq_sum]

/-- A header and the entries in order give a node of the entries, in a
buffer as long as before. -/
theorem build_readable {buf : BNode} {ty : Nat} {es : List Entry} (hbuf : buf.length ≤ 8192)
    (hty : ty < 65536) (hfit : nodeSize es ≤ buf.length) :
    ∃ new, build buf ty es = .ok new ∧ new.length = buf.length ∧ Encodes new ty es
      ∧ Readable new ty es := by
  obtain ⟨new, hnew, henc, hlen⟩ := build_encodes buf ty es (by omega) hty hfit
  exact ⟨new, hnew, hlen, henc, henc.readable⟩

-- =========================================== the entry at an index

section

variable {es : List Entry} {idx : Nat}

theorem insertIdx_eq (e : Entry) (h : idx ≤ es.length) :
    es.insertIdx idx e = es.take idx ++ e :: es.drop idx := by
  induction es generalizing idx with
  | nil =>
      rw [List.length_nil, Nat.le_zero] at h
      rw [h]
      rfl
  | cons e' es ih =>
      cases idx with
      | zero => rfl
      | succ idx =>
          rw [List.insertIdx_succ_cons, ih (Nat.le_of_succ_le_succ h)]
          rfl

variable {old : BNode} {ty : Nat} (ho : Encodes old ty es)

include ho

theorem leafInsert_list (buf : BNode) (key val : Bytes) (h : idx ≤ es.length)
    (hlt : es.length + 1 < 65536) :
    leafInsert buf old idx key val
      = build buf bnodeLeaf (es.insertIdx idx ⟨0, key, val⟩) := by
  have hA : (es.take idx).length = idx := List.length_take_of_le h
  rw [← List.take_append_drop idx es] at ho
  have heq := leafInsert_eq buf key val ho (by rw [hA, List.length_drop]; omega)
  rw [hA] at heq
  rw [heq, insertIdx_eq _ h]

theorem leafUpdate_list (buf : BNode) (key val : Bytes) (h : idx < es.length) :
    leafUpdate buf old idx key val
      = build buf bnodeLeaf (es.set idx ⟨0, key, val⟩) := by
  have hA : (es.take idx).length = idx := List.length_take_of_le h.le
  obtain ⟨e, he⟩ := around_getElem h
  rw [he] at ho
  have heq := leafUpdate_eq buf key val ho
  rw [hA] at heq
  rw [heq, List.set_eq_take_append_cons_drop, if_pos h]

theorem nodeReplace2Kid_list (buf : BNode) (ptr : Ptr) (key : Bytes)
    (h : idx + 1 < es.length) :
    nodeReplace2Kid buf old idx ptr key
      = build buf bnodeInternal (es.take idx ++ ⟨ptr, key, []⟩ :: es.drop (idx + 2)) := by
  have hA : (es.take idx).length = idx := List.length_take_of_le (by omega)
  have hsplit : es = es.take idx ++ es[idx] :: es[idx + 1] :: es.drop (idx + 2) := by
    rw [← List.drop_eq_getElem_cons h, ← List.drop_eq_getElem_cons (Nat.lt_of_succ_lt h),
      List.take_append_drop]
  rw [hsplit] at ho
  have heq := nodeReplace2Kid_eq buf ptr key ho
  rwa [hA] at heq

theorem nodeReplaceKidN_list {σ : Type} (ops : PageOps σ) (buf : BNode) (s : σ)
    {kids : List BNode} (h : idx < es.length) (hsmall : buf.length < 65536)
    (hkeys : ∀ kid ∈ kids, ∃ key, getKey kid 0 = .ok key)
    (hfit : nodeSize (es.take idx ++ (kids.map kidHead ++ es.drop (idx + 1))) ≤ buf.length) :
    nodeReplaceKidN ops buf old idx kids s = (do
      let (ks, s) ← storeKids ops kids s
      let new ← build buf bnodeInternal (es.take idx ++ (ks ++ es.drop (idx + 1)))
      return (new, s)) := by
  have hA : (es.take idx).length = idx := List.length_take_of_le h.le
  obtain ⟨e, he⟩ := around_getElem h
  rw [he] at ho
  have heq := nodeReplaceKidN_eq ops buf s ho hsmall hkeys hfit
  rwa [hA] at heq

end

theorem treeDelete_list {σ : Type} (ops : PageOps σ) (fuel : Nat) (s : σ) {old : BNode}
    {es : List Entry} {idx : Nat} {e : Entry} (ho : Encodes old bnodeLeaf es)
    (hat : es[idx]? = some e) (hlook : nodeLookupLE old e.key = .ok idx) :
    treeDelete ops (fuel + 1) s old e.key = (do
      let new ← build (make btreePageSize) bnodeLeaf (es.eraseIdx idx)
      return (some new, s)) := by
  obtain ⟨h, hget⟩ := List.getElem?_eq_some_iff.mp hat
  have hA : (es.take idx).length = idx := List.length_take_of_le h.le
  have hsplit : es = es.take idx ++ e :: es.drop (idx + 1) := by
    rw [← hget, ← List.drop_eq_getElem_cons h, List.take_append_drop]
  rw [hsplit] at ho
  rw [← hA] at hlook
  rw [treeDelete_found ops fuel s ho hlook, List.eraseIdx_eq_take_drop_succ]

-- ========================================================= results

/-- What `old`, a node of `es`, becomes in the buffer `buf`: each
operation builds the node of the list it is named after. `nodeReplaceKidN`
stores the kids first, and the entry of each is the pointer it got and its
first key. -/
structure Lists {σ : Type} (ops : PageOps σ) (buf old : BNode) (ty : Nat)
    (es : List Entry) : Prop where
  leafInsert : ∀ idx key val, idx ≤ es.length →
    nodeSize (es.insertIdx idx ⟨0, key, val⟩) ≤ buf.length →
    leafInsert buf old idx key val = build buf bnodeLeaf (es.insertIdx idx ⟨0, key, val⟩)
  leafUpdate : ∀ idx key val, idx < es.length →
    leafUpdate buf old idx key val = build buf bnodeLeaf (es.set idx ⟨0, key, val⟩)
  treeDelete : ty = bnodeLeaf → ∀ fuel s idx e, es[idx]? = some e →
    nodeLookupLE old e.key = .ok idx →
    treeDelete ops (fuel + 1) s old e.key = (do
      let new ← build (make btreePageSize) bnodeLeaf (es.eraseIdx idx)
      return (some new, s))
  nodeMerge : ∀ right ty' fs, Encodes right ty' fs → nodeSize (es ++ fs) ≤ buf.length →
    nodeMerge buf old right = build buf ty (es ++ fs)
  nodeReplaceKidN : ∀ idx kids s, idx < es.length →
    (∀ kid ∈ kids, ∃ key, getKey kid 0 = .ok key) →
    nodeSize (es.take idx ++ (kids.map kidHead ++ es.drop (idx + 1))) ≤ buf.length →
    nodeReplaceKidN ops buf old idx kids s = (do
      let (ks, s) ← storeKids ops kids s
      let new ← build buf bnodeInternal (es.take idx ++ (ks ++ es.drop (idx + 1)))
      return (new, s))
  nodeReplace2Kid : ∀ idx ptr key, idx + 1 < es.length →
    nodeReplace2Kid buf old idx ptr key
      = build buf bnodeInternal (es.take idx ++ ⟨ptr, key, []⟩ :: es.drop (idx + 2))

/-- A header and entries that fit a buffer make a node of these entries
inside it, and the operations on such nodes make the nodes of the lists
with entries inserted, replaced, removed, joined and substituted. -/
theorem nodes_are_lists {σ : Type} (ops : PageOps σ) (buf : BNode)
    (hbuf : buf.length ≤ 8192) :
    (∀ ty es, ty < 65536 →
        4 + (es.map fun e : Entry => 14 + e.key.length + e.val.length).sum ≤ buf.length →
        ∃ new, build buf ty es = .ok new ∧ new.length = buf.length ∧ Encodes new ty es
          ∧ Readable new ty es)
      ∧ ∀ old ty es, Encodes old ty es → Lists ops buf old ty es := by
  refine ⟨fun ty es hty hfit => build_readable hbuf hty (nodeSize_eq_sum es ▸ hfit), ?_⟩
  intro old ty es ho
  have hcount : ∀ fs : List Entry, nodeSize fs ≤ buf.length → fs.length < 65536 := by
    intro fs hfs
    rw [nodeSize] at hfs
    omega
  constructor
  · intro idx key val h hfit
    have hlt := hcount _ hfit
    rw [List.length_insertIdx_of_le_length h] at hlt
    exact leafInsert_list ho buf key val h hlt
  · intro idx key val h
    exact leafUpdate_list ho buf key val h
  · intro hty fuel s idx e hat hlook
    subst hty
    exact treeDelete_list ops fuel s ho hat hlook
  · intro right ty' fs hr hfit
    have hlt := hcount _ hfit
    rw [List.length_append] at hlt
    exact nodeMerge_eq buf ho hr hlt
  · intro idx kids s h hkeys hfit
    exact nodeReplaceKidN_list ho ops buf s h (by omega) hkeys hfit
  · intro idx ptr key h
    exact nodeReplace2Kid_list ho buf ptr key h

/-- A leaf of one entry, and a second one inserted in front of it. -/
theorem nodes_are_lists_two :
    ∃ old new, build (make 64) bnodeLeaf [⟨0, [2], [5]⟩] = .ok old
      ∧ leafInsert (make 64) old 0 [1] [4] = .ok new
      ∧ Readable new bnodeLeaf [⟨0, [1], [4]⟩, ⟨0, [2], [5]⟩] := by
  have hlen : (make 64).length = 64 := length_make 64
  obtain ⟨hbuild, hops⟩ := nodes_are_lists memOps (make 64) (by omega)
  obtain ⟨old, hold, -, henc, -⟩ := hbuild bnodeLeaf [⟨0, [2], [5]⟩] (by decide) (by
    rw [hlen]
    decide)
  obtain ⟨new, hnew, -, -, hreadable⟩ := hbuild bnodeLeaf [⟨0, [1], [4]⟩, ⟨0, [2], [5]⟩]
    (by decide) (by rw [hlen]; decide)
  refine ⟨old, new, hold, ?_, hreadable⟩
  rw [(hops old _ _ henc).leafInsert 0 [1] [4] (by decide) (by rw [hlen]; decide)]
  exact hnew

end Svacara.Btree
