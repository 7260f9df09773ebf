/-
When a deletion is safe.

`treeDelete_shrinks` has both directions for the nodes below the root,
`delete_drop` adds the root: the call leaves the outline that
`Outline.drop` computes, or there is none and it faults. It is proved
for any callbacks and any predicate they keep. Over the logged callbacks
that predicate is that the log shows no node larger than a page.
-/
import Svacara.Btree.Drop
import Svacara.Btree.Proofs.Delete
import Svacara.Btree.Proofs.Iterator
import Svacara.Btree.Proofs.Oversize

namespace Svacara.Btree

open Outcome Heap SortedMap

variable {σ : Type} {refusal : Fault} {ops : PageOps σ} {live : σ → Ptr → Option BNode}
  {key : Bytes}

-- ======================================================== one call

theorem Outline.drop_height_le {o o' : Outline} (hdrop : o.drop key = some o') :
    o'.height ≤ o.height := by
  cases o with
  | empty =>
      cases hdrop
      exact Nat.le_refl _
  | tree h b =>
      rw [Outline.drop] at hdrop
      split at hdrop
      · cases hdrop
        exact Nat.le_refl _
      · obtain ⟨b', -, rfl⟩ := Option.map_eq_some_iff.mp hdrop
        split
        · exact Nat.zero_le _
        · exact Nat.le_refl _

theorem owned_nil_eq {F m : Ptr → Option BNode} (h : Owned F m []) : m = F :=
  funext fun p => h.frame p List.not_mem_nil

/-- The deletion leaves the outline computed, if there is one. -/
theorem delete_drop (hl : Lawful refusal ops live) {I : σ → Prop} (hI : Keeping ops I)
    {F : Ptr → Option BNode} {o : Outline} {fuel : Nat} {tree : BTree σ} (key : Bytes)
    (hfuel : o.height < fuel) (ho : HasOutline F (live tree.pages) tree.root o) :
    Meets (fun e => e = refusal ∨ e = .index ∧ o.drop key = none)
      (delete ops fuel tree key) fun r =>
      (I tree.pages → I r.2.pages)
        ∧ ∃ o', o.drop key = some o' ∧ HasOutline F (live r.2.pages) r.2.root o' := by
  rw [delete]
  cases ho with
  | empty hroot hframe =>
      rw [if_pos hroot]
      exact Meets.ok ⟨id, .empty, rfl, .empty hroot hframe⟩
  | @tree h b hshape =>
      obtain ⟨hroot, t, rfl, hsub⟩ := hshape
      obtain ⟨buf, G, hbuf, henc, hpage, hkid, hback⟩ := hsub.root hl
      rw [if_neg hroot, hbuf, ok_bind, Outline.drop, flat_strip]
      refine ((treeDelete_shrinks hl hI key h fuel t buf tree.pages G hfuel henc hpage
        hkid).weaken ?_).bind ?_
      · intro e he
        rcases he with he | ⟨hindex, hhit, hnone⟩
        · exact Or.inl he
        · refine Or.inr ⟨hindex, ?_⟩
          rw [if_neg hhit, hnone]
          rfl
      rintro ⟨updated?, s₁⟩ hres
      cases updated? with
      | none =>
          -- a miss: the pages are untouched
          obtain ⟨rfl, hmiss⟩ := hres
          rw [if_pos hmiss]
          exact Meets.ok ⟨id, _, rfl, .tree ⟨hroot, t, rfl, hsub⟩⟩
      | some updated =>
          obtain ⟨hhit, hkeeps, t', hsome, hdel⟩ := hres
          obtain ⟨s₂, hs₂, hsub₂⟩ := hback s₁ t' hdel.sub
          have hkeeps₂ : I tree.pages → I s₂ := fun hs => hI.delPage _ _ _ (hkeeps hs) hs₂
          rw [if_neg hhit, hsome, Option.map_some]
          simp only [hs₂, ok_bind, hdel.enc.nkeys, entries_strip_eq_nil]
          by_cases hnil : entries h t' = []
          · obtain ⟨-, hpages0⟩ := empty_of_entries hnil
            have hown₂ := hsub₂.owned
            rw [hpages0] at hown₂
            rw [hnil, if_pos List.length_nil, if_pos rfl]
            exact Meets.ok ⟨hkeeps₂, _, rfl, .empty rfl (owned_nil_eq hown₂)⟩
          · rw [if_neg (mt List.length_eq_zero_iff.mp hnil), if_neg hnil]
            refine ((newPage_root hl hdel.enc ⟨hnil, hdel.size⟩ hsub₂).keep.weaken
              fun e => Or.inl).bind ?_
            rintro ⟨p, s₃⟩ ⟨hnew, hp0, hsub₃⟩
            have hfits : FitsPage updated := ⟨_, hdel.enc.nbytes, hdel.size⟩
            exact Meets.ok ⟨fun hs => hI.newPage _ _ _ (hkeeps₂ hs) hfits hnew, _, rfl,
              .tree ⟨hp0, t', rfl, hsub₃⟩⟩

-- =========================================================== a run

theorem Outline.Step.height_le {call : Call} {o o' : Outline} (h : Outline.Step call o o') :
    o'.height ≤ o.height + 1 := by
  cases h with
  | insert hput => exact hput.height_le
  | delete hdrop => exact Nat.le_succ_of_le (Outline.drop_height_le hdrop)
  | get => exact Nat.le_succ _

/-- A call that fits and returns leaves the outline computed. -/
theorem step_outline (hl : Lawful refusal ops live) {F : Ptr → Option BNode} {o o' : Outline}
    {fuel : Nat} {tree : BTree σ} {call : Call} {r : Answer × BTree σ}
    (hstep : Outline.Step call o o') (hfuel : o.height < fuel)
    (ho : HasOutline F (live tree.pages) tree.root o) (hret : step ops fuel tree call = .ok r) :
    HasOutline F (live r.2.pages) r.2.root o' := by
  cases hstep with
  | insert hput =>
      obtain ⟨tree', hins, h⟩ := bind_eq_ok.mp hret
      cases h
      exact ((insert_put hl hput hfuel ho).get hins).1
  | delete hdrop =>
      obtain ⟨⟨found, tree'⟩, hdel, h⟩ := bind_eq_ok.mp hret
      cases h
      have hI : Keeping ops fun _ => True :=
        ⟨fun _ _ _ _ _ _ => trivial, fun _ _ _ _ _ => trivial⟩
      obtain ⟨-, o₁, ho₁, hout⟩ := (delete_drop hl hI _ hfuel ho).get hdel
      rw [hdrop] at ho₁
      cases ho₁
      exact hout
  | get =>
      obtain ⟨val, -, h⟩ := bind_eq_ok.mp hret
      cases h
      exact ho

/-- Calls that all fit: the tree has the outline computed. The induction
is on the calls; each raises the height by one at most. -/
theorem run_outline (hl : Lawful refusal ops live) {F : Ptr → Option BNode} {fuel : Nat}
    {o o' : Outline} {calls : List Call} (hall : Outline.Steps o calls o') :
    ∀ {tree : BTree σ} {r : List Answer × BTree σ}, o.height + calls.length ≤ fuel →
      HasOutline F (live tree.pages) tree.root o → run ops fuel tree calls = .ok r →
      HasOutline F (live r.2.pages) r.2.root o' ∧ o'.height ≤ o.height + calls.length := by
  induction hall with
  | nil =>
      intro tree r hfuel ho hret
      cases hret
      exact ⟨ho, Nat.le_refl _⟩
  | cons hstep hrest ih =>
      intro tree r hfuel ho hret
      rw [List.length_cons] at hfuel ⊢
      obtain ⟨⟨a, tree₁⟩, hone, hret⟩ := bind_eq_ok.mp hret
      obtain ⟨⟨as, tree₂⟩, hrest, h⟩ := bind_eq_ok.mp hret
      cases h
      have hheight := hstep.height_le
      obtain ⟨ho', hle⟩ := ih (by omega) (step_outline hl hstep (by omega) ho hone) hrest
      exact ⟨ho', by omega⟩

theorem Outline.Steps.snoc {o₁ o₂ o₃ : Outline} {calls : List Call} {call : Call}
    (hall : Outline.Steps o₁ calls o₂) (hstep : Outline.Step call o₂ o₃) :
    Outline.Steps o₁ (calls ++ [call]) o₃ := by
  induction hall with
  | nil => exact .cons hstep .nil
  | cons hfirst _ ih => exact .cons hfirst (ih hstep)

theorem Outline.Steps.of_snoc {calls : List Call} {call : Call} :
    ∀ {o₁ o₃ : Outline}, Outline.Steps o₁ (calls ++ [call]) o₃ →
      ∃ o₂, Outline.Steps o₁ calls o₂ ∧ Outline.Step call o₂ o₃ := by
  induction calls with
  | nil =>
      intro o₁ o₃ h
      cases h with
      | cons hstep hrest =>
          cases hrest
          exact ⟨o₁, .nil, hstep⟩
  | cons first calls ih =>
      intro o₁ o₃ h
      cases h with
      | cons hstep hrest =>
          obtain ⟨o₂, hall, hlast⟩ := ih hrest
          exact ⟨o₂, .cons hstep hall, hlast⟩

-- ====================================================== the result

/-- **A deletion is safe exactly if it fits.** On any tree that calls
which all fit have made, over any store of pages and with keys and values
of any size: unless the store has no page left, the deletion writes
inside its buffers and stores no node larger than a page if and only if
it fits on top of the earlier calls. -/
theorem deleteSafe_iff_callsFit (hl : Lawful refusal ops live) (s : σ) {calls : List Call}
    (hcalls : CallsFit calls) {fuel : Nat} (hfuel : calls.length < fuel)
    {answers : List Answer} {tree : BTree σ}
    (hrun : run ops fuel ⟨0, s⟩ calls = .ok (answers, tree)) (key : Bytes)
    (hpage : delete (logged ops) fuel ⟨tree.root, (tree.pages, [])⟩ key ≠ .error refusal) :
    DeleteSafe ops fuel tree key ↔ CallsFit (calls ++ [.delete key]) := by
  have hstart : HasOutline (live s) (live s) 0 .empty := .empty rfl rfl
  have hlen : Outline.empty.height + calls.length ≤ fuel := by
    rw [Outline.height]
    omega
  -- the deletion over the logged callbacks, from the outline of a run
  have hdelete : ∀ o, Outline.Steps .empty calls o →
      Meets (fun e => e = refusal ∨ e = .index ∧ o.drop key = none)
        (delete (logged ops) fuel ⟨tree.root, (tree.pages, [])⟩ key) fun r =>
        StoredFit r.2.pages ∧ ∃ o', o.drop key = some o' := by
    intro o hall
    obtain ⟨ho, hheight⟩ := run_outline hl hall hlen hstart hrun
    rw [Outline.height, Nat.zero_add] at hheight
    refine (delete_drop (logged_lawful hl) (logged_keeping ops) key (by omega) ho).mono ?_
    rintro r ⟨hkeeps, o', hdrop, -⟩
    exact ⟨hkeeps fun _ hmem => absurd hmem List.not_mem_nil, o', hdrop⟩
  constructor
  · intro hsafe
    obtain ⟨found, tree', hdel, -⟩ := hsafe
    obtain ⟨o, hall⟩ := hcalls
    obtain ⟨-, o', hdrop⟩ := (hdelete o hall).get hdel
    exact ⟨o', hall.snoc (.delete hdrop)⟩
  · intro hfit
    obtain ⟨o', hall⟩ := hfit
    obtain ⟨o, hall, hstep⟩ := hall.of_snoc
    cases hstep with
    | delete hdrop =>
        rcases hdelete o hall with ⟨⟨found, tree'⟩, hdel, hfit, -⟩ | ⟨e, herr, he⟩
        · exact ⟨found, tree', hdel, hfit⟩
        · rw [hdrop] at he
          rcases he with rfl | ⟨-, he⟩
          · exact absurd herr hpage
          · cases he

/-- Insertions that fit do not run out of pages in memory. -/
theorem inserts_memory {F : Ptr → Option BNode} {fuel : Nat} {o o' : Outline}
    {kvs : List (Bytes × Bytes)} (hall : Outline.PutAll o kvs o') :
    ∀ (tree : BTree MemStore), o.height + kvs.length ≤ fuel →
      HasOutline F tree.pages.pages tree.root o →
      tree.pages.next + kvs.length * (3 * fuel + 4) ≤ 2 ^ 64 →
      ∃ answers tree', run memOps fuel tree (kvs.map fun kv => .insert kv.1 kv.2)
          = .ok (answers, tree')
        ∧ HasOutline F tree'.pages.pages tree'.root o'
        ∧ tree'.pages.next ≤ tree.pages.next + kvs.length * (3 * fuel + 4) := by
  induction hall with
  | nil =>
      intro tree hfuel ho hroom
      exact ⟨[], tree, rfl, ho, Nat.le_add_right _ _⟩
  | @cons o₁ o₂ o₃ kv kvs hput hrest ih =>
      intro tree hfuel ho hroom
      rw [List.length_cons] at hfuel hroom ⊢
      rw [Nat.succ_mul] at hroom ⊢
      have hheight := hput.height_le
      have hbelow : o₁.height < fuel := by omega
      obtain ⟨tree₁, hins, ⟨ho₁, -⟩, hnext⟩ := memOps_numbered.returns (insert_calls ..)
        (by omega) (insert_put memOps_lawful hput hbelow ho)
      obtain ⟨answers, tree₂, hrun, ho₂, hnext₂⟩ := ih tree₁ (by omega) ho₁ (by omega)
      refine ⟨.done :: answers, tree₂, ?_, ho₂, by omega⟩
      rw [List.map_cons, run, step, hins]
      simp only [ok_bind, pure_eq_ok, hrun]

/-- The first two pairs of `bigRow` make two leaves. -/
theorem put_first : Outline.Put (bigRow 0).1 (bigRow 0).2 .empty (.tree 0 (bigLeaf 0)) := by
  refine .first ?_
  rw [Prod.mk.eta, pairSize_bigRow]
  decide

theorem put_second : Outline.Put (bigRow 1).1 (bigRow 1).2 (.tree 0 (bigLeaf 0))
    (.tree 1 (comb [0, 1])) :=
  .grow (grows_pair (by decide)) (splits_pair 0 1) (rooted_two (i := 0) (j := 1) rfl rfl)

/-- From that tree the pair of the second leaf can be deleted. -/
theorem deleteSafe_iff_callsFit_two_leaves :
    ∃ answers tree, run memOps 3 ⟨0, .empty⟩ ([bigRow 0, bigRow 1].map fun kv =>
        .insert kv.1 kv.2) = .ok (answers, tree)
      ∧ DeleteSafe memOps 3 tree (bigRow 1).1
      ∧ CallsFit (([bigRow 0, bigRow 1].map fun kv => .insert kv.1 kv.2)
        ++ [.delete (bigRow 1).1]) := by
  have hstart : HasOutline MemStore.empty.pages MemStore.empty.pages 0 .empty := .empty rfl rfl
  obtain ⟨answers, tree, hrun, -, hnext⟩ := inserts_memory
    (.cons put_first (.cons put_second .nil)) ⟨0, .empty⟩
    (by decide : Outline.empty.height + [bigRow 0, bigRow 1].length ≤ 3) hstart (by decide)
  have hroom : tree.pages.next + (3 + 1) ≤ 2 ^ 64 :=
    Nat.le_trans (Nat.add_le_add_right hnext _) (by decide)
  have hdrop : ((Outline.tree 1 (comb [0, 1])).drop (bigRow 1).1).isSome = true := by
    decide +kernel
  obtain ⟨o, ho⟩ := Option.isSome_iff_exists.mp hdrop
  have hfit : CallsFit (([bigRow 0, bigRow 1].map fun kv => .insert kv.1 kv.2)
      ++ [.delete (bigRow 1).1]) :=
    ⟨o, .cons (.insert put_first) (.cons (.insert put_second) (.cons (.delete ho) .nil))⟩
  refine ⟨answers, tree, hrun, ?_, hfit⟩
  exact (deleteSafe_iff_callsFit memOps_lawful .empty
    ⟨_, .cons (.insert put_first) (.cons (.insert put_second) .nil)⟩ (by decide) hrun
    (bigRow 1).1 (memOps_numbered.logged.ne_noPage (delete_calls ..) hroom)).mpr hfit

-- ===================================================== the failure

/-- A leaf with a short key in front of a long one. -/
def shortLeaf : Tree 0 := [([0], [7]), bigRow 0]

/-- That leaf in front of leaves with one long key each. -/
def fringe (is : List UInt8) : Tree 1 := ofKids ((0, shortLeaf) :: is.map bigKid)

theorem nodeSize_fringe (is : List UInt8) :
    nodeSize (entries 1 (fringe is)) = header + 15 + 1014 * is.length := by
  have hcomb := nodeSize_comb is
  have hcons : entries 1 (fringe is) = ⟨0, [0], []⟩ :: entries 1 (comb is) := rfl
  rw [hcons, nodeSize_cons, hcomb, Entry.size]
  simp only [List.length_cons, List.length_nil]
  omega

theorem nodeSize_shortLeaf : nodeSize (entries 0 shortLeaf) = 2067 := by
  have h := nodeSize_pairs [([0], [7]), bigRow 0]
  simp only [List.map_cons, List.map_nil, List.sum_cons, List.sum_nil, pairSize_bigRow] at h
  exact h

theorem short_lt (i : UInt8) : [0] < (bigRow i).1 := by
  rcases eq_or_ne i 0 with rfl | hne
  · exact List.Lex.cons List.Lex.nil
  · exact List.Lex.rel (UInt8.pos_iff_ne_zero.mpr hne)

/-- The short key goes to the first leaf. -/
theorem put_short :
    Outline.Put [0] [7] (.tree 1 (comb [0, 1, 2, 3])) (.tree 1 (fringe [1, 2, 3])) := by
  have hins : ins [0] [7] (bigLeaf 0) = shortLeaf := by
    refine ins_between (A := []) (B := bigLeaf 0) (fun _ he => absurd he List.not_mem_nil) ?_
    intro e he
    rw [List.mem_singleton.mp he]
    exact short_lt 0
  have hkid : Grows [0] [7] 0 (bigLeaf 0) shortLeaf := by
    rw [← hins]
    refine .leaf ?_
    rw [hins, nodeSize_shortLeaf]
    decide
  have hsize : nodeSize (entries 1 (fringe [1, 2, 3])) ≤ btreePageSize := by
    rw [nodeSize_fringe]
    decide
  refine .grow (.node (L := []) (R := [1, 2, 3].map bigKid) (k := bigKid 0) ?_ (Or.inl rfl)
    hkid (.fits ?_) ?_) (.fits hsize) .one
  · intro e he
    obtain ⟨k, hk, he⟩ := List.mem_flatMap.mp he
    obtain ⟨i, -, rfl⟩ := List.mem_map.mp hk
    rw [List.mem_singleton.mp he]
    exact short_lt i
  · rw [nodeSize_shortLeaf]
    decide
  · exact Nat.le_trans hsize (by decide)

/-- A fifth leaf fits, as the short key is one of the separators. -/
theorem put_last : Outline.Put (bigRow 4).1 (bigRow 4).2 (.tree 1 (fringe [1, 2, 3]))
    (.tree 1 (fringe [1, 2, 3, 4])) := by
  have hsize : nodeSize (entries 1 (fringe [1, 2, 3, 4])) ≤ btreePageSize := by
    rw [nodeSize_fringe]
    decide
  refine .grow (.node (L := (0, shortLeaf) :: [1, 2].map bigKid) (R := []) (k := bigKid 3)
    (fun _ he => absurd he List.not_mem_nil) (Or.inr (bigRow_lt (by decide)).le)
    (grows_pair (by decide)) (splits_pair 3 4) ?_) (.fits hsize) .one
  exact Nat.le_trans hsize (by decide)

/-- Four long keys, a short one and another long one. -/
def crowded : List (Bytes × Bytes) :=
  [bigRow 0, bigRow 1, bigRow 2, bigRow 3, ([0], [7]), bigRow 4]

theorem crowded_fits : Outline.PutAll .empty crowded (.tree 1 (fringe [1, 2, 3, 4])) := by
  have hcomb : ∀ is : List UInt8, is.length ≤ 4 → is ≠ [] →
      nodeSize (entries 1 (comb is)) ≤ btreePageSize := fun is hlen hne =>
    (rowPage_comb hne hlen).2
  have hthird : Grows (bigRow 2).1 (bigRow 2).2 1 (comb ([0] ++ [1])) (comb ([0] ++ [1, 2])) :=
    grows_comb (by decide) (by decide)
  have hfourth : Grows (bigRow 3).1 (bigRow 3).2 1 (comb ([0, 1] ++ [2]))
      (comb ([0, 1] ++ [2, 3])) := grows_comb (by decide) (by decide)
  refine .cons put_first (.cons put_second (.cons (.grow hthird
    (.fits (hcomb _ (by decide) (List.cons_ne_nil _ _))) .one) ?_))
  refine .cons (.grow hfourth
    (.fits (hcomb _ (by decide) (List.cons_ne_nil _ _))) .one) ?_
  exact .cons put_short (.cons put_last .nil)

/-- Without the short key there are five long separators, and no room. -/
theorem drop_short : Outline.drop [0] (.tree 1 (fringe [1, 2, 3, 4])) = none := by
  have hseat : seat [0] (entries 1 (fringe [1, 2, 3, 4])) = 0 := by
    refine seat_eq (A := []) (fun _ he => absurd he List.not_mem_nil) (Or.inl rfl) ?_
    intro b hb
    obtain ⟨k, hk, rfl⟩ := List.mem_map.mp hb
    obtain ⟨i, -, rfl⟩ := List.mem_map.mp hk
    exact short_lt i
  have hdel : del [0] shortLeaf = bigLeaf 0 := by
    refine del_between (A := []) (w := [7]) (fun _ he => absurd he List.not_mem_nil) ?_
    intro e he
    rw [List.mem_singleton.mp he]
    exact short_lt 0
  have hstay : rejoin [] (bigLeaf 0) ([1, 2, 3, 4].map bigKid) = [0, 1, 2, 3, 4].map bigKid := by
    have hsize : nodeSize (entries 0 (bigLeaf 0)) = 2051 := by
      have h := nodeSize_pairs [bigRow 0]
      simp only [List.map_cons, List.map_nil, List.sum_cons, List.sum_nil, pairSize_bigRow] at h
      exact h
    rw [rejoin, hsize, if_pos (by decide)]
    exact if_neg (List.cons_ne_nil _ _)
  have hshrink : shrink [0] 1 (fringe [1, 2, 3, 4]) = none := by
    have hnode := shrink_node (L := []) (R := [1, 2, 3, 4].map bigKid) (k := (0, shortLeaf)) hseat
    have hkid : shrink [0] 0 shortLeaf = some (bigLeaf 0) := congrArg some hdel
    have hover : ¬ nodeSize (entries 1 (comb [0, 1, 2, 3, 4])) ≤ btreePageSize := by
      rw [nodeSize_comb]
      decide
    rw [hkid, Option.bind_some, hstay] at hnode
    exact hnode.trans (if_neg hover)
  rw [Outline.drop, hshrink]
  exact if_neg (Option.some_ne_none _)

/-- The root of the tree has five kids and little room left. Without its
short key the first of them is known by a long one, the root outgrows the
page, and `Delete` panics. -/
theorem crowded_delete_unsafe :
    (∀ kv ∈ crowded, (Call.insert kv.1 kv.2).Admissible)
      ∧ ∃ answers tree, run memOps 7 ⟨0, .empty⟩ (crowded.map fun kv => .insert kv.1 kv.2)
          = .ok (answers, tree)
        ∧ get memOps 7 tree [0] = .ok (some [7])
        ∧ delete memOps 7 tree [0] = .error .index ∧ ¬ DeleteSafe memOps 7 tree [0] := by
  have hbig : ∀ i, (Call.insert (bigRow i).1 (bigRow i).2).Admissible := by
    intro i
    simp [Call.Admissible, bigRow, btreeMaxKeySize, btreeMaxValSize]
  have hlimits : ∀ kv ∈ crowded, (Call.insert kv.1 kv.2).Admissible := by
    simp only [crowded, List.forall_mem_cons]
    exact ⟨hbig 0, hbig 1, hbig 2, hbig 3, ⟨by decide, by decide⟩, hbig 4,
      fun _ he => absurd he List.not_mem_nil⟩
  have hstart : HasOutline MemStore.empty.pages MemStore.empty.pages 0 .empty := .empty rfl rfl
  obtain ⟨answers, tree, hrun, ho, hnext⟩ := inserts_memory crowded_fits ⟨0, .empty⟩
    (by decide : Outline.empty.height + crowded.length ≤ 7) hstart (by decide)
  have hroom : tree.pages.next + (7 + 1) ≤ 2 ^ 64 := Nat.le_trans
    (Nat.add_le_add_right hnext _) (by decide)
  have hbelow : Outline.height (.tree 1 (fringe [1, 2, 3, 4])) < 7 := by decide
  refine ⟨hlimits, answers, tree, hrun, ?_, ?_, ?_⟩
  · rw [ho.get memOps_lawful hbelow]
    rfl
  · have hI : Keeping memOps fun _ => True :=
      ⟨fun _ _ _ _ _ _ => trivial, fun _ _ _ _ _ => trivial⟩
    rcases delete_drop memOps_lawful hI [0] hbelow ho with
      ⟨r, -, -, o', hdrop, -⟩ | ⟨e, herr, he⟩
    · rw [drop_short] at hdrop
      cases hdrop
    · rcases he with rfl | ⟨rfl, -⟩
      · exact absurd herr (memOps_numbered.ne_noPage (delete_calls ..) hroom)
      · exact herr
  · intro hsafe
    obtain ⟨found, tree', hret, -⟩ := hsafe
    obtain ⟨-, o', hdrop, -⟩ := (delete_drop (logged_lawful memOps_lawful)
      (logged_keeping memOps) [0] hbelow ho).get hret
    rw [drop_short] at hdrop
    cases hdrop

end Svacara.Btree
