/-
What a deletion makes of a tree, for keys of any size.

`shrink key` computes `treeDelete` on trees: the pair leaves its leaf,
and a node takes the new node of its kid in the kid's place, joined with
a neighbour if it has become small (`rejoin`). Nothing is split on the
way up, although a node may have grown: a kid without its first key is
known by the next one, and that one may be longer. The result is `none`
if some node comes to more than a page.

On the row workload all keys are equally long and this does not happen
(`shrink_rows`).
-/
import Svacara.Btree.Proofs.Grow

namespace Svacara.Btree

open SortedMap

variable {h : Nat} {key : Bytes}

-- ==================================================== the function

/-- Where `nodeLookupLE` ends: at the last entry, from the second on,
whose key is not above the one looked for. -/
def seat (key : Bytes) (es : List Entry) : Nat :=
  (es.tail.takeWhile fun e => e.key ≤ key).length

section Kids

variable (L : List (Ptr × Tree h)) (u : Tree h) (R : List (Ptr × Tree h))

/-- The kid stays by itself. Without keys it takes the node with it. -/
def remain : List (Ptr × Tree h) :=
  if entries h u = [] then [] else L ++ (0, u) :: R

/-- The kid joins its right neighbour if the two fit a page. -/
def joinRight : List (Ptr × Tree h) → List (Ptr × Tree h)
  | [] => remain L u []
  | kr :: R =>
      if nodeSize (entries h u ++ entries h kr.2) ≤ btreePageSize then
        L ++ (0, append h u kr.2) :: R
      else remain L u (kr :: R)

/-- The kids of a node when the one between `L` and `R` has become `u`,
as `shouldMerge` decides: a small one joins its left neighbour, or else
its right one. -/
def rejoin : List (Ptr × Tree h) :=
  if btreePageSize / 4 < nodeSize (entries h u) then remain L u R
  else
    match L.getLast? with
    | none => joinRight L u R
    | some kl =>
        if nodeSize (entries h kl.2 ++ entries h u) ≤ btreePageSize then
          L.dropLast ++ (0, append h kl.2 u) :: R
        else joinRight L u R

end Kids

/-- `treeDelete` on shapes, for a key that is there. -/
def shrink (key : Bytes) : (h : Nat) → Tree h → Option (Tree h)
  | 0, kvs => some (del key kvs)
  | h + 1, kids =>
      let i := seat key (entries (h + 1) kids)
      match List.drop i kids with
      | [] => none
      | k :: R => do
          let u ← shrink key h k.2
          let kids' := ofKids (rejoin (List.take i kids) u R)
          if nodeSize (entries (h + 1) kids') ≤ btreePageSize then some kids' else none

-- ====================================================== the search

theorem seat_lt (key : Bytes) {es : List Entry} (hne : es ≠ []) : seat key es < es.length := by
  have hle := ( List.takeWhile_prefix (l := es.tail) fun e => decide (e.key ≤ key)).length_le
  have hpos := List.length_pos_iff.mpr hne
  rw [List.length_tail] at hle
  unfold seat
  omega

theorem seat_eq {A B : List Entry} {e : Entry} (hA : ∀ a ∈ A, a.key ≤ key)
    (he : A = [] ∨ e.key ≤ key) (hB : ∀ b ∈ B, key < b.key) :
    seat key (A ++ e :: B) = A.length := by
  have hstop : B.takeWhile (fun e => decide (e.key ≤ key)) = [] := by
    cases B with
    | nil => rfl
    | cons b B =>
        rw [List.takeWhile_cons_of_neg]
        simpa using hB b (List.mem_cons_self ..)
  cases A with
  | nil =>
      show (B.takeWhile _).length = 0
      rw [hstop]
      rfl
  | cons a A =>
      have hgo : ∀ x ∈ A, decide (x.key ≤ key) = true := fun x hx =>
        decide_eq_true (hA x (List.mem_cons_of_mem _ hx))
      have hlast : e.key ≤ key := he.resolve_left (List.cons_ne_nil _ _)
      show ((A ++ e :: B).takeWhile _).length = A.length + 1
      rw [List.takeWhile_append_of_pos hgo, List.takeWhile_cons, hstop,
        if_pos (decide_eq_true hlast), List.length_append]
      rfl

theorem seat_bare (es : List Entry) : seat key (es.map Entry.bare) = seat key es := by
  unfold seat
  rw [← List.map_tail, List.takeWhile_map, List.length_map]
  rfl

theorem exists_seat (key : Bytes) {kids : List (Ptr × Tree h)} (hne : kids ≠ []) :
    ∃ L k R, kids = L ++ k :: R
      ∧ seat key (entries (h + 1) (ofKids kids)) = L.length := by
  have hlt : seat key (kids.map kidEntry) < kids.length := by
    have hlt := seat_lt key (mt List.map_eq_nil_iff.mp hne : kids.map kidEntry ≠ [])
    rwa [List.length_map] at hlt
  refine ⟨kids.take _, kids[seat key (kids.map kidEntry)],
    kids.drop (seat key (kids.map kidEntry) + 1), ?_, (List.length_take_of_le hlt.le).symm⟩
  rw [← List.drop_eq_getElem_cons, List.take_append_drop]

/-- The kid that `shrink` goes to. -/
theorem shrink_node {L R : List (Ptr × Tree h)} {k : Ptr × Tree h}
    (hseat : seat key (entries (h + 1) (ofKids (L ++ k :: R))) = L.length) :
    shrink key (h + 1) (ofKids (L ++ k :: R)) = (shrink key h k.2).bind fun u =>
      if nodeSize (entries (h + 1) (ofKids (rejoin L u R))) ≤ btreePageSize then
        some (ofKids (rejoin L u R))
      else none := by
  rw [shrink]
  simp only [hseat, ofKids, List.drop_left', List.take_left']
  rfl

-- ======================================================== pointers

/-- A kid without its pointers. -/
def stripKid (k : Ptr × Tree h) : Ptr × Tree h := (0, strip h k.2)

theorem strip_kids (kids : List (Ptr × Tree h)) :
    strip (h + 1) (ofKids kids) = ofKids (kids.map stripKid) := rfl

theorem strip_append : ∀ {h : Nat} (a b : Tree h),
    strip h (append h a b) = append h (strip h a) (strip h b)
  | 0, _, _ => rfl
  | _ + 1, _, _ => List.map_append

theorem nodeSize_strip_append (u v : Tree h) :
    nodeSize (entries h (strip h u) ++ entries h (strip h v))
      = nodeSize (entries h u ++ entries h v) := by
  rw [entries_strip, entries_strip, ← List.map_append, nodeSize_bare]

section Strip

variable (L R : List (Ptr × Tree h)) (u : Tree h)

theorem strip_remain : (remain L u R).map stripKid
    = remain (L.map stripKid) (strip h u) (R.map stripKid) := by
  simp only [remain, entries_strip_eq_nil]
  split
  · rfl
  · rw [List.map_append]
    rfl

theorem strip_joinRight : (joinRight L u R).map stripKid
    = joinRight (L.map stripKid) (strip h u) (R.map stripKid) := by
  cases R with
  | nil => exact strip_remain L [] u
  | cons kr R =>
      simp only [joinRight, List.map_cons]
      rw [show (stripKid kr).2 = strip h kr.2 from rfl, nodeSize_strip_append]
      split
      · rw [List.map_append, List.map_cons, stripKid, strip_append]
      · exact strip_remain L (kr :: R) u

/-- The kids a deletion leaves do not depend on pointers. -/
theorem strip_rejoin : (rejoin L u R).map stripKid
    = rejoin (L.map stripKid) (strip h u) (R.map stripKid) := by
  unfold rejoin
  rw [nodeSize_strip]
  split
  · exact strip_remain L R u
  · rw [List.getLast?_map]
    cases L.getLast? with
    | none => exact strip_joinRight L R u
    | some kl =>
        simp only [Option.map_some]
        rw [show (stripKid kl).2 = strip h kl.2 from rfl, nodeSize_strip_append]
        split
        · rw [List.map_append, List.map_cons, stripKid, strip_append, List.map_dropLast]
        · exact strip_joinRight L R u

theorem nodeSize_rejoin_strip :
    nodeSize (entries (h + 1) (ofKids (rejoin (L.map stripKid) (strip h u) (R.map stripKid))))
      = nodeSize (entries (h + 1) (ofKids (rejoin L u R))) := by
  rw [← strip_rejoin, ← strip_kids, nodeSize_strip]

end Strip

-- ============================================================ rows

theorem firstKey_append {es : List Entry} (fs : List Entry) (hne : es ≠ []) :
    firstKey (es ++ fs) = firstKey es := by
  cases es with
  | nil => exact absurd rfl hne
  | cons e es => rfl

section Rows

variable {L R : List (Ptr × Tree h)} {u : Tree h} {Q : Bytes → Prop}

theorem length_rejoin_le : (rejoin L u R).length ≤ L.length + 1 + R.length := by
  have hstay : ∀ R', (remain L u R').length ≤ L.length + 1 + R'.length := by
    intro R'
    unfold remain
    split
    · exact Nat.zero_le _
    · rw [List.length_append, List.length_cons]
      omega
  have hright : (joinRight L u R).length ≤ L.length + 1 + R.length := by
    cases R with
    | nil => exact hstay []
    | cons kr R =>
        rw [joinRight]
        split
        · rw [List.length_append, List.length_cons, List.length_cons]
          omega
        · exact hstay (kr :: R)
  unfold rejoin
  split
  · exact hstay R
  · split
    · exact hright
    · split
      · rw [List.length_append, List.length_cons, List.length_dropLast]
        omega
      · exact hright

/-- The separators after a deletion are separators from before, or the
first key of the new node. -/
theorem forall_rejoin (hne : ∀ k ∈ L, entries h k.2 ≠ [])
    (hL : ∀ k ∈ L, Q (firstKey (entries h k.2))) (hR : ∀ k ∈ R, Q (firstKey (entries h k.2)))
    (hu : entries h u ≠ [] → Q (firstKey (entries h u))) :
    ∀ k ∈ rejoin L u R, Q (firstKey (entries h k.2)) := by
  have hstay : ∀ k ∈ remain L u R, Q (firstKey (entries h k.2)) := by
    unfold remain
    split
    · exact fun k hk => absurd hk List.not_mem_nil
    · next hnil =>
      exact List.forall_mem_append.mpr ⟨hL, List.forall_mem_cons.mpr ⟨hu hnil, hR⟩⟩
  have hright : ∀ k ∈ joinRight L u R, Q (firstKey (entries h k.2)) := by
    cases R with
    | nil => exact hstay
    | cons kr R =>
        rw [joinRight]
        split
        · refine List.forall_mem_append.mpr ⟨hL, List.forall_mem_cons.mpr ⟨?_, ?_⟩⟩
          · rw [entries_append]
            by_cases hnil : entries h u = []
            · rw [hnil, List.nil_append]
              exact hR kr (List.mem_cons_self ..)
            · rw [firstKey_append _ hnil]
              exact hu hnil
          · exact fun k hk => hR k (List.mem_cons_of_mem _ hk)
        · exact hstay
  unfold rejoin
  split
  · exact hstay
  · split
    · exact hright
    · next kl hkl =>
      have hmem : kl ∈ L := List.mem_of_getLast? hkl
      split
      · refine List.forall_mem_append.mpr ⟨?_, List.forall_mem_cons.mpr ⟨?_, hR⟩⟩
        · exact fun k hk => hL k ((List.dropLast_sublist L).mem hk)
        · rw [entries_append, firstKey_append _ (hne kl hmem)]
          exact hL kl hmem
      · exact hright

end Rows

/-- Taking a row out never makes a node too large. -/
theorem shrink_rows (key : Bytes) : ∀ {h : Nat} {t : Tree h}, RowPage (entries h t) →
    Good RowPage h t → Rows (flat h t) →
    ∃ t', shrink key h t = some t'
      ∧ (entries h t' ≠ [] → (firstKey (entries h t')).length = 13)
  | 0, kvs, _, _, hr => by
      refine ⟨del key kvs, rfl, fun hne => ?_⟩
      exact firstKey_length (h := 0) trivial hne fun kv hkv => hr kv (mem_of_mem_del hkv)
  | h + 1, kids, hpage, hg, hr => by
      have hnarrow : ∀ k : Ptr × Tree h, k ∈ (show List (Ptr × Tree h) from kids) →
          (firstKey (entries h k.2)).length = 13 := fun k hk =>
        firstKey_length (hg k hk).2 (hg k hk).1.1 (Rows.flat_kid hr hk)
      have hne : (show List (Ptr × Tree h) from kids) ≠ [] := fun hnil =>
        hpage.1 (List.map_eq_nil_iff.mpr hnil)
      obtain ⟨L, k, R, rfl, hseat⟩ := exists_seat key hne
      have hmem : k ∈ L ++ k :: R := List.mem_append_cons_self
      obtain ⟨u, hu, hfirst⟩ := shrink_rows key (hg k hmem).1 (hg k hmem).2
        (Rows.flat_kid hr hmem)
      have hL : ∀ k' ∈ L, k' ∈ L ++ k :: R := fun k' hk' => List.mem_append_left _ hk'
      have hR : ∀ k' ∈ R, k' ∈ L ++ k :: R := fun k' hk' =>
        List.mem_append_right _ (List.mem_cons_of_mem _ hk')
      have hnarrow' := forall_rejoin (u := u) (Q := fun b => b.length = 13)
        (fun k' hk' => (hg k' (hL k' hk')).1.1) (fun k' hk' => hnarrow k' (hL k' hk'))
        (fun k' hk' => hnarrow k' (hR k' hk')) hfirst
      have hfit : nodeSize (entries (h + 1) (ofKids (rejoin L u R))) ≤ btreePageSize := by
        have hcount := length_rejoin_le (L := L) (u := u) (R := R)
        have hold := hpage.2
        rw [nodeSize_narrow hnarrow, List.length_append, List.length_cons] at hold
        rw [nodeSize_narrow hnarrow']
        omega
      refine ⟨_, by rw [shrink_node hseat, hu, Option.bind_some, if_pos hfit], ?_⟩
      intro hne
      cases hkids : rejoin L u R with
      | nil => exact absurd (congrArg (List.map kidEntry) hkids) hne
      | cons k' rest => exact hnarrow' k' (by rw [hkids]; exact List.mem_cons_self ..)

end Svacara.Btree
