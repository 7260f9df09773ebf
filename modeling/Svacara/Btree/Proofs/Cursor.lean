/-
The path of an iterator.

`Next` climbs the path to the deepest node that has a kid left, replaces
the entry right behind it and appends the rest of the way down to a
leaf. It never drops what lay behind the replaced entry, so in a tree of
three or more levels the path is not a root-to-leaf path for long.

`Cursor` describes the paths that do occur: between a node and its kid
there may be stale entries, but every stale entry has no kid left, so a
climb passes over it (`Moves`). One place cannot cope with stale
entries: when a leaf's parent has a kid left and stale entries behind
it, the next leaf is written over a stale entry and the last entry, an
exhausted leaf, is visited again. `Cursor` carries the proposition that
this will not happen further on, and a step keeps it (`Cursor.step`).

On which trees it is true from the start is said by `Thin`: a parent of
leaves that is entered over a carry, that is one above `s` which is not
the first kid of its own parent, must have one kid only.
-/
import Svacara.Btree.Iterator
import Svacara.Btree.Proofs.Kids

namespace Svacara.Btree

open Outcome SortedMap

-- ======================================================== the tree

/-- Every parent of leaves that starts above `s` and is not the first kid
of its own parent has one kid. -/
def Thin (s : Bytes) : (h : Nat) → Tree h → Prop
  | 0, _ => True
  | h + 1, kids =>
      (∀ k : Ptr × Tree h, k ∈ (show List (Ptr × Tree h) from kids) → Thin s h k.2)
        ∧ (h = 1 → ∀ k : Ptr × Tree h,
          k ∈ (show List (Ptr × Tree h) from kids).tail →
            s < firstKey (entries h k.2) → (entries h k.2).length = 1)

-- ======================================================== one move

/-- No kid or pair is left behind the position. -/
def Exhausted (e : BNode × Nat) : Prop :=
  ∃ n, nkeys e.1 = .ok n ∧ ¬ u16 (e.2 + 1) < n

/-- One is. -/
structure Ready (e : BNode × Nat) (n : Nat) : Prop where
  count : nkeys e.1 = .ok n
  lt : e.2 + 1 < n
  small : n < 65536

theorem Ready.u16_eq {e : BNode × Nat} {n : Nat} (h : Ready e n) :
    u16 (e.2 + 1) = e.2 + 1 :=
  u16_of_lt (Nat.lt_trans h.lt h.small)

section Moves

variable {kid : BNode → Nat → Except Fault BNode} {fuel : Nat}

/-- How `Next` changes a path. -/
inductive Moves (kid : BNode → Nat → Except Fault BNode) (fuel : Nat) :
    List (BNode × Nat) → List (BNode × Nat) → Prop
  /-- to the next pair of the leaf -/
  | inside {A : List (BNode × Nat)} {leaf : BNode} {pos n : Nat}
      (hready : Ready (leaf, pos) n) :
      Moves kid fuel (A ++ [(leaf, pos)]) (A ++ [(leaf, pos + 1)])
  /-- to the next kid of an inner node -/
  | carry {A B D : List (BNode × Nat)} {b : BNode × Nat} {node child : BNode}
      {pos n : Nat} (hready : Ready (node, pos) n)
      (hbehind : ∀ e ∈ b :: B, Exhausted e) (hkid : kid node (pos + 1) = .ok child)
      (hdown : ∀ path, descend kid fuel child path = .ok ⟨path ++ D⟩) :
      Moves kid fuel (A ++ (node, pos) :: b :: B)
        (A ++ (node, pos + 1) :: (child, 0) :: (B ++ D))

/-- What lies before the change does not matter. -/
theorem Moves.under (X : List (BNode × Nat)) {path path' : List (BNode × Nat)}
    (h : Moves kid fuel path path') : Moves kid fuel (X ++ path) (X ++ path') := by
  cases h with
  | inside hready =>
      rw [← List.append_assoc, ← List.append_assoc]
      exact .inside hready
  | carry hready hbehind hkid hdown =>
      rw [← List.append_assoc, ← List.append_assoc]
      exact .carry hready hbehind hkid hdown

/-- A climb passes over exhausted entries. -/
theorem climb_skip {path : List (BNode × Nat)} (low : Nat) :
    ∀ level, low ≤ level → level ≤ path.length →
      (∀ e ∈ path.drop low, Exhausted e) →
      climb kid fuel path level = climb kid fuel path low := by
  intro level
  induction level with
  | zero =>
      intro hlow _ _
      rw [Nat.le_zero.mp hlow]
  | succ level ih =>
      intro hlow hle hex
      rcases Nat.lt_or_eq_of_le hlow with hlt | rfl
      · have hat : path[level]? = some path[level] := List.getElem?_eq_getElem hle
        have hmem : path[level] ∈ path.drop low := by
          refine List.mem_of_getElem? (i := level - low) ?_
          rw [List.getElem?_drop, Nat.add_sub_cancel' (Nat.lt_succ_iff.mp hlt)]
          exact hat
        obtain ⟨n, hn, hnot⟩ := hex _ hmem
        rw [climb, hat]
        dsimp only
        rw [hn, ok_bind, if_neg hnot]
        exact ih (Nat.lt_succ_iff.mp hlt) (Nat.le_of_succ_le hle) hex
      · rfl

/-- The last entry of a path decides what `Next` does first. -/
theorem next_exhausted {path : List (BNode × Nat)} {e : BNode × Nat}
    (hlast : path.getLast? = some e) (hex : Exhausted e) :
    BIter.next kid fuel ⟨path⟩ = climb kid fuel path (path.length - 1) := by
  obtain ⟨n, hn, hnot⟩ := hex
  unfold BIter.next
  rw [hlast]
  dsimp only
  rw [hn, ok_bind, if_neg hnot]

theorem Moves.next {path path' : List (BNode × Nat)} (h : Moves kid fuel path path') :
    BIter.next kid fuel ⟨path⟩ = .ok ⟨path'⟩ := by
  cases h with
  | @inside A leaf pos n hready =>
      have hcount : nkeys leaf = .ok n := hready.count
      have hpos : u16 (pos + 1) = pos + 1 := hready.u16_eq
      unfold BIter.next setAt
      rw [List.getLast?_append_of_ne_nil _ (List.cons_ne_nil _ _)]
      simp only [List.getLast?_singleton, hcount, ok_bind, hpos]
      rw [if_pos hready.lt, if_pos (by simp)]
      simp
  | @carry A B D b node child pos n hready hbehind hkid hdown =>
      have hcount : nkeys node = .ok n := hready.count
      have hpos : u16 (pos + 1) = pos + 1 := hready.u16_eq
      obtain ⟨last, hlast⟩ : ∃ last, (b :: B).getLast? = some last :=
        ⟨_, List.getLast?_eq_some_getLast (List.cons_ne_nil _ _)⟩
      have hpath : (A ++ (node, pos) :: b :: B).getLast? = some last := by
        rw [List.getLast?_append_of_ne_nil _ (List.cons_ne_nil _ _),
          List.getLast?_cons_cons]
        exact hlast
      have hdrop : (A ++ (node, pos) :: b :: B).drop (A.length + 1) = b :: B := by
        rw [← List.drop_drop, List.drop_left]
        rfl
      rw [next_exhausted hpath (hbehind last (List.mem_of_getLast? hlast)),
        climb_skip (A.length + 1) _ (by simp) (by simp) (by
          rw [hdrop]
          exact hbehind)]
      rw [climb]
      unfold setAt
      rw [List.getElem?_append_right (Nat.le_refl _), Nat.sub_self,
        List.getElem?_cons_zero]
      simp only [hcount, ok_bind, hpos]
      rw [if_pos hready.lt, if_pos (by simp), ok_bind, hkid, ok_bind,
        if_pos (by simp), ok_bind, hdown]
      simp [List.set_append_right]

/-- When every entry is exhausted the path is emptied. -/
theorem next_end {path : List (BNode × Nat)} (hne : path ≠ [])
    (hex : ∀ e ∈ path, Exhausted e) : BIter.next kid fuel ⟨path⟩ = .ok ⟨[]⟩ := by
  have hlast : path.getLast? = some (path.getLast hne) :=
    List.getLast?_eq_some_getLast hne
  rw [next_exhausted hlast (hex _ (List.getLast_mem hne)),
    climb_skip 0 _ (Nat.zero_le _) (Nat.sub_le _ _) hex, climb]

end Moves

-- ====================================================== the cursor

/-- A subtree that can be entered over a carry. -/
def Carried (s : Bytes) (h : Nat) (t : Tree h) : Prop :=
  Thin s h t ∧ (h = 1 → (entries h t).length = 1)

/-- The path stands on the pair `kv` of the tree, with the pairs `tl`
still to come, all of them above `s` but for those of the leaf it is in;
`clear` says that the way through them is right. -/
inductive Cursor (s : Bytes) : (h : Nat) → Tree h → List (BNode × Nat) →
    Bytes × Bytes → List (Bytes × Bytes) → Prop → Prop
  | leaf {node : BNode} {L R : List (Bytes × Bytes)} {kv : Bytes × Bytes}
      (henc : Encodes node bnodeLeaf (entries 0 (L ++ kv :: R))) :
      Cursor s 0 (L ++ kv :: R) [(node, L.length)] kv R True
  | node {h : Nat} {node : BNode} {L R : List (Ptr × Tree h)} {k : Ptr × Tree h}
      {stale sub : List (BNode × Nat)} {kv : Bytes × Bytes}
      {tl : List (Bytes × Bytes)} {clear : Prop}
      (henc : Encodes node bnodeInternal (entries (h + 1) (ofKids (L ++ k :: R))))
      (hstale : ∀ e ∈ stale, Exhausted e)
      (habove : AllGt s (flat (h + 1) (ofKids R)))
      (hsub : Cursor s h k.2 sub kv tl clear) :
      Cursor s (h + 1) (ofKids (L ++ k :: R)) ((node, L.length) :: (stale ++ sub)) kv
        (tl ++ flat (h + 1) (ofKids R))
        (clear ∧ (h = 0 → stale = [] ∨ R = []) ∧ ∀ k' ∈ R, Carried s h k'.2)

theorem no_stale : ∀ e ∈ ([] : List (BNode × Nat)), Exhausted e :=
  fun _ he => absurd he List.not_mem_nil

variable {s : Bytes} {h : Nat} {t : Tree h} {path : List (BNode × Nat)}
  {kv : Bytes × Bytes} {tl : List (Bytes × Bytes)} {clear : Prop}

/-- The iterator's accessors at a pair. -/
structure OnPair (path : List (BNode × Nat)) (kv : Bytes × Bytes) : Prop where
  valid : BIter.valid ⟨path⟩ = .ok true
  key : BIter.key ⟨path⟩ = .ok kv.1
  val : BIter.val ⟨path⟩ = .ok kv.2

/-- They look at the last entry only. -/
theorem OnPair.of_last {path' : List (BNode × Nat)} (h : OnPair path kv)
    (hlast : path'.getLast? = path.getLast?) : OnPair path' kv where
  valid := by
    rw [← h.valid]
    unfold BIter.valid
    rw [hlast]
  key := by
    rw [← h.key]
    unfold BIter.key
    rw [hlast]
  val := by
    rw [← h.val]
    unfold BIter.val
    rw [hlast]

theorem Cursor.path_ne (hcur : Cursor s h t path kv tl clear) : path ≠ [] := by
  cases hcur with
  | leaf _ => exact List.cons_ne_nil _ _
  | node _ _ _ _ => exact List.cons_ne_nil _ _

theorem Cursor.onPair (hcur : Cursor s h t path kv tl clear) : OnPair path kv := by
  induction hcur with
  | @leaf node L R kv henc =>
      have hat := getElem?_entries_around L kv R
      have hlt := (List.getElem?_eq_some_iff.mp hat).1
      refine ⟨?_, Holds.getKey henc hat, Holds.getVal henc hat⟩
      unfold BIter.valid
      rw [List.getLast?_singleton]
      simp only [henc.nkeys, ok_bind, pure_eq_ok, decide_eq_true hlt]
  | node _ _ _ hsub ih =>
      refine ih.of_last ?_
      rw [List.getLast?_cons, List.getLast?_append_of_ne_nil _ hsub.path_ne]
      obtain ⟨e, he⟩ := Option.ne_none_iff_exists'.mp
        (mt List.getLast?_eq_none_iff.mp hsub.path_ne)
      rw [he]
      rfl

/-- The last entry of a node is exhausted. -/
theorem exhausted_of_last {node : BNode} {ty : Nat} {es fs : List Entry} {e : Entry}
    (henc : Encodes node ty (es ++ e :: fs)) (hfs : fs = []) :
    Exhausted (node, es.length) := by
  subst hfs
  refine ⟨_, henc.nkeys, ?_⟩
  have hlt := henc.length_lt
  rw [List.length_append, List.length_singleton] at hlt ⊢
  rw [u16_of_lt hlt]
  exact Nat.lt_irrefl _

/-- An entry that is not the last is followed by another. -/
theorem ready_of_more {node : BNode} {ty : Nat} {es fs : List Entry} {e f : Entry}
    (henc : Encodes node ty (es ++ e :: f :: fs)) :
    Ready (node, es.length) (es ++ e :: f :: fs).length where
  count := henc.nkeys
  lt := by
    rw [List.length_append, List.length_cons, List.length_cons]
    omega
  small := henc.length_lt

theorem entries_kids_around (L : List (Ptr × Tree h)) (k : Ptr × Tree h)
    (R : List (Ptr × Tree h)) :
    entries (h + 1) (ofKids (L ++ k :: R))
      = L.map kidEntry ++ kidEntry k :: R.map kidEntry := by
  rw [entries_ofKids, List.map_append, List.map_cons]

/-- Without a non-empty kid there is no pair. -/
theorem kids_eq_nil {P : List Entry → Prop} (hP : ∀ es, P es → es ≠ [])
    {kids : List (Ptr × Tree h)} (hg : Good P (h + 1) (ofKids kids))
    (hnil : flat (h + 1) (ofKids kids) = []) : kids = [] := by
  cases kids with
  | nil => rfl
  | cons k ks =>
      obtain ⟨hk, hgk⟩ := hg k (List.mem_cons_self ..)
      rw [flat_ofKids, List.flatMap_cons] at hnil
      exact absurd (List.append_eq_nil_iff.mp hnil).1 (flat_ne_nil hP hgk (hP _ hk))

theorem Good.kid {P : List Entry → Prop} {L R : List (Ptr × Tree h)} {k : Ptr × Tree h}
    (hg : Good P (h + 1) (ofKids (L ++ k :: R))) :
    Good P h k.2 ∧ Good P (h + 1) (ofKids R) :=
  ⟨(hg k List.mem_append_cons_self).2,
    fun k' hk' => hg k' (List.mem_append_right _ (List.mem_cons_of_mem _ hk'))⟩

/-- On the last pair every entry is exhausted. -/
theorem Cursor.last (hcur : Cursor s h t path kv tl clear) :
    Good (· ≠ []) h t → tl = [] → clear ∧ ∀ e ∈ path, Exhausted e := by
  induction hcur with
  | @leaf node L R kv henc =>
      intro _ htl
      rw [entries_around] at henc
      have hex := exhausted_of_last henc (by rw [htl]; rfl)
      rw [show (entries 0 L).length = L.length from List.length_map ..] at hex
      exact ⟨trivial, List.forall_mem_singleton.mpr hex⟩
  | @node h node L R k stale sub kv tl clear henc hstale _ _ ih =>
      intro hg htl
      obtain ⟨htl, hflat⟩ := List.append_eq_nil_iff.mp htl
      obtain ⟨hgk, hgR⟩ := Good.kid hg
      obtain ⟨hclear, hex⟩ := ih hgk htl
      obtain rfl := kids_eq_nil (fun _ h => h) hgR hflat
      rw [entries_kids_around] at henc
      have hnode := exhausted_of_last henc rfl
      rw [List.length_map] at hnode
      refine ⟨⟨hclear, fun _ => Or.inr rfl, fun _ hk => absurd hk List.not_mem_nil⟩, ?_⟩
      intro e he
      rcases List.mem_cons.mp he with rfl | he
      · exact hnode
      · rcases List.mem_append.mp he with he | he
        · exact hstale e he
        · exact hex e he

-- ====================================================== thin trees

/-- A non-empty node above `s` starts above `s`. -/
theorem lt_firstKey (hg : Good (· ≠ []) h t) (hne : entries h t ≠ [])
    (habove : AllGt s (flat h t)) : s < firstKey (entries h t) := by
  obtain ⟨e, he, hkey⟩ := firstKey_mem (fun _ h => h) hg hne
  rw [hkey]
  exact habove e he

/-- Below `s` a tree may have any shape. -/
theorem thin_of_below : ∀ {h : Nat} {t : Tree h}, Good (· ≠ []) h t →
    AllLt (flat h t) s → Thin s h t := by
  intro h
  induction h with
  | zero => exact fun _ _ => trivial
  | succ h ih =>
      intro t hg hbelow
      have hkid : ∀ k : Ptr × Tree h, k ∈ (show List (Ptr × Tree h) from t) →
          AllLt (flat h k.2) s := fun k hk e he =>
        hbelow e (List.mem_flatMap.mpr ⟨k, hk, he⟩)
      refine ⟨fun k hk => ih (hg k hk).2 (hkid k hk), ?_⟩
      intro _ k hk hlt
      have hk' := List.mem_of_mem_tail hk
      obtain ⟨e, he, hkey⟩ := firstKey_mem (fun _ h => h) (hg k hk').2 (hg k hk').1
      rw [hkey] at hlt
      exact absurd hlt (not_lt.mpr (hkid k hk' e he).le)

/-- Around the kid in which the search for `s` goes on, the kids to the
right decide. -/
theorem thin_around {L R : List (Ptr × Tree h)} {k : Ptr × Tree h}
    (hg : Good (· ≠ []) (h + 1) (ofKids (L ++ k :: R)))
    (hbelow : AllLt (flat (h + 1) (ofKids L)) s)
    (hk : L = [] ∨ firstKey (entries h k.2) ≤ s)
    (habove : AllGt s (flat (h + 1) (ofKids R))) :
    Thin s (h + 1) (ofKids (L ++ k :: R))
      ↔ Thin s h k.2 ∧ ∀ k' ∈ R, Carried s h k'.2 := by
  have hgR := (Good.kid hg).2
  have hlt : ∀ k' ∈ R, s < firstKey (entries h k'.2) := fun k' hk' =>
    lt_firstKey (hgR k' hk').2 (hgR k' hk').1
      fun e he => habove e (List.mem_flatMap.mpr ⟨k', hk', he⟩)
  constructor
  · intro ⟨hall, htail⟩
    refine ⟨hall k List.mem_append_cons_self, fun k' hk' => ⟨?_, fun h1 => ?_⟩⟩
    · exact hall k' (List.mem_append_right _ (List.mem_cons_of_mem _ hk'))
    · refine htail h1 k' ?_ (hlt k' hk')
      cases L with
      | nil => exact hk'
      | cons a L => exact List.mem_append_right _ (List.mem_cons_of_mem _ hk')
  · intro ⟨hthin, hR⟩
    have hL : ∀ k' ∈ L, AllLt (flat h k'.2) s := fun k' hk' e he =>
      hbelow e (List.mem_flatMap.mpr ⟨k', hk', he⟩)
    refine ⟨fun k' hk' => ?_, fun h1 k' hk' hlt' => ?_⟩
    · rcases List.mem_append.mp hk' with hk' | hk'
      · exact thin_of_below (hg k' (List.mem_append_left _ hk')).2 (hL k' hk')
      · rcases List.mem_cons.mp hk' with rfl | hk'
        · exact hthin
        · exact (hR k' hk').1
    · cases L with
      | nil => exact (hR k' hk').2 h1
      | cons a L =>
          rcases List.mem_append.mp hk' with hk' | hk'
          · have hmem := List.mem_cons_of_mem a hk'
            obtain ⟨hne, hgk⟩ := hg k' (List.mem_append_left _ hmem)
            obtain ⟨e, he, hkey⟩ := firstKey_mem (fun _ h => h) hgk hne
            rw [hkey] at hlt'
            exact absurd hlt' (not_lt.mpr (hL k' hmem e he).le)
          · rcases List.mem_cons.mp hk' with rfl | hk'
            · rcases hk with hk | hk
              · cases hk
              · exact absurd hlt' (not_lt.mpr hk)
            · exact (hR k' hk').2 h1

-- ===================================================== the descent

/-- `kid` follows the pointers of internal nodes to the pages of `m`. -/
def Reads (kid : BNode → Nat → Except Fault BNode) (m : Ptr → Option BNode) : Prop :=
  ∀ (h : Nat) (node child : BNode) (L R : List (Ptr × Tree h)) (k : Ptr × Tree h),
    Encodes node bnodeInternal (entries (h + 1) (ofKids (L ++ k :: R))) →
    m k.1 = some child → kid node L.length = .ok child

section Ops

variable {σ : Type} {refusal : Fault} {ops : PageOps σ} {live : σ → Ptr → Option BNode}

theorem kidOf_reads (hl : Lawful refusal ops live) (x : σ) : Reads (kidOf ops x) (live x) := by
  intro h node child L R k henc hchild
  unfold kidOf
  rw [getPtr_kid henc, ok_bind, hl.getPage _ _ _ hchild]

theorem innerKidOf_reads (hl : Lawful refusal ops live) (x : σ) :
    Reads (innerKidOf ops x) (live x) := by
  intro h node child L R k henc hchild
  unfold innerKidOf
  rw [Holds.btype henc, ok_bind, if_neg (by decide)]
  exact kidOf_reads hl x h node child L R k henc hchild

end Ops

section Walk

variable {kid : BNode → Nat → Except Fault BNode} {m : Ptr → Option BNode} {fuel : Nat}

theorem descend_leaf {child : BNode} {es : List Entry} (henc : Encodes child bnodeLeaf es)
    (hfuel : 0 < fuel) (path : List (BNode × Nat)) :
    descend kid fuel child path = .ok ⟨path ++ []⟩ := by
  obtain ⟨fuel, rfl⟩ := exists_fuel hfuel
  rw [descend, Holds.btype henc, ok_bind, if_neg (by decide), pure_eq_ok,
    List.append_nil]

theorem descend_node {child first : BNode} {es : List Entry} {D : List (BNode × Nat)}
    (henc : Encodes child bnodeInternal es) (hkid : kid child 0 = .ok first)
    (hdown : ∀ path, descend kid fuel first path = .ok ⟨path ++ D⟩)
    (path : List (BNode × Nat)) :
    descend kid (fuel + 1) child path = .ok ⟨path ++ (first, 0) :: D⟩ := by
  rw [descend, Holds.btype henc, ok_bind, if_pos rfl, hkid, ok_bind, hdown,
    List.append_assoc, List.singleton_append]

/-- The way down the first kids is a path without stale entries. The
induction is on the height. -/
theorem descend_cursor (hreads : Reads kid m) :
    ∀ (h fuel : Nat) (t : Tree h) (child : BNode), h < fuel →
      Encodes child (nodeType h) (entries h t) → entries h t ≠ [] → Stored m h t →
      Good (· ≠ []) h t → AllGt s (flat h t) →
      ∃ D kv tl clear, (∀ path, descend kid fuel child path = .ok ⟨path ++ D⟩)
        ∧ Cursor s h t ((child, 0) :: D) kv tl clear ∧ flat h t = kv :: tl
        ∧ (clear ↔ Thin s h t) := by
  intro h
  induction h with
  | zero =>
      intro fuel t child hfuel henc hne _ _ _
      cases t with
      | nil => exact absurd rfl hne
      | cons kv tl =>
          exact ⟨[], kv, tl, True, descend_leaf henc hfuel, .leaf (L := []) henc, rfl,
            Iff.rfl⟩
  | succ h ih =>
      intro fuel t child hfuel henc hne hst hg habove
      obtain ⟨fuel, rfl⟩ := exists_fuel hfuel
      cases t with
      | nil => exact absurd rfl hne
      | cons k R =>
          obtain ⟨⟨first, hfirst, hencf⟩, hstk⟩ := hst k (List.mem_cons_self ..)
          obtain ⟨hnek, hgk⟩ := hg k (List.mem_cons_self ..)
          have hflat : flat (h + 1) (ofKids (k :: R))
              = flat h k.2 ++ flat (h + 1) (ofKids R) := rfl
          obtain ⟨D, kv, tl, clear, hdown, hcur, hkv, hclear⟩ := ih fuel k.2 first
            (Nat.lt_of_succ_lt_succ hfuel) hencf hnek hstk hgk
            fun e he => habove e (List.mem_append_left _ he)
          have habove' : AllGt s (flat (h + 1) (ofKids R)) := fun e he =>
            habove e (List.mem_append_right _ he)
          have hkid : kid child 0 = .ok first := hreads h child first [] R k henc hfirst
          refine ⟨(first, 0) :: D, kv, tl ++ flat (h + 1) (ofKids R), _,
            descend_node henc hkid hdown,
            .node (L := []) henc no_stale habove' hcur, ?_, ?_⟩
          · rw [← List.cons_append, ← hkv]
            exact hflat
          · have hthin := thin_around (L := []) (k := k) (R := R) hg
              (fun _ he => absurd he List.not_mem_nil) (Or.inl rfl) habove'
            refine Iff.trans ?_ hthin.symm
            simp [hclear]

-- ======================================================== one step

theorem Cursor.leaf_path {t : Tree 0} (hcur : Cursor s 0 t path kv tl clear) :
    ∃ e, path = [e] := by
  cases hcur with
  | leaf _ => exact ⟨_, rfl⟩

theorem Cursor.node_path {t : Tree (h + 1)} (hcur : Cursor s (h + 1) t path kv tl clear) :
    2 ≤ path.length := by
  cases hcur with
  | node _ _ _ hsub =>
      have := List.length_pos_iff.mpr hsub.path_ne
      rw [List.length_cons, List.length_append]
      omega

/-- What a step from a path does: it goes on to the next pair, and what
is said about the way from there is what was said before; or it stays on
the last entry, and the way was not clear. -/
def Steps (kid : BNode → Nat → Except Fault BNode) (fuel : Nat) (s : Bytes) (h : Nat)
    (t : Tree h) (path : List (BNode × Nat)) (clear : Prop) (kv' : Bytes × Bytes)
    (rest : List (Bytes × Bytes)) : Prop :=
  (∃ path' clear', Moves kid fuel path path' ∧ Cursor s h t path' kv' rest clear'
    ∧ (clear ↔ clear'))
  ∨ (¬ clear ∧ ∃ path', Moves kid fuel path path' ∧ path'.getLast? = path.getLast?)

section Carry

variable {node child : BNode} {L R : List (Ptr × Tree h)} {k k' : Ptr × Tree h}
  {stale sub : List (BNode × Nat)} {kv' : Bytes × Bytes} {rest : List (Bytes × Bytes)}

/-- The entry of a node moves from one kid to the next. -/
theorem ready_kid
    (henc : Encodes node bnodeInternal (entries (h + 1) (ofKids (L ++ k :: k' :: R)))) :
    ∃ n, Ready (node, L.length) n := by
  rw [entries_kids_around, List.map_cons] at henc
  have hready := ready_of_more henc
  rw [List.length_map] at hready
  exact ⟨_, hready⟩

theorem kids_shift (L R : List (Ptr × Tree h)) (k k' : Ptr × Tree h) :
    L ++ k :: k' :: R = (L ++ [k]) ++ k' :: R := by
  rw [List.append_assoc, List.singleton_append]

/-- The step of a leaf's parent to its next kid. -/
theorem carry_leaf {L R : List (Ptr × Tree 0)} {k k' : Ptr × Tree 0}
    (henc : Encodes node bnodeInternal (entries 1 (ofKids (L ++ k :: k' :: R))))
    (hkid : kid node (L.length + 1) = .ok child)
    (hchild : Encodes child bnodeLeaf (entries 0 k'.2)) (hfuel : 0 < fuel)
    (hstale : ∀ e ∈ stale, Exhausted e) (hsub : Cursor s 0 k.2 sub kv [] clear)
    (hclear : clear) (hex : ∀ e ∈ sub, Exhausted e)
    (habove : AllGt s (flat 1 (ofKids (k' :: R))))
    (hrest : flat 0 k'.2 = kv' :: rest) :
    Steps kid fuel s 1 (ofKids (L ++ k :: k' :: R)) ((node, L.length) :: (stale ++ sub))
      (clear ∧ ((0 : Nat) = 0 → stale = [] ∨ k' :: R = []) ∧ ∀ k'' ∈ k' :: R, Carried s 0 k''.2)
      kv' (rest ++ flat 1 (ofKids R)) := by
  obtain ⟨n, hready⟩ := ready_kid henc
  obtain ⟨e, rfl⟩ := hsub.leaf_path
  have hdown : ∀ path, descend kid fuel child path = .ok ⟨path ++ []⟩ :=
    descend_leaf hchild hfuel
  cases stale with
  | nil =>
      left
      have hleaf : Cursor s 0 k'.2 [(child, 0)] kv' rest True := by
        obtain ⟨p, kvs⟩ := k'
        obtain rfl : kvs = kv' :: rest := hrest
        exact .leaf (L := []) hchild
      rw [kids_shift] at henc
      have hcur := Cursor.node henc no_stale
        (fun e he => habove e (List.mem_append_right _ he)) hleaf
      rw [List.length_append, List.length_singleton, ← kids_shift] at hcur
      refine ⟨_, _, .carry (A := []) hready hex hkid hdown, hcur, ?_⟩
      simp [hclear, Carried, Thin]
  | cons x xs =>
      -- the next leaf is written over `x`, and `e` stays the last entry
      right
      have hbehind : ∀ y ∈ x :: (xs ++ [e]), Exhausted y := by
        intro y hy
        rcases List.mem_append.mp (show y ∈ (x :: xs) ++ [e] from hy) with hy | hy
        · exact hstale y hy
        · exact hex y hy
      refine ⟨fun h => ?_, _, .carry (A := []) hready hbehind hkid hdown, ?_⟩
      · rcases h.2.1 rfl with h | h <;> cases h
      · simp [List.getLast?_cons, List.getLast?_append]

/-- The step of a higher node to its next kid: what was behind it is
stale from now on. -/
theorem carry_node {L R : List (Ptr × Tree (h + 1))} {k k' : Ptr × Tree (h + 1)}
    (hreads : Reads kid m) (hfuel : h + 1 < fuel)
    (henc : Encodes node bnodeInternal (entries (h + 2) (ofKids (L ++ k :: k' :: R))))
    (hkid : kid node (L.length + 1) = .ok child)
    (hchild : Encodes child bnodeInternal (entries (h + 1) k'.2))
    (hst : Stored m (h + 1) k'.2) (hg : Good (· ≠ []) (h + 1) k'.2)
    (hne : entries (h + 1) k'.2 ≠ [])
    (hstale : ∀ e ∈ stale, Exhausted e) (hsub : Cursor s (h + 1) k.2 sub kv [] clear)
    (hclear : clear) (hex : ∀ e ∈ sub, Exhausted e)
    (habove : AllGt s (flat (h + 2) (ofKids (k' :: R))))
    (hrest : flat (h + 1) k'.2 = kv' :: rest) :
    Steps kid fuel s (h + 2) (ofKids (L ++ k :: k' :: R))
      ((node, L.length) :: (stale ++ sub))
      (clear ∧ (h + 1 = 0 → stale = [] ∨ k' :: R = [])
        ∧ ∀ k'' ∈ k' :: R, Carried s (h + 1) k''.2)
      kv' (rest ++ flat (h + 2) (ofKids R)) := by
  obtain ⟨n, hready⟩ := ready_kid henc
  obtain ⟨fuel, rfl⟩ := exists_fuel hfuel
  have hbehind : ∀ e ∈ stale ++ sub, Exhausted e := by
    intro e he
    rcases List.mem_append.mp he with he | he
    · exact hstale e he
    · exact hex e he
  have hlen : 2 ≤ (stale ++ sub).length := by
    have := hsub.node_path
    rw [List.length_append]
    omega
  match hsplit : stale ++ sub, hbehind, hlen with
  | b :: B, hbehind, hlen =>
  have hB : B ≠ [] := List.ne_nil_of_length_pos (by
    rw [List.length_cons] at hlen
    omega)
  obtain ⟨p, kids⟩ := k'
  cases kids with
  | nil => exact absurd rfl hne
  | cons k₀ R₀ =>
  have habove₀ : AllGt s (flat (h + 1) (ofKids (k₀ :: R₀))) := fun e he =>
    habove e (List.mem_append_left _ he)
  obtain ⟨⟨first, hfirst, hencf⟩, hst₀⟩ := hst k₀ (List.mem_cons_self ..)
  obtain ⟨hne₀, hg₀⟩ := hg k₀ (List.mem_cons_self ..)
  obtain ⟨D, kv₀, tl₀, clear₀, hdown, hcur₀, hkv₀, hclear₀⟩ := descend_cursor hreads h fuel
    k₀.2 first (Nat.lt_of_succ_lt_succ hfuel) hencf hne₀ hst₀ hg₀
    fun e he => habove₀ e (List.mem_append_left _ he)
  have habove₁ : AllGt s (flat (h + 1) (ofKids R₀)) := fun e he =>
    habove₀ e (List.mem_append_right _ he)
  have hfirstkid : kid child 0 = .ok first := hreads h child first [] R₀ k₀ hchild hfirst
  have hpair : kv₀ :: (tl₀ ++ flat (h + 1) (ofKids R₀)) = kv' :: rest := by
    rw [← hrest, ← List.cons_append, ← hkv₀]
    rfl
  obtain ⟨rfl, rfl⟩ := List.cons.inj hpair
  left
  have hcur₁ : Cursor s (h + 1) (ofKids (k₀ :: R₀)) ((child, 0) :: (B ++ (first, 0) :: D))
      kv₀ (tl₀ ++ flat (h + 1) (ofKids R₀)) _ := .node (L := []) hchild
    (fun e he => hbehind e (List.mem_cons_of_mem _ he)) habove₁ hcur₀
  rw [kids_shift] at henc
  have hcur := Cursor.node henc no_stale
    (fun e he => habove e (List.mem_append_right _ he)) hcur₁
  rw [List.length_append, List.length_singleton, ← kids_shift] at hcur
  refine ⟨_, _, .carry (A := []) hready hbehind hkid
    (descend_node hchild hfirstkid hdown), hcur, ?_⟩
  have hthin := thin_around (L := []) (k := k₀) (R := R₀) hg
    (fun _ he => absurd he List.not_mem_nil) (Or.inl rfl) habove₁
  have hone : (entries (h + 1) (ofKids (k₀ :: R₀))).length = 1 ↔ R₀ = [] := by
    rw [entries_ofKids, List.length_map, List.length_cons, Nat.add_eq_right,
      List.length_eq_zero_iff]
  have hcarried : Carried s (h + 1) (ofKids (k₀ :: R₀))
      ↔ clear₀ ∧ (h = 0 → B = [] ∨ R₀ = []) ∧ ∀ k'' ∈ R₀, Carried s h k''.2 := by
    rw [Carried, hone, hclear₀]
    refine (and_congr_left' hthin).trans ?_
    simp only [Nat.add_eq_right, hB, false_or]
    rw [and_assoc, and_comm (a := h = 0 → R₀ = [])]
  simp [hclear, hcarried]

end Carry

/-- A step below a node is a step of the node. -/
theorem Steps.under {node : BNode} {L R : List (Ptr × Tree h)} {k : Ptr × Tree h}
    {stale sub : List (BNode × Nat)} {kv' : Bytes × Bytes} {rest : List (Bytes × Bytes)}
    (henc : Encodes node bnodeInternal (entries (h + 1) (ofKids (L ++ k :: R))))
    (hstale : ∀ e ∈ stale, Exhausted e) (habove : AllGt s (flat (h + 1) (ofKids R)))
    (hne : sub ≠ []) (hstep : Steps kid fuel s h k.2 sub clear kv' rest) :
    Steps kid fuel s (h + 1) (ofKids (L ++ k :: R)) ((node, L.length) :: (stale ++ sub))
      (clear ∧ (h = 0 → stale = [] ∨ R = []) ∧ ∀ k' ∈ R, Carried s h k'.2)
      kv' (rest ++ flat (h + 1) (ofKids R)) := by
  rcases hstep with ⟨sub', clear', hmove, hcur, hclear⟩ | ⟨hnot, sub', hmove, hlast⟩
  · exact Or.inl ⟨_, _, hmove.under ((node, L.length) :: stale),
      .node henc hstale habove hcur, and_congr_left' hclear⟩
  · refine Or.inr ⟨fun h => hnot h.1, _, hmove.under ((node, L.length) :: stale), ?_⟩
    have hne' : sub' ≠ [] := by
      intro hnil
      rw [hnil, List.getLast?_nil, eq_comm, List.getLast?_eq_none_iff] at hlast
      exact hne hlast
    rw [List.getLast?_append_of_ne_nil _ hne', hlast]
    exact (List.getLast?_append_of_ne_nil ((node, L.length) :: stale) hne).symm

/-- Every step goes on to the next pair as long as the way is clear, and
one that does not stays where it is. The induction is on the path: the
step is taken below the node, unless all pairs below it have been
visited. -/
theorem Cursor.step (hreads : Reads kid m) (hcur : Cursor s h t path kv tl clear) :
    Stored m h t → Good (· ≠ []) h t → h < fuel → ∀ kv' rest, tl = kv' :: rest →
      Steps kid fuel s h t path clear kv' rest := by
  induction hcur with
  | @leaf node L R kv henc =>
      rintro - - - kv' rest rfl
      have hready := henc
      rw [entries_around] at hready
      have hready := ready_of_more hready
      rw [show (entries 0 L).length = L.length from List.length_map ..] at hready
      have hshift : L ++ kv :: kv' :: rest = (L ++ [kv]) ++ kv' :: rest := by
        rw [List.append_assoc, List.singleton_append]
      rw [hshift] at henc
      have hcur : Cursor s 0 ((L ++ [kv]) ++ kv' :: rest) [(node, (L ++ [kv]).length)] kv'
          rest True := .leaf henc
      rw [List.length_append, List.length_singleton, ← hshift] at hcur
      exact Or.inl ⟨_, _, .inside (A := []) hready, hcur, Iff.rfl⟩
  | @node h node L R k stale sub kv tl clear henc hstale habove hsub ih =>
      intro hst hg hfuel kv' rest htl
      obtain ⟨hgk, hgR⟩ := Good.kid hg
      cases tl with
      | cons kv₁ tl₁ =>
          obtain ⟨rfl, rfl⟩ := List.cons.inj htl
          refine Steps.under henc hstale habove hsub.path_ne ?_
          exact ih (hst k List.mem_append_cons_self).2 hgk (Nat.lt_of_succ_lt hfuel) _ _ rfl
      | nil =>
          obtain ⟨hclear, hex⟩ := hsub.last hgk rfl
          cases R with
          | nil => cases htl
          | cons k' R =>
              have hmem : k' ∈ L ++ k :: k' :: R := by simp
              obtain ⟨⟨child, hchild, hencc⟩, hstk⟩ := hst k' hmem
              obtain ⟨hnek, hgk'⟩ := hg k' hmem
              have hkid : kid node (L.length + 1) = .ok child := by
                have henc' := henc
                rw [kids_shift] at henc'
                have hkid := hreads h node child (L ++ [k]) R k' henc' hchild
                rwa [List.length_append, List.length_singleton] at hkid
              obtain ⟨kv₁, rest₁, hrest, -⟩ := firstKey_eq (fun _ h => h) hgk' hnek
              have htl' : flat h k'.2 ++ flat (h + 1) (ofKids R) = kv' :: rest := htl
              rw [hrest, List.cons_append] at htl'
              obtain ⟨rfl, rfl⟩ := List.cons.inj htl'
              cases h with
              | zero =>
                  exact carry_leaf henc hkid hencc (Nat.lt_of_succ_lt hfuel) hstale hsub
                    hclear hex habove hrest
              | succ h =>
                  exact carry_node hreads (Nat.lt_of_succ_lt hfuel) henc hkid hencc hstk
                    hgk' hnek hstale hsub hclear hex habove hrest

end Walk

end Svacara.Btree
