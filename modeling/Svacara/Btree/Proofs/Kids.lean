/-
Replacing kids of an internal node.

The tree operations work on one kid at a time. `pages_around` sets the
kid's pages apart from its siblings', `replace_spec` is the contract of
`nodeReplaceKidN`: the parts that take the kid's place get pages of
their own, and every page that was live stays as it was.
-/
import Svacara.Btree.Pages
import Svacara.Btree.Proofs.Tree
import Svacara.Btree.Proofs.Rebuild
import Mathlib.Data.List.Forall2

namespace Svacara.Btree

open Outcome Heap

variable {σ : Type} {refusal : Fault} {ops : PageOps σ} {live : σ → Ptr → Option BNode} {h : Nat}

-- ================================================ one kid in focus

/-- The pages under the siblings of a kid. -/
def restPages (L R : List (Ptr × Tree h)) : List Ptr :=
  pages (h + 1) (ofKids L) ++ pages (h + 1) (ofKids R)

/-- The pages of an internal node with one kid in focus. -/
theorem pages_around (L R : List (Ptr × Tree h)) (k : Ptr × Tree h) :
    (pages (h + 1) (ofKids (L ++ k :: R))).Perm
      (k.1 :: (pages h k.2 ++ restPages L R)) := by
  have heq : pages (h + 1) (ofKids (L ++ k :: R))
      = pages (h + 1) (ofKids L)
        ++ ((k.1 :: pages h k.2) ++ pages (h + 1) (ofKids R)) := by
    simp only [pages_ofKids, List.flatMap_append, List.flatMap_cons]
  rw [heq]
  exact List.perm_append_comm_assoc _ _ _

/-- The pages of an internal node with a run of kids in focus. -/
theorem pages_run (L R ks : List (Ptr × Tree h)) :
    (pages (h + 1) (ofKids ks) ++ restPages L R).Perm
      (pages (h + 1) (ofKids (L ++ (ks ++ R)))) := by
  simp only [restPages, pages_ofKids, List.flatMap_append]
  exact List.perm_append_comm_assoc _ _ _

theorem mem_restPages_left {L R : List (Ptr × Tree h)} {p : Ptr}
    (hp : p ∈ pages (h + 1) (ofKids L)) : p ∈ restPages L R :=
  List.mem_append_left _ hp

theorem mem_restPages_right {L R : List (Ptr × Tree h)} {p : Ptr}
    (hp : p ∈ pages (h + 1) (ofKids R)) : p ∈ restPages L R :=
  List.mem_append_right _ hp

/-- The siblings stay stored as long as their pages are left alone. -/
theorem stored_run {m m' : Ptr → Option BNode} {L R olds ks : List (Ptr × Tree h)}
    (hst : Stored m (h + 1) (ofKids (L ++ (olds ++ R))))
    (heq : ∀ p ∈ restPages L R, m' p = m p)
    (hks : Stored m' (h + 1) (ofKids ks)) :
    Stored m' (h + 1) (ofKids (L ++ (ks ++ R))) := by
  have hL : Stored m (h + 1) (ofKids L) := fun k' hk' =>
    hst k' (List.mem_append_left _ hk')
  have hR : Stored m (h + 1) (ofKids R) := fun k' hk' =>
    hst k' (List.mem_append_right _ (List.mem_append_right _ hk'))
  have hL' := hL.congr fun p hp => heq p (mem_restPages_left hp)
  have hR' := hR.congr fun p hp => heq p (mem_restPages_right hp)
  intro k' hk'
  rcases List.mem_append.mp hk' with hk' | hk'
  · exact hL' k' hk'
  · rcases List.mem_append.mp hk' with hk' | hk'
    · exact hks k' hk'
    · exact hR' k' hk'

/-- A property of all kids survives the replacement of some. -/
theorem good_run {P : List Entry → Prop} {L R olds ks : List (Ptr × Tree h)}
    (hg : Good P (h + 1) (ofKids (L ++ (olds ++ R))))
    (hks : Good P (h + 1) (ofKids ks)) :
    Good P (h + 1) (ofKids (L ++ (ks ++ R))) := by
  intro k' hk'
  rcases List.mem_append.mp hk' with hk' | hk'
  · exact hg k' (List.mem_append_left _ hk')
  · rcases List.mem_append.mp hk' with hk' | hk'
    · exact hks k' hk'
    · exact hg k' (List.mem_append_right _ (List.mem_append_right _ hk'))

/-- The pairs of an internal node with a run of kids in focus. -/
theorem flat_run (L R ks : List (Ptr × Tree h)) :
    flat (h + 1) (ofKids (L ++ (ks ++ R)))
      = flat (h + 1) (ofKids L) ++ (flat (h + 1) (ofKids ks)
        ++ flat (h + 1) (ofKids R)) := by
  simp only [flat_ofKids, List.flatMap_append]

theorem flat_around (L R : List (Ptr × Tree h)) (k : Ptr × Tree h) :
    flat (h + 1) (ofKids (L ++ k :: R))
      = flat (h + 1) (ofKids L) ++ (flat h k.2 ++ flat (h + 1) (ofKids R)) := by
  simp only [flat_ofKids, List.flatMap_append, List.flatMap_cons]

/-- The pairs of kids depend on the subtrees only. -/
theorem flat_of_snd {ks : List (Ptr × Tree h)} {ts : List (Tree h)}
    (heq : ks.map Prod.snd = ts) :
    flat (h + 1) (ofKids ks) = ts.flatMap (flat h) := by
  rw [flat_ofKids, ← heq, List.flatMap_map]

-- ============================================ allocating the parts

/-- Key/value bytes of the parent's entries for these kids. -/
def kidsSize (ts : List (Tree h)) : Nat :=
  (ts.map fun t => 4 + (firstKey (entries h t)).length).sum

theorem kvSize_kidEntry (ks : List (Ptr × Tree h)) :
    kvSize (ks.map kidEntry) = kidsSize (ks.map Prod.snd) := by
  simp only [kvSize, kidsSize, List.map_map]
  congr 1

/-- `b` is a node that holds the non-empty tree `t`. -/
def IsPart (b : BNode) (t : Tree h) : Prop :=
  Encodes b (nodeType h) (entries h t) ∧ entries h t ≠ []

theorem IsPart.getKey {b : BNode} {t : Tree h} (hp : IsPart b t) :
    getKey b 0 = .ok (firstKey (entries h t)) := by
  obtain ⟨henc, hne⟩ := hp
  cases hes : entries h t with
  | nil => exact absurd hes hne
  | cons e es => exact Holds.getKey henc (by rw [hes]; rfl)

/-- One round of the loops over the parts: the part gets a fresh page. -/
theorem newPage_part (hl : Lawful refusal ops live) {F : Ptr → Option BNode}
    {rs : List Ptr} {s : σ} {b : BNode} {t : Tree h} (hp : IsPart b t)
    (hown : Owned F (live s) (pages h t ++ rs)) (hst : Stored (live s) h t) :
    Returns refusal (ops.newPage s b) fun r =>
      r.1 ≠ 0 ∧ Owned F (live r.2) (rs ++ pages (h + 1) (ofKids [(r.1, t)]))
        ∧ Stored (live r.2) (h + 1) (ofKids [(r.1, t)])
        ∧ ∀ p, live s p ≠ none → live r.2 p = live s p := by
  refine (hl.newPage s b).mono ?_
  rintro ⟨p, s'⟩ ⟨hp0, hfree, hupd⟩
  refine ⟨hp0, ?_, ?_, ?_⟩
  · rw [hupd]
    refine (hown.put hfree).perm ?_
    show ((p :: pages h t) ++ rs).Perm (rs ++ ((p :: pages h t) ++ []))
    rw [List.append_nil]
    exact List.perm_append_comm
  · intro k hk
    obtain rfl : k = (p, t) := by simpa using hk
    rw [hupd]
    exact ⟨⟨b, Function.update_self .., hp.1⟩, hst.put hfree⟩
  · intro q hq
    rw [hupd]
    refine Function.update_of_ne ?_ _ _
    rintro rfl
    exact hq hfree

/-- The loops of `nodeReplaceKidN` and `Insert`, which differ in what is
done to the node before an append. -/
def appendLoop (ops : PageOps σ) (prep : BNode → Nat → Except Fault BNode) :
    List BNode → Nat → BNode → σ → Except Fault (BNode × σ)
  | [], _, new, s => .ok (new, s)
  | kid :: kids, idx, new, s => do
      let (ptr, s) ← ops.newPage s kid
      let new ← prep new idx
      let key ← getKey kid 0
      let new ← nodeAppendKV new idx ptr key []
      appendLoop ops prep kids (u16 (idx + 1)) new s

theorem appendKids_eq (ops : PageOps σ) (bufs : List BNode) :
    ∀ idx new s, appendKids ops bufs idx new s
      = appendLoop ops (fun b _ => .ok b) bufs idx new s := by
  induction bufs with
  | nil => exact fun _ _ _ => rfl
  | cons b bufs ih =>
      intro idx new s
      simp only [appendKids, appendLoop, ok_bind, ih]

/-- What `Insert` does before an append: zero the next offset. -/
def clearOffset (root : BNode) (i : Nat) : Except Fault BNode := do
  let pos ← offsetPos root (u16 (i + 1))
  copyAt root pos (make 2)

theorem appendSplit_eq (ops : PageOps σ) (bufs : List BNode) :
    ∀ idx new s, appendSplit ops bufs idx new s
      = appendLoop ops clearOffset bufs idx new s := by
  induction bufs with
  | nil => exact fun _ _ _ => rfl
  | cons b bufs ih =>
      intro idx new s
      simp only [appendSplit, appendLoop, clearOffset, bind_assoc, ih]

/-- The step before an append keeps what the node holds. -/
def Keeps (prep : BNode → Nat → Except Fault BNode) : Prop :=
  ∀ new ty n es, Holds new ty n es → es.length < n →
    ∃ new', prep new es.length = .ok new' ∧ Holds new' ty n es
      ∧ new'.length = new.length

theorem keeps_skip : Keeps fun b _ => .ok b :=
  fun new _ _ _ h _ => ⟨new, rfl, h, rfl⟩

theorem keeps_clearOffset : Keeps clearOffset := by
  intro new ty n es h hlt
  obtain ⟨pos, new', hpos, hcopy, hhold, hlen⟩ := h.clearOffset hlt
  refine ⟨new', ?_, hhold, hlen⟩
  rw [clearOffset, hpos, ok_bind, hcopy]

/-- Every part of a split gets a page and an entry. The induction is on
the parts; `rs` are the pages held besides those below them. -/
theorem appendLoop_spec (hl : Lawful refusal ops live)
    {prep : BNode → Nat → Except Fault BNode} (hprep : Keeps prep)
    {F : Ptr → Option BNode} {n : Nat} :
    ∀ (bufs : List BNode) (ts : List (Tree h)) (new : BNode) (es : List Entry)
      (s : σ) (rs : List Ptr),
      List.Forall₂ IsPart bufs ts →
      Holds new bnodeInternal n es → es.length + bufs.length ≤ n →
      header + 10 * n + kvSize es + kidsSize ts ≤ new.length →
      Owned F (live s) (ts.flatMap (pages h) ++ rs) →
      (∀ t ∈ ts, Stored (live s) h t) →
      Returns refusal (appendLoop ops prep bufs es.length new s) fun r =>
        ∃ ks : List (Ptr × Tree h), ks.map Prod.snd = ts
          ∧ Holds r.1 bnodeInternal n (es ++ ks.map kidEntry)
          ∧ r.1.length = new.length
          ∧ Owned F (live r.2) (pages (h + 1) (ofKids ks) ++ rs)
          ∧ Stored (live r.2) (h + 1) (ofKids ks)
          ∧ ∀ p, live s p ≠ none → live r.2 p = live s p := by
  intro bufs
  induction bufs with
  | nil =>
      intro ts new es s rs hparts hnew hn hfit hown hst
      cases hparts
      refine Meets.of_eq rfl ⟨[], rfl, ?_, rfl, hown, ?_, fun _ _ => rfl⟩
      · simpa using hnew
      · intro k hk
        cases hk
  | cons b bufs ih =>
      intro ts new es s rs hparts hnew hn hfit hown hst
      cases hparts with
      | cons hb hparts =>
      rename_i t ts
      rw [List.length_cons] at hn
      have hkey : kidsSize (t :: ts)
          = 4 + (firstKey (entries h t)).length + kidsSize ts := by
        simp [kidsSize]
      rw [hkey] at hfit
      rw [List.flatMap_cons, List.append_assoc] at hown
      refine (newPage_part hl hb hown (hst t (List.mem_cons_self ..))).bind ?_
      rintro ⟨p, s₁⟩ ⟨-, hown₁, hst₁, hkeep₁⟩
      obtain ⟨new₀, hprep₀, hnew₀, hlen₀⟩ := hprep new _ n es hnew (by omega)
      obtain ⟨new₁, hnew₁, hhold₁, hlen₁⟩ := nodeAppendKV_holds
        (e := kidEntry (p, t)) hnew₀ (by omega) (by
          show _ + (4 + (firstKey (entries h t)).length + 0) ≤ _
          omega)
      simp only [hprep₀, hb.getKey, ok_bind]
      have hstep : nodeAppendKV new₀ es.length p (firstKey (entries h t)) []
          = .ok new₁ := hnew₁
      have hidx : u16 (es.length + 1) = (es ++ [kidEntry (p, t)]).length := by
        have h₁ := hnew.small
        rw [List.length_append, List.length_singleton]
        exact u16_of_lt (by omega)
      rw [hstep, ok_bind, hidx]
      have hsz : kvSize (es ++ [kidEntry (p, t)])
          = kvSize es + (4 + (firstKey (entries h t)).length) := by
        rw [kvSize_append, kvSize_cons, kvSize_nil]
        rfl
      refine (ih ts new₁ _ s₁ (rs ++ pages (h + 1) (ofKids [(p, t)])) hparts
        hhold₁ (by rw [List.length_append, List.length_singleton]; omega)
        (by omega) ?_ ?_).mono ?_
      · rw [List.append_assoc] at hown₁
        exact hown₁
      · intro t' ht'
        have hst' := hst t' (List.mem_cons_of_mem _ ht')
        exact hst'.congr fun q hq => hkeep₁ q (hst'.live q hq)
      · rintro ⟨new₂, s₂⟩ ⟨ks, hks, hhold, hlen, hown₂, hst₂, hkeep₂⟩
        refine ⟨(p, t) :: ks, by rw [List.map_cons, hks], ?_,
          hlen.trans (hlen₁.trans hlen₀), ?_, ?_, ?_⟩
        · rw [List.append_assoc] at hhold
          exact hhold
        · refine hown₂.perm ?_
          have heq : pages (h + 1) (ofKids ((p, t) :: ks))
              = pages (h + 1) (ofKids [(p, t)]) ++ pages (h + 1) (ofKids ks) := by
            simp only [pages_ofKids, List.flatMap_cons, List.flatMap_nil,
              List.append_nil]
          rw [heq, List.append_assoc]
          exact (List.perm_append_comm.append_left _).trans
            (List.perm_append_comm_assoc _ _ _)
        · intro k hk
          rcases List.mem_cons.mp hk with rfl | hk
          · have := hst₁.congr fun q hq => hkeep₂ q (hst₁.live q hq)
            exact this (p, t) (List.mem_cons_self ..)
          · exact hst₂ k hk
        · intro q hq
          have h₁ := hkeep₁ q hq
          rw [hkeep₂ q (by rw [h₁]; exact hq), h₁]

/-- `nodeReplaceKidN`: one kid of a node makes way for the parts. -/
theorem replace_spec (hl : Lawful refusal ops live) {F : Ptr → Option BNode}
    {new node : BNode} {L R : List (Ptr × Tree h)} {k : Ptr × Tree h}
    {bufs : List BNode} {ts : List (Tree h)} {s : σ} {rs : List Ptr}
    (hnode : Encodes node bnodeInternal (entries (h + 1) (ofKids (L ++ k :: R))))
    (hsmall : new.length < 65536) (hparts : List.Forall₂ IsPart bufs ts)
    (hfit : header + 10 * (L.length + ts.length + R.length)
      + kidsSize (L.map Prod.snd) + kidsSize ts + kidsSize (R.map Prod.snd)
      ≤ new.length)
    (hown : Owned F (live s) (ts.flatMap (pages h) ++ rs))
    (hst : ∀ t ∈ ts, Stored (live s) h t) :
    Returns refusal (nodeReplaceKidN ops new node L.length bufs s) fun r =>
      ∃ ks : List (Ptr × Tree h), ks.map Prod.snd = ts
        ∧ Encodes r.1 bnodeInternal (entries (h + 1) (ofKids (L ++ (ks ++ R))))
        ∧ Owned F (live r.2) (pages (h + 1) (ofKids ks) ++ rs)
        ∧ Stored (live r.2) (h + 1) (ofKids ks)
        ∧ ∀ p, live s p ≠ none → live r.2 p = live s p := by
  have hlen := hparts.length_eq
  have hn := hnode.nkeys
  have hlt := hnode.length_lt
  rw [entries_ofKids] at hnode hn hlt
  simp only [List.length_map, List.length_append, List.length_cons] at hn hlt
  rw [List.map_append, List.map_cons] at hnode
  rw [← kvSize_kidEntry, ← kvSize_kidEntry] at hfit
  have hLlen : (L.map kidEntry).length = L.length := List.length_map ..
  have hRlen : (R.map kidEntry).length = R.length := List.length_map ..
  obtain ⟨b₀, b₁, hb₀, hb₁, hh₁, hl₁⟩ := copy_head bnodeInternal
    (L.length + bufs.length + R.length) hnode hsmall (by decide)
    (by omega) (by omega)
  rw [hLlen] at hb₁
  rw [nodeReplaceKidN, hn, ok_bind]
  dsimp only
  rw [u16_of_lt (n := bufs.length) (by omega),
    u16_of_lt (n := L.length + (R.length + 1) + bufs.length) (by omega),
    u16sub_of_le (by omega) (by omega),
    show L.length + (R.length + 1) + bufs.length - 1
      = L.length + bufs.length + R.length by omega,
    hb₀, ok_bind, hb₁, ok_bind, ← hLlen]
  rw [appendKids_eq]
  refine (appendLoop_spec hl keeps_skip bufs ts b₁ (L.map kidEntry) s rs hparts
    hh₁ (by omega) (by omega) hown hst).bind ?_
  rintro ⟨b₂, s₂⟩ ⟨ks, hks, hh₂, hl₂, hown₂, hst₂, hkeep⟩
  have hkslen : (L.map kidEntry ++ ks.map kidEntry).length
      = L.length + bufs.length := by
    have hks' : ks.length = ts.length := by
      rw [← hks, List.length_map]
    rw [List.length_append, hLlen, List.length_map, hks', hlen]
  have hnode' : Encodes node bnodeInternal
      ((L.map kidEntry ++ [kidEntry k]) ++ R.map kidEntry) := by
    rw [List.append_assoc]
    exact hnode
  have hLk : (L.map kidEntry ++ [kidEntry k]).length = L.length + 1 := by
    rw [List.length_append, hLlen, List.length_singleton]
  obtain ⟨b₃, hb₃, hh₃, hl₃⟩ := copy_tail hh₂ hnode'
    (by rw [hkslen, hRlen]) (by
      rw [kvSize_append, kvSize_append, kvSize_kidEntry ks, hks]
      omega)
  rw [hkslen, hLk, hRlen] at hb₃
  rw [hLlen, u16_of_lt (n := L.length + bufs.length) (by omega),
    u16_of_lt (n := L.length + 1) (by omega),
    u16sub_of_le (by omega) (by omega),
    show L.length + (R.length + 1) - (L.length + 1) = R.length by omega]
  simp only [hb₃, ok_bind]
  refine Meets.ok ⟨ks, hks, ?_, hown₂, hst₂, hkeep⟩
  have hes : entries (h + 1) (ofKids (L ++ (ks ++ R)))
      = L.map kidEntry ++ ks.map kidEntry ++ R.map kidEntry := by
    rw [entries_ofKids, List.map_append, List.map_append, List.append_assoc]
  rw [Encodes, hes, List.length_append, hkslen, hRlen]
  exact hh₃

end Svacara.Btree
