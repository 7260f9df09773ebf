/-
What it means that kids were attached to their parent.

The contracts in `Kids` and `Splitting` say that kids are attached if
there is room. Here it is the other way round: a call that returned had
room, since an entry of an internal node has no value that could be cut
off. Nothing is known of the kids but that they are not longer than two
pages; they may be nodes that lost a value.
-/
import Svacara.Btree.Proofs.Faults
import Svacara.Btree.Proofs.Kids

namespace Svacara.Btree

open Outcome

/-- The entries `ks` stand for the nodes, each on a page of its own and
under its first key. -/
def Attached (m : Ptr → Option BNode) (ks : List Entry) (nodes : List BNode) : Prop :=
  List.Forall₂ (fun e node => e.val = [] ∧ m e.ptr = some node
    ∧ getKey node 0 = .ok e.key) ks nodes

section Attached

variable {m m' : Ptr → Option BNode} {ks : List Entry} {nodes : List BNode}

theorem Attached.mono (h : Attached m ks nodes)
    (hm : ∀ p node, m p = some node → m' p = some node) : Attached m' ks nodes :=
  List.Forall₂.imp (fun _ _ ⟨hval, hpage, hkey⟩ => ⟨hval, hm _ _ hpage, hkey⟩) h

theorem Attached.bare (h : Attached m ks nodes) : ∀ e ∈ ks, e.val = [] := by
  intro e he
  obtain ⟨i, hi, rfl⟩ := List.getElem_of_mem he
  have hlen := List.Forall₂.length_eq h
  exact ((List.forall₂_iff_get.mp h).2 i hi (by omega)).1

theorem Attached.page (h : Attached m ks nodes) :
    ∀ e ∈ ks, ∃ node ∈ nodes, m e.ptr = some node := by
  intro e he
  obtain ⟨i, hi, rfl⟩ := List.getElem_of_mem he
  have hlen := List.Forall₂.length_eq h
  exact ⟨_, List.get_mem .., ((List.forall₂_iff_get.mp h).2 i hi (by omega)).2.1⟩

end Attached

section Store

variable {σ : Type} {refusal : Fault} {ops : PageOps σ} {live : σ → Ptr → Option BNode}

/-- A page that was allocated, and those that were there. -/
theorem newPage_ok (hl : Lawful refusal ops live) {s : σ} {node : BNode} {r : Ptr × σ}
    (h : ops.newPage s node = .ok r) :
    r.1 ≠ 0 ∧ live r.2 r.1 = some node
      ∧ ∀ p kid, live s p = some kid → live r.2 p = some kid := by
  obtain ⟨hne, hfree, hupd⟩ := (hl.newPage s node).get h
  refine ⟨hne, by rw [hupd, Function.update_self], fun p kid hp => ?_⟩
  rw [hupd, Function.update_of_ne]
  · exact hp
  · intro heq
    rw [heq, hfree] at hp
    cases hp

/-- The loops of `nodeReplaceKidN` and `Insert`: if they return, every
kid is attached. -/
theorem appendLoop_ok (hl : Lawful refusal ops live)
    {prep : BNode → Nat → Except Fault BNode} (hprep : Keeps prep) {n : Nat} :
    ∀ (nodes : List BNode) (new : BNode) (es : List Entry) (s : σ) (r : BNode × σ),
      (∀ node ∈ nodes, node.length ≤ 2 * btreePageSize) →
      Holds new bnodeInternal n es → es.length + nodes.length ≤ n →
      header + 10 * n + kvSize es + 8196 * nodes.length < 65536 →
      appendLoop ops prep nodes es.length new s = .ok r →
      ∃ ks, Attached (live r.2) ks nodes ∧ Holds r.1 bnodeInternal n (es ++ ks)
        ∧ r.1.length = new.length ∧ kvSize ks ≤ 8196 * nodes.length
        ∧ ∀ p kid, live s p = some kid → live r.2 p = some kid := by
  intro nodes
  induction nodes with
  | nil =>
      intro new es s r hlen hnew hn hsmall h
      cases h
      exact ⟨[], .nil, by rwa [List.append_nil], rfl, Nat.le_refl _, fun _ _ hp => hp⟩
  | cons node nodes ih =>
      intro new es s r hlen hnew hn hsmall h
      rw [List.length_cons] at hn hsmall
      obtain ⟨⟨p, s₁⟩, hpage, h⟩ := bind_eq_ok.mp h
      obtain ⟨-, hp, hkeep⟩ := newPage_ok hl hpage
      obtain ⟨new₀, hnew₀, hhold₀, hlen₀⟩ := hprep new _ n es hnew (by omega)
      dsimp only at h hp hkeep
      rw [hnew₀, ok_bind] at h
      obtain ⟨key, hkey, h⟩ := bind_eq_ok.mp h
      obtain ⟨new₁, hnew₁, h⟩ := bind_eq_ok.mp h
      have hklen : key.length ≤ 8192 :=
        Nat.le_trans ((indexes_getKey ..).get hkey) (hlen node (List.mem_cons_self ..))
      have hsize : (⟨p, key, []⟩ : Entry).size = 4 + key.length := rfl
      obtain ⟨hw, hlen₁⟩ := hhold₀.written.append (e := ⟨p, key, []⟩) (by omega) (by omega)
        hnew₁
      have hkv : kvSize (es ++ [(⟨p, key, []⟩ : Entry)]) = kvSize es + (4 + key.length) := by
        rw [kvSize_append, kvSize_cons, kvSize_nil, hsize, Nat.add_zero]
      have hhold₁ : Holds new₁ bnodeInternal n (es ++ [⟨p, key, []⟩]) := by
        refine hw.holds ?_
        have hroom := hw.keys es.length ⟨p, key, []⟩ (by simp)
        rw [List.take_left] at hroom
        dsimp only at hroom
        omega
      have hidx : u16 (es.length + 1) = (es ++ [(⟨p, key, []⟩ : Entry)]).length := by
        have hns := hnew.small
        have hfits := hnew.fits
        rw [List.length_append, List.length_singleton]
        exact u16_of_lt (by omega)
      rw [hidx] at h
      obtain ⟨ks, hks, hhold, hlen', hkvs, hkeep'⟩ := ih new₁ _ s₁ r
        (fun k hk => hlen k (List.mem_cons_of_mem _ hk)) hhold₁
        (by rw [List.length_append, List.length_singleton]; omega) (by omega) h
      refine ⟨⟨p, key, []⟩ :: ks, .cons ⟨rfl, hkeep' _ _ hp, hkey⟩ hks, ?_,
        hlen'.trans (hlen₁.trans hlen₀), ?_, fun q kid hq => hkeep' _ _ (hkeep _ _ hq)⟩
      · rw [List.append_assoc] at hhold
        exact hhold
      · rw [kvSize_cons, hsize, List.length_cons]
        omega

/-- `nodeReplaceKidN`: if it returns, the new node encodes the entries of
the kids in place of the old one. -/
theorem nodeReplaceKidN_ok (hl : Lawful refusal ops live) {buf node : BNode} {ty : Nat}
    {A B : List Entry} {e : Entry} {nodes : List BNode} {s : σ} {r : BNode × σ}
    (ho : Encodes node ty (A ++ e :: B)) (hbare : ∀ f ∈ A ++ e :: B, f.val = [])
    (hsize : nodeSize (A ++ e :: B) ≤ btreePageSize)
    (hnodes : ∀ node ∈ nodes, node.length ≤ 2 * btreePageSize) (hthree : nodes.length ≤ 3)
    (hbuf : buf.length < 65536)
    (hroom : header + 10 * (A.length + nodes.length + B.length) + kvSize A ≤ buf.length)
    (h : nodeReplaceKidN ops buf node A.length nodes s = .ok r) :
    ∃ ks, Attached (live r.2) ks nodes ∧ Encodes r.1 bnodeInternal (A ++ (ks ++ B))
      ∧ r.1.length = buf.length
      ∧ ∀ p kid, live s p = some kid → live r.2 p = some kid := by
  have hhd : header = 4 := rfl
  have hn := ho.nkeys
  have hlt := ho.length_lt
  rw [List.length_append, List.length_cons] at hn hlt
  simp only [nodeSize, List.length_append, List.length_cons, kvSize_append, kvSize_cons,
    btreePageSize] at hsize
  obtain ⟨b₀, b₁, hb₀, hb₁, hh₁, hl₁⟩ := copy_head bnodeInternal
    (A.length + nodes.length + B.length) ho hbuf (by decide) (by omega) (by omega)
  rw [nodeReplaceKidN, hn, ok_bind] at h
  dsimp only at h
  rw [u16_of_lt (n := nodes.length) (by omega),
    u16_of_lt (n := A.length + (B.length + 1) + nodes.length) (by omega),
    u16sub_of_le (by omega) (by omega),
    show A.length + (B.length + 1) + nodes.length - 1
      = A.length + nodes.length + B.length by omega, hb₀, ok_bind, hb₁, ok_bind,
    appendKids_eq] at h
  obtain ⟨⟨b₂, s₂⟩, h₂, h⟩ := bind_eq_ok.mp h
  obtain ⟨ks, hks, hh₂, hl₂, hkvs, hkeep⟩ := appendLoop_ok hl keeps_skip nodes b₁ A s _
    hnodes hh₁ (by omega) (by omega) h₂
  dsimp only at h hks hh₂ hl₂ hkeep
  obtain ⟨b₃, h₃, h⟩ := bind_eq_ok.mp h
  cases h
  have hkslen : (A ++ ks).length = A.length + nodes.length := by
    rw [List.length_append, List.Forall₂.length_eq hks]
  rw [u16_of_lt (n := A.length + nodes.length) (by omega),
    u16_of_lt (n := A.length + 1) (by omega), u16sub_of_le (by omega) (by omega),
    show A.length + (B.length + 1) - (A.length + 1) = B.length by omega,
    appendRange_skip b₂ _ ho (by omega), ← hkslen] at h₃
  obtain ⟨hw, hl₃⟩ := hh₂.written.appendAll B (by omega)
    (by simp only [kvSize_append]; omega) h₃
  refine ⟨ks, hks, ?_, hl₃.trans (hl₂.trans hl₁), hkeep⟩
  rw [List.append_assoc] at hw
  have htotal : (A ++ (ks ++ B)).length = A.length + nodes.length + B.length := by
    rw [← List.append_assoc, List.length_append, hkslen]
  rw [← htotal] at hw
  refine hw.encodes_of_bare fun f hf => ?_
  rcases List.mem_append.mp hf with hf | hf
  · exact hbare f (List.mem_append_left _ hf)
  rcases List.mem_append.mp hf with hf | hf
  · exact hks.bare f hf
  · exact hbare f (List.mem_append_right _ (List.mem_cons_of_mem _ hf))

/-- A new root over two or three nodes: if it was made, it encodes their
entries. -/
theorem growRoot_ok (hl : Lawful refusal ops live) {nodes : List BNode} {s : σ} {tree : BTree σ}
    (hnodes : ∀ node ∈ nodes, node.length ≤ 2 * btreePageSize) (hthree : nodes.length ≤ 3)
    (h : (do
      let root ← setHeader (make btreePageSize) bnodeInternal nodes.length
      let (root, s) ← appendSplit ops nodes 0 root s
      let (ptr, s) ← ops.newPage s root
      return (⟨ptr, s⟩ : BTree σ)) = .ok tree) :
    tree.root ≠ 0 ∧ ∃ ks root, Attached (live tree.pages) ks nodes
      ∧ Encodes root bnodeInternal ks ∧ root.length = btreePageSize
      ∧ live tree.pages tree.root = some root
      ∧ ∀ p kid, live s p = some kid → live tree.pages p = some kid := by
  have hhd : header = 4 := rfl
  have hpg : (make btreePageSize).length = 4096 := length_make _
  obtain ⟨b₀, hb₀, hh₀, hl₀⟩ := holds_setHeader (make btreePageSize) bnodeInternal
    nodes.length (by omega) (by decide) (by omega)
  rw [hb₀, ok_bind, appendSplit_eq] at h
  obtain ⟨⟨root, s₁⟩, h₁, h⟩ := bind_eq_ok.mp h
  obtain ⟨ks, hks, hh₁, hl₁, -, hkeep⟩ := appendLoop_ok hl keeps_clearOffset nodes b₀ [] s _
    hnodes hh₀ (by rw [List.length_nil]; omega) (by rw [kvSize_nil]; omega) h₁
  dsimp only at h hks hh₁ hl₁ hkeep
  obtain ⟨⟨p, s₂⟩, h₂, h⟩ := bind_eq_ok.mp h
  obtain ⟨hne, hp, hkeep'⟩ := newPage_ok hl h₂
  cases h
  refine ⟨hne, ks, root, hks.mono hkeep', ?_, hl₁.trans (hl₀.trans hpg), hp,
    fun q kid hq => hkeep' _ _ (hkeep _ _ hq)⟩
  rw [Encodes, List.Forall₂.length_eq hks]
  exact hh₁

end Store

end Svacara.Btree
