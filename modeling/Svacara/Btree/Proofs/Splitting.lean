/-
When a split is sound.

`nodeSplit3_pieces` says what the split does to entries of any size that
fit two pages: it writes the parts of `CutInto`, each to a buffer of its
own. A part that fits a page is encoded there; one that does not is cut
off in its last value, if the split returns at all, and still announces
the size of everything (`Written`). So the split is sound exactly if no
part is larger than a page (`splitSound_iff_of_encodes`), and the three
ways a node comes to be split all fill a buffer of two pages with the
entries they should (`Filling.run_encodes`).

That the parts fit is not a consequence of the limits on keys and values:
the cut stops before the entry that passes the half, and what is right
of it is never cut again.
-/
import Svacara.Btree.Memory
import Svacara.Btree.Splitting
import Mathlib.Data.List.Forall2

namespace Svacara.Btree

open Buf Outcome

-- ================================================== reading a node

theorem Encodes.readEntries {node : BNode} {ty : Nat} {es : List Entry}
    (h : Encodes node ty es) : readEntries node = .ok es := by
  rw [Btree.readEntries, h.nkeys, ok_bind]
  refine mapM_eq_ok.mpr (List.forall₂_iff_get.mpr ⟨List.length_range, fun i hi hi' => ?_⟩)
  have he : es[i]? = some (es.get ⟨i, hi'⟩) := List.getElem?_eq_getElem hi'
  have hr : (List.range es.length).get ⟨i, hi⟩ = i := by simp
  rw [hr, Holds.getPtr h he, ok_bind, Holds.getKey h he, ok_bind, Holds.getVal h he,
    ok_bind, pure_eq_ok]

-- ======================================================= the parts

section Cuts

variable {es : List Entry} {parts : List (List Entry)}

theorem CutInto.flatten_eq (h : CutInto es parts) : parts.flatten = es := by
  cases h with
  | whole => simp
  | once => simp
  | twice hover hcut hleft hcut' =>
      rw [List.flatten_cons, List.flatten_cons, List.flatten_singleton,
        ← List.append_assoc, List.take_append_drop, List.take_append_drop]

theorem CutInto.length_le (h : CutInto es parts) :
    1 ≤ parts.length ∧ parts.length ≤ 3 := by
  cases h <;> simp

/-- There is one way to cut a node only. -/
theorem CutInto.unique {parts' : List (List Entry)} (h : CutInto es parts)
    (h' : CutInto es parts') : parts = parts' := by
  cases h with
  | whole hfit =>
      cases h' with
      | whole => rfl
      | once hover => omega
      | twice hover => omega
  | once hover hcut hleft =>
      cases h' with
      | whole => omega
      | once _ hcut' => rw [hcut.unique hcut']
      | twice _ hcut' hleft' =>
          rw [hcut'.unique hcut] at hleft'
          omega
  | twice hover hcut hleft hcutl =>
      cases h' with
      | whole => omega
      | once _ hcut' hleft' =>
          rw [hcut'.unique hcut] at hleft'
          omega
      | twice _ hcut' _ hcutl' =>
          rw [hcut'.unique hcut] at hcutl' ⊢
          rw [hcutl.unique hcutl']

theorem nodeSize_take_le (es : List Entry) (c : Nat) :
    nodeSize (es.take c) ≤ nodeSize es := by
  have h := nodeSize_append (es.take c) (es.drop c)
  rw [List.take_append_drop] at h
  have hd : header ≤ nodeSize (es.drop c) := by
    rw [nodeSize]
    omega
  omega

theorem nodeSize_drop_le (es : List Entry) (c : Nat) :
    nodeSize (es.drop c) ≤ nodeSize es := by
  have h := nodeSize_append (es.take c) (es.drop c)
  rw [List.take_append_drop] at h
  have hd : header ≤ nodeSize (es.take c) := by
    rw [nodeSize]
    omega
  omega

/-- A cut leaves something on the left. -/
theorem IsCut.take_ne {half c : Nat} (h : IsCut half es c) : es.take c ≠ [] := by
  have hpos := h.pos
  have hle := h.le
  apply List.ne_nil_of_length_pos
  rw [List.length_take]
  omega

/-- Parts that fit are not empty. What is left of a cut never is; if
nothing were right of it, the left part would be what was cut, and that
did not fit. -/
theorem CutInto.ne_nil (h : CutInto es parts) (hne : es ≠ [])
    (hfit : ∀ part ∈ parts, nodeSize part ≤ btreePageSize) :
    ∀ part ∈ parts, part ≠ [] := by
  have hright : ∀ {fs : List Entry} {c : Nat}, btreePageSize < nodeSize fs →
      nodeSize (fs.take c) ≤ btreePageSize → fs.drop c ≠ [] := by
    intro fs c hover hle hnil
    have happ := List.take_append_drop c fs
    rw [hnil, List.append_nil] at happ
    rw [happ] at hle
    omega
  intro part hmem
  cases h with
  | whole =>
      rw [List.mem_singleton.mp hmem]
      exact hne
  | once hover hcut hleft =>
      rcases List.mem_pair.mp hmem with heq | heq
      · rw [heq]
        exact hcut.take_ne
      · rw [heq]
        exact hright hover hleft
  | @twice c d hover hcut hleft hcut' =>
      have hll : nodeSize ((es.take c).take d) ≤ btreePageSize :=
        hfit _ (List.mem_cons_self ..)
      rcases List.mem_cons.mp hmem with heq | hmem
      · rw [heq]
        exact hcut'.take_ne
      rcases List.mem_pair.mp hmem with heq | heq
      · rw [heq]
        exact hright hleft hll
      · rw [heq]
        intro hnil
        -- nothing right of the first cut: the second cuts at the same place
        have happ := List.take_append_drop c es
        rw [hnil, List.append_nil] at happ
        rw [happ] at hcut' hll
        rw [hcut'.unique hcut, happ] at hll
        omega

end Cuts

-- ================================================ the split itself

/-- A node written for one part: it is not cut exactly if the part fits
a page. If the part is empty, it is a page with nothing but a header. -/
structure IsPiece (ty : Nat) (node : BNode) (part : List Entry) : Prop where
  written : Written node ty part.length part
  fits_iff : nodeSize part ≤ node.length ↔ nodeSize part ≤ btreePageSize
  blank : part = [] → build (make btreePageSize) ty [] = .ok node

theorem IsPiece.encodes {ty : Nat} {node : BNode} {part : List Entry}
    (h : IsPiece ty node part) (hfit : nodeSize part ≤ btreePageSize) :
    Encodes node ty part :=
  h.written.holds (h.fits_iff.mpr hfit)

theorem isPiece_of_encodes {ty : Nat} {node : BNode} {part : List Entry}
    (h : Encodes node ty part) (hne : part ≠ []) (hfit : nodeSize part ≤ btreePageSize) :
    IsPiece ty node part where
  written := Holds.written h
  fits_iff := ⟨fun _ => hfit, fun _ => h.nodeSize_le⟩
  blank hnil := absurd hnil hne

/-- What is written to a page. -/
theorem isPiece_of_build {ty : Nat} {node : BNode} {part : List Entry} (hty : ty < 65536)
    (hlt : nodeSize part < 65536)
    (h : build (make btreePageSize) ty part = .ok node) : IsPiece ty node part := by
  obtain ⟨hw, hlen⟩ := build_written (by rw [length_make]; decide) hty hlt h
  rw [length_make] at hlen
  exact ⟨hw, by rw [hlen], fun hnil => by rw [hnil] at h; exact h⟩

/-- `nodeSplit3` on entries that fit two pages: it cuts them into parts
whatever their sizes, it returns if every part fits a page, and if it
returns, the nodes were written for these parts. -/
theorem nodeSplit3_pieces {old : BNode} {ty : Nat} {es : List Entry}
    (ho : Encodes old ty es) (hne : es ≠ []) (hle : nodeSize es ≤ 2 * btreePageSize) :
    ∃ parts, CutInto es parts
      ∧ (∀ nodes, nodeSplit3 old = .ok nodes → List.Forall₂ (IsPiece ty) nodes parts)
      ∧ ((∀ part ∈ parts, nodeSize part ≤ btreePageSize) →
        ∃ nodes, nodeSplit3 old = .ok nodes) := by
  have hty := Holds.tyLt ho
  have hpg : btreePageSize = 4096 := rfl
  have hpage : (make btreePageSize).length < 65536 := by
    rw [length_make]
    decide
  by_cases hfit : nodeSize es ≤ btreePageSize
  · have hsplit := nodeSplit3_fits ho hfit
    refine ⟨[es], .whole hfit, ?_, fun _ => ⟨_, hsplit⟩⟩
    intro nodes hnodes
    rw [hsplit] at hnodes
    cases hnodes
    exact .cons (isPiece_of_encodes ho hne hfit) .nil
  have hover : btreePageSize < nodeSize es := Nat.lt_of_not_le hfit
  obtain ⟨c, hcut, hsplit⟩ := nodeSplit2_eq (make (2 * btreePageSize))
    (make btreePageSize) ho hne
  have htake := nodeSize_take_le es c
  have hdrop := nodeSize_drop_le es c
  -- the left part has two pages of room and fits
  obtain ⟨l, hl, hencl, -⟩ := build_encodes (make (2 * btreePageSize)) ty (es.take c)
    (by rw [length_make]; decide) hty (by rw [length_make]; omega)
  rw [hl, ok_bind] at hsplit
  have hsp : nodeSplit3 old = (build (make btreePageSize) ty (es.drop c) >>= fun r =>
      if nodeSize (es.take c) ≤ btreePageSize then pure [l, r]
      else nodeSplit2 (make btreePageSize) (make btreePageSize) l >>= fun p =>
        pure [p.1, p.2, r]) := by
    rw [nodeSplit3, ho.nbytes, ok_bind, if_neg hfit, hsplit, bind_assoc]
    simp only [pure_eq_ok, ok_bind, hencl.nbytes]
  by_cases hleft : nodeSize (es.take c) ≤ btreePageSize
  · simp only [if_pos hleft] at hsp
    refine ⟨_, .once hover hcut hleft, ?_, ?_⟩
    · intro nodes hnodes
      rw [hsp] at hnodes
      obtain ⟨r, hr, hnodes⟩ := bind_eq_ok.mp hnodes
      cases hnodes
      exact .cons (isPiece_of_encodes hencl hcut.take_ne hleft)
        (.cons (isPiece_of_build hty (by omega) hr) .nil)
    · intro hparts
      have hr : nodeSize (es.drop c) ≤ btreePageSize := hparts _ (by simp)
      obtain ⟨r, hr, -, -⟩ := build_encodes (make btreePageSize) ty (es.drop c) hpage hty
        (by rw [length_make]; exact hr)
      exact ⟨_, by rw [hsp, hr, ok_bind, pure_eq_ok]⟩
  · simp only [if_neg hleft] at hsp
    obtain ⟨d, hcut', hsplit'⟩ := nodeSplit2_eq (make btreePageSize) (make btreePageSize)
      hencl hcut.take_ne
    have htake' := nodeSize_take_le (es.take c) d
    have hdrop' := nodeSize_drop_le (es.take c) d
    rw [hsplit'] at hsp
    refine ⟨_, .twice hover hcut (Nat.lt_of_not_le hleft) hcut', ?_, ?_⟩
    · intro nodes hnodes
      rw [hsp] at hnodes
      obtain ⟨r, hr, hnodes⟩ := bind_eq_ok.mp hnodes
      obtain ⟨p, hp, hnodes⟩ := bind_eq_ok.mp hnodes
      obtain ⟨ll, hll, hp⟩ := bind_eq_ok.mp hp
      obtain ⟨mid, hmid, hp⟩ := bind_eq_ok.mp hp
      cases hp
      cases hnodes
      exact .cons (isPiece_of_build hty (by omega) hll)
        (.cons (isPiece_of_build hty (by omega) hmid)
          (.cons (isPiece_of_build hty (by omega) hr) .nil))
    · intro hparts
      have hbuild : ∀ part ∈ [(es.take c).take d, (es.take c).drop d, es.drop c],
          ∃ node, build (make btreePageSize) ty part = .ok node := by
        intro part hmem
        obtain ⟨node, hnode, -, -⟩ := build_encodes (make btreePageSize) ty part hpage hty
          (by rw [length_make]; exact hparts part hmem)
        exact ⟨node, hnode⟩
      obtain ⟨ll, hll⟩ := hbuild ((es.take c).take d) (by simp)
      obtain ⟨mid, hmid⟩ := hbuild ((es.take c).drop d) (by simp)
      obtain ⟨r, hr⟩ := hbuild (es.drop c) (by simp)
      refine ⟨[ll, mid, r], ?_⟩
      simp only [hsp, hr, hll, hmid, ok_bind, pure_eq_ok]

/-- A split of an internal node that returns is sound: without values no
part can be cut, so each fits its page. -/
theorem nodeSplit3_bare {old : BNode} {ty : Nat} {es : List Entry} {nodes : List BNode}
    (ho : Encodes old ty es) (hne : es ≠ []) (hle : nodeSize es ≤ 2 * btreePageSize)
    (hbare : ∀ e ∈ es, e.val = []) (h : nodeSplit3 old = .ok nodes) :
    ∃ parts, CutInto es parts ∧ List.Forall₂ (fun node part => Encodes node ty part)
      nodes parts ∧ ∀ part ∈ parts, nodeSize part ≤ btreePageSize := by
  obtain ⟨parts, hparts, hpieces, -⟩ := nodeSplit3_pieces ho hne hle
  have hall := hpieces nodes h
  have henc : List.Forall₂ (fun node part => Encodes node ty part
      ∧ nodeSize part ≤ btreePageSize) nodes parts := by
    refine List.forall₂_iff_get.mpr ⟨hall.length_eq, fun i hi hi' => ?_⟩
    have hpiece := (List.forall₂_iff_get.mp hall).2 i hi hi'
    have henc := hpiece.written.encodes_of_bare fun e he => hbare e (by
      rw [← hparts.flatten_eq]
      exact List.mem_flatten.mpr ⟨_, List.get_mem .., he⟩)
    exact ⟨henc, hpiece.fits_iff.mp henc.nodeSize_le⟩
  refine ⟨parts, hparts, henc.imp fun _ _ h => h.1, fun part hmem => ?_⟩
  obtain ⟨i, hi, rfl⟩ := List.getElem_of_mem hmem
  have hlen := henc.length_eq
  exact ((List.forall₂_iff_get.mp henc).2 i (by omega) hi).2

theorem Encodes.pageSized {node : BNode} {ty : Nat} {es : List Entry}
    (h : Encodes node ty es) (hne : es ≠ []) (hfit : nodeSize es ≤ btreePageSize) :
    PageSized node :=
  ⟨_, _, h.nkeys, List.length_pos_iff.mpr hne, h.nbytes, hfit⟩

/-- A split is sound exactly if no part is larger than a page. -/
theorem splitSound_iff_of_encodes {old : BNode} {ty : Nat} {es : List Entry}
    (ho : Encodes old ty es) (hne : es ≠ []) (hle : nodeSize es ≤ 2 * btreePageSize) :
    SplitSound old ↔ SplitsWell es := by
  obtain ⟨parts, hparts, hpieces, hret⟩ := nodeSplit3_pieces ho hne hle
  constructor
  · intro h
    obtain ⟨nodes, -, -, hnodes, -, -, hsized, -⟩ := h
    refine ⟨parts, hparts, fun part hmem => ?_⟩
    -- a part's node announces the part's size, and that is a page at most
    obtain ⟨i, hi, rfl⟩ := List.getElem_of_mem hmem
    have hall := hpieces nodes hnodes
    have hlen := hall.length_eq
    have hpiece := (List.forall₂_iff_get.mp hall).2 i (by omega) hi
    obtain ⟨n, size, -, -, hsize, hle⟩ := hsized (nodes.get ⟨i, by omega⟩)
      (List.get_mem ..)
    rw [hpiece.written.nbytes] at hsize
    cases hsize
    exact hle
  · intro h
    obtain ⟨parts', hparts', hfit⟩ := h
    rw [hparts'.unique hparts] at hfit
    obtain ⟨nodes, hnodes⟩ := hret hfit
    have hall := hpieces nodes hnodes
    have hlen := hall.length_eq
    obtain ⟨hone, hthree⟩ := hparts.length_le
    have henc : ∀ i (hi : i < nodes.length) (hi' : i < parts.length),
        Encodes (nodes.get ⟨i, hi⟩) ty (parts.get ⟨i, hi'⟩) := fun i hi hi' =>
      ((List.forall₂_iff_get.mp hall).2 i hi hi').encodes (hfit _ (List.get_mem ..))
    refine ⟨nodes, parts, es, hnodes, by omega, by omega, ?_, ?_, ho.readEntries,
      hparts.flatten_eq⟩
    · intro node hmem
      obtain ⟨i, hi, rfl⟩ := List.getElem_of_mem hmem
      have hmem' : parts.get ⟨i, by omega⟩ ∈ parts := List.get_mem ..
      exact (henc i hi (by omega)).pageSized (hparts.ne_nil hne hfit _ hmem')
        (hfit _ hmem')
    · exact mapM_eq_ok.mpr (List.forall₂_iff_get.mpr ⟨hlen, fun i hi hi' =>
        (henc i hi hi').readEntries⟩)

-- ========================================== sizes are all it takes

section Sizes

variable {es fs : List Entry}

theorem kvSize_congr (h : es.map Entry.size = fs.map Entry.size) :
    kvSize es = kvSize fs := by
  rw [kvSize, kvSize, h]

theorem nodeSize_congr (h : es.map Entry.size = fs.map Entry.size) :
    nodeSize es = nodeSize fs := by
  have hlen := congrArg List.length h
  rw [List.length_map, List.length_map] at hlen
  rw [nodeSize, nodeSize, kvSize_congr h, hlen]

theorem sizes_take (h : es.map Entry.size = fs.map Entry.size) (c : Nat) :
    (es.take c).map Entry.size = (fs.take c).map Entry.size := by
  rw [List.map_take, List.map_take, h]

theorem sizes_drop (h : es.map Entry.size = fs.map Entry.size) (c : Nat) :
    (es.drop c).map Entry.size = (fs.drop c).map Entry.size := by
  rw [List.map_drop, List.map_drop, h]

theorem IsCut.congr {half c : Nat} (hcut : IsCut half es c)
    (h : es.map Entry.size = fs.map Entry.size) : IsCut half fs c where
  pos := hcut.pos
  le := by
    have hlen := congrArg List.length h
    rw [List.length_map, List.length_map] at hlen
    rw [← hlen]
    exact hcut.le
  left := by
    rw [← kvSize_congr (sizes_take h c)]
    exact hcut.left
  next f hf := by
    have hat := congrArg (·[c]?) h
    simp only [List.getElem?_map, hf, Option.map_some] at hat
    obtain ⟨e, he, hsize⟩ := Option.map_eq_some_iff.mp hat
    rw [← kvSize_congr (sizes_take h c), ← hsize]
    exact hcut.next e he

theorem SplitsWell.congr (hwell : SplitsWell es)
    (h : es.map Entry.size = fs.map Entry.size) : SplitsWell fs := by
  obtain ⟨parts, hparts, hfit⟩ := hwell
  have hsize := nodeSize_congr h
  cases hparts with
  | whole hle =>
      rw [hsize] at hle
      refine ⟨[fs], .whole hle, fun part hmem => ?_⟩
      rw [List.mem_singleton.mp hmem]
      exact hle
  | @once c hover hcut hleft =>
      have hr := hfit (es.drop c) (by simp)
      rw [hsize] at hover hcut
      rw [nodeSize_congr (sizes_take h c)] at hleft
      rw [nodeSize_congr (sizes_drop h c)] at hr
      refine ⟨_, .once hover (hcut.congr h) hleft, fun part hmem => ?_⟩
      rcases List.mem_pair.mp hmem with heq | heq
      · rw [heq]
        exact hleft
      · rw [heq]
        exact hr
  | @twice c d hover hcut hleft hcut' =>
      have hl := hfit ((es.take c).take d) (by simp)
      have hm := hfit ((es.take c).drop d) (by simp)
      have hr := hfit (es.drop c) (by simp)
      have htake := sizes_take h c
      rw [hsize] at hover hcut
      rw [nodeSize_congr htake] at hleft hcut'
      rw [nodeSize_congr (sizes_take htake d)] at hl
      rw [nodeSize_congr (sizes_drop htake d)] at hm
      rw [nodeSize_congr (sizes_drop h c)] at hr
      refine ⟨_, .twice hover (hcut.congr h) hleft (hcut'.congr htake), fun part hmem => ?_⟩
      rcases List.mem_cons.mp hmem with heq | hmem
      · rw [heq]
        exact hl
      rcases List.mem_pair.mp hmem with heq | heq
      · rw [heq]
        exact hm
      · rw [heq]
        exact hr

end Sizes

-- ==================================================== the fillings

section Fill

variable {σ : Type} (ops : PageOps σ)

/-- Store the kids and return the entries they get. -/
def storeKids : List BNode → σ → Except Fault (List Entry × σ)
  | [], s => .ok ([], s)
  | kid :: kids, s => do
      let (ptr, s) ← ops.newPage s kid
      let key ← getKey kid 0
      let (ks, s) ← storeKids kids s
      return (⟨ptr, key, []⟩ :: ks, s)

/-- The entries have the kids' first keys, and exist if the store has
pages for them. -/
theorem storeKids_heads : ∀ (kids : List BNode) (s : σ),
    (∀ kid ∈ kids, ∃ key, getKey kid 0 = .ok key) →
    Meets (Refusal ops) (storeKids ops kids s) fun r =>
      r.1.map Entry.size = (kids.map kidHead).map Entry.size := by
  intro kids
  induction kids with
  | nil =>
      intro s _
      exact Meets.of_eq rfl rfl
  | cons kid kids ih =>
      intro s hkeys
      obtain ⟨key, hkey⟩ := hkeys kid (List.mem_cons_self ..)
      rw [storeKids]
      cases hpage : ops.newPage s kid with
      | error e => exact Or.inr ⟨e, rfl, s, kid, hpage⟩
      | ok r =>
          obtain ⟨p, s₁⟩ := r
          simp only [ok_bind, hkey]
          refine (ih s₁ fun k hk => hkeys k (List.mem_cons_of_mem _ hk)).bind ?_
          intro r hr
          refine Meets.ok ?_
          have hsize : (⟨p, key, []⟩ : Entry).size = (kidHead kid).size := by
            rw [kidHead, hkey]
            rfl
          rw [List.map_cons, List.map_cons, List.map_cons, hr, hsize]

/-- Where all entries fit, storing the kids one by one and appending each
one's entry comes to storing them all and appending the entries. -/
theorem appendKids_stored {ty n : Nat} :
    ∀ (kids : List BNode) (new : BNode) (es : List Entry) (s : σ),
      (∀ kid ∈ kids, ∃ key, getKey kid 0 = .ok key) →
      Holds new ty n es → es.length + kids.length ≤ n →
      header + 10 * n + kvSize (es ++ kids.map kidHead) ≤ new.length →
      appendKids ops kids es.length new s = (do
        let (ks, s) ← storeKids ops kids s
        let new ← appendAll new es.length ks
        return (new, s)) := by
  intro kids
  induction kids with
  | nil =>
      intro new es s hkeys hnew hn hfit
      rfl
  | cons kid kids ih =>
      intro new es s hkeys hnew hn hfit
      rw [List.length_cons] at hn
      obtain ⟨key, hkey⟩ := hkeys kid (List.mem_cons_self ..)
      rw [List.map_cons, kvSize_append, kvSize_cons] at hfit
      rw [appendKids, storeKids]
      cases hpage : ops.newPage s kid with
      | error e => rfl
      | ok r =>
          obtain ⟨p, s₁⟩ := r
          have hsz : (⟨p, key, []⟩ : Entry).size = (kidHead kid).size := by
            rw [kidHead, hkey]
            rfl
          obtain ⟨b, hb, hhold, hlen⟩ := nodeAppendKV_holds (e := ⟨p, key, []⟩) hnew
            (by omega) (by omega)
          have hsmall := hnew.small
          have hidx : (es ++ [(⟨p, key, []⟩ : Entry)]).length = es.length + 1 := by simp
          have hrest := ih b _ s₁ (fun k hk => hkeys k (List.mem_cons_of_mem _ hk)) hhold
            (by omega) (by
              simp only [kvSize_append, kvSize_cons, kvSize_nil]
              omega)
          rw [hidx] at hrest
          simp only [ok_bind, hkey, hb, u16_of_lt (show es.length + 1 < 65536 by omega), hrest,
            bind_assoc, pure_eq_ok, appendAll]

theorem kvSize_kids_le (kids : List BNode)
    (hkeys : ∀ kid ∈ kids, ∃ key, getKey kid 0 = .ok key ∧ key.length ≤ btreeMaxKeySize) :
    kvSize (kids.map kidHead) ≤ 1004 * kids.length := by
  induction kids with
  | nil => simp
  | cons kid kids ih =>
      obtain ⟨key, hkey, hle⟩ := hkeys kid (List.mem_cons_self ..)
      have hsize : (kidHead kid).size = 4 + key.length := by
        rw [kidHead, hkey]
        rfl
      have := ih fun k hk => hkeys k (List.mem_cons_of_mem _ hk)
      simp only [btreeMaxKeySize] at hle
      rw [List.map_cons, kvSize_cons, hsize, List.length_cons]
      omega

/-- One kid's entry makes way for those of its parts. -/
theorem nodeReplaceKidN_eq (buf : BNode) (s : σ) {node : BNode} {ty : Nat}
    {A B : List Entry} {e : Entry} {kids : List BNode}
    (ho : Encodes node ty (A ++ e :: B)) (hsmall : buf.length < 65536)
    (hkeys : ∀ kid ∈ kids, ∃ key, getKey kid 0 = .ok key)
    (hfit : nodeSize (A ++ (kids.map kidHead ++ B)) ≤ buf.length) :
    nodeReplaceKidN ops buf node A.length kids s = (do
      let (ks, s) ← storeKids ops kids s
      let new ← build buf bnodeInternal (A ++ (ks ++ B))
      return (new, s)) := by
  have hhd : header = 4 := rfl
  have hn := ho.nkeys
  have hlt := ho.length_lt
  rw [List.length_append, List.length_cons] at hn hlt
  simp only [nodeSize, List.length_append, List.length_map, kvSize_append] at hfit
  obtain ⟨b₀, b₁, hb₀, hb₁, hh₁, hl₁⟩ := copy_head bnodeInternal
    (A.length + (kids.length + B.length)) ho hsmall (by decide) (by omega) (by omega)
  have htail := fun b => appendRange_skip b (A.length + kids.length) ho (by omega)
  rw [nodeReplaceKidN, hn, ok_bind]
  dsimp only
  rw [u16_of_lt (n := kids.length) (by omega),
    u16_of_lt (n := A.length + (B.length + 1) + kids.length) (by omega),
    u16sub_of_le (by omega) (by omega),
    show A.length + (B.length + 1) + kids.length - 1
      = A.length + (kids.length + B.length) by omega, hb₀, ok_bind, hb₁, ok_bind,
    appendKids_stored ops kids b₁ A s hkeys hh₁ (by omega) (by rw [kvSize_append]; omega),
    u16_of_lt (n := A.length + kids.length) (by omega),
    u16_of_lt (n := A.length + 1) (by omega), u16sub_of_le (by omega) (by omega),
    show A.length + (B.length + 1) - (A.length + 1) = B.length by omega]
  rw [appendRange_head b₀ ho] at hb₁
  rcases storeKids_heads ops kids s hkeys with ⟨r, hr, hsizes⟩ | ⟨err, herr, -⟩
  · obtain ⟨ks, s'⟩ := r
    have hlen : ks.length = kids.length := by simpa using congrArg List.length hsizes
    rw [hr]
    simp only [ok_bind, bind_assoc, pure_eq_ok, htail, build, List.length_append, hlen, hb₀,
      appendAll_append, hb₁, Nat.zero_add]
  · rw [herr]
    rfl

theorem nodeReplaceKidN_encodes (buf : BNode) (s : σ) {node : BNode} {ty : Nat}
    {A B : List Entry} {e : Entry} {kids : List BNode}
    (ho : Encodes node ty (A ++ e :: B)) (hsmall : buf.length < 65536)
    (hkeys : ∀ kid ∈ kids, ∃ key, getKey kid 0 = .ok key)
    (hfit : nodeSize (A ++ (kids.map kidHead ++ B)) ≤ buf.length) :
    Meets (Refusal ops) (nodeReplaceKidN ops buf node A.length kids s) fun r =>
      ∃ ks, ks.map Entry.size = (kids.map kidHead).map Entry.size
        ∧ Encodes r.1 bnodeInternal (A ++ (ks ++ B)) := by
  rw [nodeReplaceKidN_eq ops buf s ho hsmall hkeys hfit]
  refine (storeKids_heads ops kids s hkeys).bind ?_
  intro r hsizes
  obtain ⟨ks, s'⟩ := r
  have hsame : (A ++ (ks ++ B)).map Entry.size
      = (A ++ (kids.map kidHead ++ B)).map Entry.size := by
    simp only [List.map_append, hsizes]
  obtain ⟨new, hnew, henc, -⟩ := build_encodes buf bnodeInternal (A ++ (ks ++ B)) hsmall
    (by decide) ((nodeSize_congr hsame).trans_le hfit)
  dsimp only
  rw [hnew]
  exact Meets.ok ⟨ks, hsizes, henc⟩

theorem around_getElem {es : List Entry} {idx : Nat} (h : idx < es.length) :
    ∃ e, es = es.take idx ++ e :: es.drop (idx + 1) :=
  ⟨es[idx], by rw [← List.drop_eq_getElem_cons h, List.take_append_drop]⟩

/-- A filled node holds what it should, and fits its two pages. -/
theorem Filling.run_encodes (s : σ) {node : BNode} {es : List Entry} (f : Filling)
    (hnode : Encodes node f.nodeType es) (hsize : nodeSize es ≤ btreePageSize)
    (hf : f.Admissible es) :
    nodeSize (f.entries es) ≤ 2 * btreePageSize ∧ f.entries es ≠ []
      ∧ Meets (Refusal ops) (f.run ops node s) fun r =>
        ∃ fs, fs.map Entry.size = (f.entries es).map Entry.size
          ∧ Encodes r.1 f.nodeType fs := by
  have hhd : header = 4 := rfl
  have hbuf : (make (2 * btreePageSize)).length < 65536 := by
    rw [length_make]
    decide
  cases f with
  | insert idx key val =>
      obtain ⟨hidx, hkey, hval⟩ := hf
      have hold := nodeSize_append (es.take idx) (es.drop idx)
      rw [List.take_append_drop] at hold
      have hnew := nodeSize_append (es.take idx) (⟨0, key, val⟩ :: es.drop idx)
      rw [nodeSize_cons] at hnew
      have hfit : nodeSize (es.take idx ++ ⟨0, key, val⟩ :: es.drop idx)
          ≤ 2 * btreePageSize := by
        simp only [btreeMaxKeySize, btreeMaxValSize, btreePageSize, Entry.size] at *
        omega
      refine ⟨hfit, by simp [Filling.entries], ?_⟩
      rw [← List.take_append_drop idx es] at hnode
      obtain ⟨new, hnew, henc⟩ := leafInsert_encodes (make (2 * btreePageSize)) key val hnode
        hbuf (by rw [length_make]; exact hfit)
      rw [List.length_take_of_le hidx] at hnew
      rw [Filling.run, hnew]
      exact Meets.ok ⟨_, rfl, henc⟩
  | update idx key val =>
      obtain ⟨hidx, hkey, hval⟩ := hf
      obtain ⟨e, hes⟩ := around_getElem hidx
      have hold := nodeSize_append (es.take idx) (e :: es.drop (idx + 1))
      rw [← hes, nodeSize_cons] at hold
      have hnew := nodeSize_append (es.take idx) (⟨0, key, val⟩ :: es.drop (idx + 1))
      rw [nodeSize_cons] at hnew
      have hfit : nodeSize (es.take idx ++ ⟨0, key, val⟩ :: es.drop (idx + 1))
          ≤ 2 * btreePageSize := by
        simp only [btreeMaxKeySize, btreeMaxValSize, btreePageSize, Entry.size] at *
        omega
      refine ⟨hfit, by simp [Filling.entries], ?_⟩
      rw [hes] at hnode
      obtain ⟨new, hnew, henc⟩ := leafUpdate_encodes (make (2 * btreePageSize)) key val hnode
        hbuf (by rw [length_make]; exact hfit)
      rw [List.length_take_of_le (Nat.le_of_lt hidx)] at hnew
      rw [Filling.run, hnew]
      exact Meets.ok ⟨_, rfl, henc⟩
  | replaceKid idx kids =>
      obtain ⟨hidx, hone, hthree, hkeys⟩ := hf
      obtain ⟨e, hes⟩ := around_getElem hidx
      have hold := nodeSize_append (es.take idx) (e :: es.drop (idx + 1))
      rw [← hes, nodeSize_cons] at hold
      have hkids : nodeSize (kids.map kidHead) ≤ header + 1014 * kids.length := by
        rw [nodeSize, List.length_map]
        have := kvSize_kids_le kids hkeys
        omega
      have hnew := nodeSize_append (es.take idx) (kids.map kidHead ++ es.drop (idx + 1))
      have hmid := nodeSize_append (kids.map kidHead) (es.drop (idx + 1))
      have hfit : nodeSize (es.take idx ++ (kids.map kidHead ++ es.drop (idx + 1)))
          ≤ 2 * btreePageSize := by
        simp only [btreePageSize] at *
        omega
      have hne : kids ≠ [] := List.ne_nil_of_length_pos hone
      refine ⟨hfit, by simp [Filling.entries, hne], ?_⟩
      rw [hes] at hnode
      have hrun := nodeReplaceKidN_encodes ops (make (2 * btreePageSize)) s hnode hbuf
        (fun kid hkid => (hkeys kid hkid).imp fun _ h => h.1)
        (by rw [length_make]; exact hfit)
      rw [List.length_take_of_le (Nat.le_of_lt hidx)] at hrun
      refine hrun.mono fun r hr => ?_
      obtain ⟨ks, hks, henc⟩ := hr
      refine ⟨_, ?_, henc⟩
      simp only [Filling.entries, List.map_append] at hks ⊢
      rw [hks]

/-- **Splitting a filled node is sound exactly if the cuts leave no part
larger than a page.** The node is filled from one that fits a page, at
any position, with a pair within the limits or with one to three kids
whose first keys are; unless the store refuses a page for a kid, the
filling returns, and then the sizes of the entries decide. -/
theorem splitSound_iff_splitsWell (s : σ) {node : BNode} {es : List Entry} (f : Filling)
    (hnode : Encodes node f.nodeType es) (hsize : nodeSize es ≤ btreePageSize)
    (hf : f.Admissible es) :
    Meets (Refusal ops) (f.run ops node s) fun r =>
      (SplitSound r.1 ↔ SplitsWell (f.entries es)) := by
  obtain ⟨hle, hne, hrun⟩ := Filling.run_encodes ops s f hnode hsize hf
  refine hrun.mono fun r hr => ?_
  obtain ⟨fs, hfs, henc⟩ := hr
  have hne' : fs ≠ [] := by
    intro hnil
    rw [hnil, List.map_nil, eq_comm, List.map_eq_nil_iff] at hfs
    exact hne hfs
  rw [splitSound_iff_of_encodes henc hne' (by rw [nodeSize_congr hfs]; exact hle)]
  exact ⟨fun h => h.congr hfs, fun h => h.congr hfs.symm⟩

end Fill

/-- Two values of 3000 bytes do not share a page; the cut between them
leaves two parts that fit. -/
theorem splitSound_iff_splitsWell_halves :
    ∃ node : BNode, Encodes node bnodeLeaf [⟨0, [0], make 3000⟩]
      ∧ Meets (Refusal memOps)
        ((Filling.insert 1 [1] (make 3000)).run memOps node MemStore.empty) fun r =>
          (SplitSound r.1 ↔ SplitsWell [⟨0, [0], make 3000⟩, ⟨0, [1], make 3000⟩]) := by
  have hsize : nodeSize [(⟨0, [0], make 3000⟩ : Entry)] = 3019 := by
    simp [nodeSize, Entry.size, length_make, header]
  obtain ⟨node, -, henc, -⟩ := build_encodes (make btreePageSize) bnodeLeaf
    [⟨0, [0], make 3000⟩] (by rw [length_make]; decide) (by decide)
    (by rw [hsize, length_make]; decide)
  refine ⟨node, henc, ?_⟩
  exact splitSound_iff_splitsWell memOps MemStore.empty (.insert 1 [1] (make 3000)) henc
    (by rw [hsize]; decide) ⟨Nat.le_refl 1, by decide, by rw [length_make]; decide⟩

/-- A value of 3000 bytes between one of 1000 and one of 2900: the half
is passed with the second entry, so the cut is behind the first, and the
other two, 5934 bytes, go to one page. -/
theorem unevenSplit_unsound :
    ∃ node new : BNode,
      Encodes node bnodeLeaf [⟨0, [0], make 1000⟩, ⟨0, [2], make 2900⟩]
        ∧ nbytes node = .ok 3934
        ∧ leafInsert (make (2 * btreePageSize)) node 1 [1] (make 3000) = .ok new
        ∧ ¬ SplitSound new := by
  have hold : nodeSize [(⟨0, [0], make 1000⟩ : Entry), ⟨0, [2], make 2900⟩] = 3934 := by
    simp [nodeSize, Entry.size, length_make, header]
  have htotal : nodeSize [(⟨0, [0], make 1000⟩ : Entry), ⟨0, [1], make 3000⟩,
      ⟨0, [2], make 2900⟩] = 6949 := by
    simp [nodeSize, Entry.size, length_make, header]
  have hright : nodeSize [(⟨0, [1], make 3000⟩ : Entry), ⟨0, [2], make 2900⟩] = 5934 := by
    simp [nodeSize, Entry.size, length_make, header]
  have hleft : nodeSize [(⟨0, [0], make 1000⟩ : Entry)] = 1019 := by
    simp [nodeSize, Entry.size, length_make, header]
  have hcut : IsCut (6949 / 2) [(⟨0, [0], make 1000⟩ : Entry), ⟨0, [1], make 3000⟩,
      ⟨0, [2], make 2900⟩] 1 := by
    refine ⟨by decide, by simp, Or.inl rfl, fun e he => ?_⟩
    obtain rfl : ⟨0, [1], make 3000⟩ = e := by simpa using he
    simp [Entry.size, length_make]
  obtain ⟨node, -, henc, -⟩ := build_encodes (make btreePageSize) bnodeLeaf
    [⟨0, [0], make 1000⟩, ⟨0, [2], make 2900⟩] (by rw [length_make]; decide) (by decide)
    (by rw [hold, length_make]; decide)
  have henc' : Encodes node bnodeLeaf ([⟨0, [0], make 1000⟩] ++ [⟨0, [2], make 2900⟩]) := henc
  obtain ⟨new, hnew, hencn⟩ := leafInsert_encodes (make (2 * btreePageSize)) [1] (make 3000)
    henc' (by rw [length_make]; decide) (by
      rw [List.singleton_append, htotal, length_make]
      decide)
  rw [List.singleton_append] at hencn
  refine ⟨node, new, henc, by rw [henc.nbytes, hold], hnew, ?_⟩
  rw [splitSound_iff_of_encodes hencn (by simp) (by rw [htotal]; decide)]
  intro hwell
  obtain ⟨parts, hparts, hfit⟩ := hwell
  cases hparts with
  | whole hle =>
      rw [htotal] at hle
      exact absurd hle (by decide)
  | once hover hc hle =>
      rw [htotal] at hc
      have hr := hfit _ (List.mem_cons_of_mem _ (List.mem_cons_self ..))
      rw [hc.unique hcut, List.drop_succ_cons, List.drop_zero, hright] at hr
      exact absurd hr (by decide)
  | twice hover hc hlt hcl =>
      rw [htotal] at hc
      rw [hc.unique hcut, List.take_succ_cons, List.take_zero, hleft] at hlt
      exact absurd hlt (by decide)

end Svacara.Btree
