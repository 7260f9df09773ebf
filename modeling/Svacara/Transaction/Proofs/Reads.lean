/-
When the recorded ranges cover what was observed.

Of an iterator's keys only the first can be out of its own range: it is
the greatest key not above the one sought, or the smallest, and all that
follow are above (`seek_tail`). So the observed keys are covered exactly
if each first key that lies before the one sought is in the range of some
call (`covered_iff_guarded`).
-/
import Svacara.Transaction.Proofs.Overlap
import Svacara.Lib.Outcome

namespace Svacara.Transaction

open SortedMap Kvstore Outcome

variable {σ : Type} {kv : Storage σ} {content : σ → List (Bytes × Bytes)} {s : σ}
  {x y : Reading} {done : List Look} {key k : Bytes}

-- ========================================================== ranges

/-- The conflict check sees a later write of a key that a recorded range
has, and of no other. -/
theorem rangesOverlap_point (reads : List KeyRange) (hkey : key ≠ []) :
    rangesOverlap reads [⟨key, key⟩] = true ↔ ∃ r ∈ reads, r.Has key := by
  have hlimit : (KeyRange.mk key key).limit = key := if_neg hkey
  rw [rangesOverlap_iff]
  refine exists_congr fun r => and_congr_right fun _ => ?_
  simp only [List.mem_singleton, exists_eq_left]
  rw [keyRangeOverlap_iff, hlimit, WithTop.coe_le_coe, r.has_iff]

/-- The range that a call records. -/
def Look.range : Look → Option KeyRange
  | .get key => some ⟨key, key⟩
  | .seek key => some ⟨key, []⟩
  | .next _ => none

theorem Look.guards_iff (c : Look) :
    c.Guards key ↔ ∃ r, c.range = some r ∧ r.Has key := by
  cases c with
  | get k =>
      constructor
      · rintro (rfl | rfl)
        · exact ⟨_, rfl, le_refl k, Or.inr (le_refl k)⟩
        · exact ⟨_, rfl, not_lt.mp (List.not_lt_nil _), Or.inl rfl⟩
      · rintro ⟨r, hr, hstart, hstop⟩
        cases hr
        rcases hstop with hnil | hle
        · exact Or.inr hnil
        · exact Or.inl (le_antisymm hstart hle)
  | seek k =>
      constructor
      · intro hle
        exact ⟨_, rfl, hle, Or.inl rfl⟩
      · rintro ⟨r, hr, hstart, -⟩
        cases hr
        exact hstart
  | next i => exact ⟨False.elim, fun ⟨_, hr, _⟩ => (nomatch hr)⟩

-- ======================================================= iterators

theorem seek_head (hkv : kv.IsOrdered content) (k : Bytes) :
    standsOn (kv.seek s k) = floorKey k (content s) := by
  rw [hkv.seek_eq]
  by_cases hne : content s = []
  · rw [hne]
    rfl
  · obtain ⟨A, e, B, heq, hB, hA⟩ := exists_floor_split (hkv.sorted s) hne k
    have hs := hkv.sorted s
    rw [heq] at hs ⊢
    rw [fromFloor_split hs hB hA, floorKey_split hs hB hA]
    rfl

/-- Behind its first key an iterator is above the key sought. -/
theorem seek_tail (hkv : kv.IsOrdered content) (k : Bytes) :
    AllGt k (kv.seek s k).tail := by
  rw [hkv.seek_eq]
  by_cases hne : content s = []
  · rw [hne]
    exact fun _ he => absurd he List.not_mem_nil
  · obtain ⟨A, e, B, heq, hB, hA⟩ := exists_floor_split (hkv.sorted s) hne k
    have hs := hkv.sorted s
    rw [heq] at hs ⊢
    rw [fromFloor_split hs hB hA]
    exact hB

-- ============================================================ runs

/-- A transaction after the calls `done`. -/
structure Reading.After (x : Reading) (content : List (Bytes × Bytes)) (done : List Look) :
    Prop where
  reads : x.tx.reads = done.filterMap Look.range
  iters : ∀ iter ∈ x.iters, ∃ k, .seek k ∈ done ∧ AllGt k iter.tail
  /-- A key outside the ranges is the first of an iterator. -/
  observed : ∀ key ∈ x.observed, (∃ c ∈ done, c.Guards key)
    ∨ ∃ k, .seek k ∈ done ∧ floorKey k content = some key ∧ key < k
  seeks : ∀ k first, .seek k ∈ done → floorKey k content = some first → first ∈ x.observed

theorem Reading.After.start (m : Manager) (isolation : IsolationLevel)
    (content : List (Bytes × Bytes)) : (Reading.start m isolation).After content [] where
  reads := rfl
  iters _ h := absurd h List.not_mem_nil
  observed _ h := absurd h List.not_mem_nil
  seeks _ _ h := absurd h List.not_mem_nil

theorem Reading.After.step (hkv : kv.IsOrdered content) (h : x.After (content s) done)
    {c : Look} (hstep : x.step kv s c = .ok y) : y.After (content s) (done ++ [c]) := by
  have hold : ∀ key ∈ x.observed, (∃ c' ∈ done ++ [c], c'.Guards key)
      ∨ ∃ k, .seek k ∈ done ++ [c] ∧ floorKey k (content s) = some key ∧ key < k := by
    intro key hkey
    rcases h.observed key hkey with ⟨c', hc', hg⟩ | ⟨k, hk, hrest⟩
    · exact Or.inl ⟨c', List.mem_append_left _ hc', hg⟩
    · exact Or.inr ⟨k, List.mem_append_left _ hk, hrest⟩
  have hiters : ∀ iter ∈ x.iters, ∃ k, .seek k ∈ done ++ [c] ∧ AllGt k iter.tail := by
    intro iter hiter
    obtain ⟨k, hk, htail⟩ := h.iters iter hiter
    exact ⟨k, List.mem_append_left _ hk, htail⟩
  cases c with
  | get key =>
      cases hstep
      refine ⟨?_, hiters, ?_, ?_⟩
      · show (x.tx.get (kv.get s) key).2.reads = _
        rw [get_snd, List.filterMap_append, ← h.reads]
        rfl
      · intro key' hkey'
        rcases List.mem_append.mp hkey' with hkey' | hkey'
        · exact hold key' hkey'
        · rw [List.mem_singleton.mp hkey']
          exact Or.inl ⟨.get key, List.mem_append_right _ (List.mem_singleton.mpr rfl),
            Or.inl rfl⟩
      · intro k first hk hfirst
        rcases List.mem_append.mp hk with hk | hk
        · exact List.mem_append_left _ (h.seeks k first hk hfirst)
        · cases List.mem_singleton.mp hk
  | seek key =>
      cases hstep
      have hmem : Look.seek key ∈ done ++ [.seek key] :=
        List.mem_append_right _ (List.mem_singleton.mpr rfl)
      refine ⟨?_, ?_, ?_, ?_⟩
      · rw [List.filterMap_append, ← h.reads]
        rfl
      · intro iter hiter
        rcases List.mem_append.mp hiter with hiter | hiter
        · exact hiters iter hiter
        · rw [List.mem_singleton.mp hiter]
          exact ⟨key, hmem, seek_tail hkv key⟩
      · intro key' hkey'
        rcases List.mem_append.mp hkey' with hkey' | hkey'
        · exact hold key' hkey'
        · rw [seek_head hkv, Option.mem_toList] at hkey'
          rcases lt_or_ge key' key with hlt | hge
          · exact Or.inr ⟨key, hmem, hkey', hlt⟩
          · exact Or.inl ⟨.seek key, hmem, hge⟩
      · intro k first hk hfirst
        rcases List.mem_append.mp hk with hk | hk
        · exact List.mem_append_left _ (h.seeks k first hk hfirst)
        · cases List.mem_singleton.mp hk
          refine List.mem_append_right _ ?_
          rw [seek_head hkv, Option.mem_toList]
          exact hfirst
  | next i =>
      rw [Reading.step] at hstep
      split at hstep
      · next e rest hi =>
          cases hstep
          obtain ⟨k, hk, htail⟩ := h.iters _ (List.mem_of_getElem? hi)
          have hk' := List.mem_append_left [Look.next i] hk
          refine ⟨?_, ?_, ?_, ?_⟩
          · rw [List.filterMap_append, ← h.reads]
            exact (List.append_nil _).symm
          · intro iter hiter
            rcases List.mem_or_eq_of_mem_set hiter with hiter | rfl
            · exact hiters iter hiter
            · exact ⟨k, hk', fun e he => htail e (List.mem_of_mem_tail he)⟩
          · intro key hkey
            rcases List.mem_append.mp hkey with hkey | hkey
            · exact hold key hkey
            · rw [Option.mem_toList, standsOn, Option.map_eq_some_iff] at hkey
              obtain ⟨e', he', rfl⟩ := hkey
              refine Or.inl ⟨.seek k, hk', ?_⟩
              exact (htail e' (List.mem_of_mem_head? he')).le
          · intro k first hk hfirst
            rcases List.mem_append.mp hk with hk | hk
            · exact List.mem_append_left _ (h.seeks k first hk hfirst)
            · cases List.mem_singleton.mp hk
      · cases hstep

theorem Reading.After.run (hkv : kv.IsOrdered content) {looks : List Look}
    (h : x.After (content s) done) (hrun : x.run kv s looks = .ok y) :
    y.After (content s) (done ++ looks) := by
  induction looks generalizing x done with
  | nil =>
      cases hrun
      rwa [List.append_nil]
  | cons c looks ih =>
      obtain ⟨z, hstep, hrun⟩ := bind_eq_ok.mp hrun
      have hz := ih (h.step hkv hstep) hrun
      rwa [List.append_assoc, List.singleton_append] at hz

/-- The recorded ranges have every observed key exactly if each key that
an iterator started on before the one sought is guarded. -/
theorem covered_iff_guarded (hkv : kv.IsOrdered content) (m : Manager)
    (isolation : IsolationLevel) (looks : List Look)
    (hrun : (Reading.start m isolation).run kv s looks = .ok x) :
    x.Covered ↔ Guarded (content s) looks := by
  have hafter := (Reading.After.start m isolation (content s)).run hkv hrun
  rw [List.nil_append] at hafter
  have hreads : ∀ key, (∃ r ∈ x.tx.reads, r.Has key) ↔ ∃ c ∈ looks, c.Guards key := by
    intro key
    rw [hafter.reads]
    constructor
    · rintro ⟨r, hr, hhas⟩
      obtain ⟨c, hc, hrange⟩ := List.mem_filterMap.mp hr
      exact ⟨c, hc, c.guards_iff.mpr ⟨r, hrange, hhas⟩⟩
    · rintro ⟨c, hc, hg⟩
      obtain ⟨r, hrange, hhas⟩ := c.guards_iff.mp hg
      exact ⟨r, List.mem_filterMap.mpr ⟨c, hc, hrange⟩, hhas⟩
  constructor
  · intro hcov k before hk hfloor _
    exact (hreads before).mp (hcov before (hafter.seeks k before hk hfloor))
  · intro hguard key hkey
    rw [hreads]
    rcases hafter.observed key hkey with hg | ⟨k, hk, hfloor, hlt⟩
    · exact hg
    · exact hguard k key hk hfloor hlt

/-- A store with one entry. -/
def oneEntry : Memory := ⟨[([1], [9])], List.pairwise_singleton _ _⟩

/-- A `Get` of the key that the iterator starts on. -/
theorem covered_iff_guarded_get : ∃ x,
    (Reading.start (newManager fun _ => none) serializable).run memory oneEntry
        [.seek [2], .get [1]] = .ok x
      ∧ x.observed = [[1], [1]] ∧ x.Covered := by
  refine ⟨_, rfl, rfl, ?_⟩
  refine (covered_iff_guarded memory_isOrdered _ _ [.seek [2], .get [1]] rfl).mpr ?_
  intro k before hk hfloor _
  rcases List.mem_cons.mp hk with hk | hk
  · cases hk
    have hbefore : before = [1] := by
      have hone : floorKey [2] oneEntry.1 = some [1] := by decide
      exact Option.some.inj (hfloor.symm.trans hone)
    exact ⟨.get [1], by simp, Or.inl hbefore.symm⟩
  · cases List.mem_singleton.mp hk

/-- The iterator stands on the key 1, the recorded range starts at 2, and
a later write of 1 is not a conflict. -/
theorem seek_observes_unrecorded : ∃ x,
    (Reading.start (newManager fun _ => none) serializable).run memory oneEntry [.seek [2]]
        = .ok x
      ∧ x.observed = [[1]] ∧ x.tx.reads = [⟨[2], []⟩] ∧ ¬ x.Covered
      ∧ rangesOverlap x.tx.reads [⟨[1], [1]⟩] = false := by
  have hnone : ¬ ∃ r ∈ [(⟨[2], []⟩ : KeyRange)], r.Has [1] := by
    rintro ⟨r, hr, hhas⟩
    cases List.mem_singleton.mp hr
    exact absurd hhas.1 (by decide)
  refine ⟨_, rfl, rfl, rfl, fun hcov => hnone (hcov [1] (List.mem_singleton.mpr rfl)), ?_⟩
  exact Bool.eq_false_iff.mpr fun h =>
    hnone ((rangesOverlap_point _ (List.cons_ne_nil _ _)).mp h)

end Svacara.Transaction
