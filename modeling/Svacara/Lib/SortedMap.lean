/-
Finite maps as association lists in strictly increasing key order.

`ins` and `del` are stated by filtering, not by walking the list: an
insertion is the entries below the key, the new pair, the entries above.
On a list that is known to lie below or above the key each filter is the
identity or empty, so how an update passes through a concatenation
(`ins_append_left`, `ins_append_right`, `del_append`) needs no
induction, and neither does what an update does to `List.lookup`.
-/
import Mathlib.Order.Basic
import Mathlib.Data.List.Basic
import Mathlib.Data.List.Sort
import Mathlib.Tactic.Ring

namespace SortedMap

variable {κ β : Type _} [LinearOrder κ]

/-- Strictly increasing keys. -/
def Sorted (l : List (κ × β)) : Prop := l.Pairwise fun a b => a.1 < b.1

/-- Every key of `l` is smaller than `k`. -/
def AllLt (l : List (κ × β)) (k : κ) : Prop := ∀ e ∈ l, e.1 < k

/-- Every key of `l` is larger than `k`. -/
def AllGt (k : κ) (l : List (κ × β)) : Prop := ∀ e ∈ l, k < e.1

/-- Bind `k` to `v`. -/
def ins (k : κ) (v : β) (l : List (κ × β)) : List (κ × β) :=
  l.filter (fun e => e.1 < k) ++ (k, v) :: l.filter (fun e => k < e.1)

/-- Unbind `k`. -/
def del (k : κ) (l : List (κ × β)) : List (κ × β) :=
  l.filter fun e => e.1 ≠ k

/-- Where a search for `k` lands: the greatest key that is not above it,
or the smallest key if all are. -/
def floorKey (k : κ) (l : List (κ × β)) : Option κ :=
  ((l.filter fun e => e.1 ≤ k).getLast?.or l.head?).map Prod.fst

/-- The entries from there on. -/
def fromFloor (k : κ) (l : List (κ × β)) : List (κ × β) :=
  match floorKey k l with
  | none => []
  | some k₀ => l.filter fun e => k₀ ≤ e.1

variable {k : κ} {v : β} {l A B : List (κ × β)}

-- ================================================== filters by key

theorem AllLt.filter_lt (h : AllLt A k) :
    A.filter (fun e => e.1 < k) = A :=
  List.filter_eq_self.mpr fun e he => by simpa using h e he

theorem AllLt.filter_gt (h : AllLt A k) :
    A.filter (fun e => k < e.1) = [] :=
  List.filter_eq_nil_iff.mpr fun e he => by simpa using (h e he).le

theorem AllGt.filter_gt (h : AllGt k A) :
    A.filter (fun e => k < e.1) = A :=
  List.filter_eq_self.mpr fun e he => by simpa using h e he

theorem AllGt.filter_lt (h : AllGt k A) :
    A.filter (fun e => e.1 < k) = [] :=
  List.filter_eq_nil_iff.mpr fun e he => by simpa using (h e he).le

theorem AllLt.del (h : AllLt A k) : del k A = A :=
  List.filter_eq_self.mpr fun e he => by simpa using (h e he).ne

theorem AllGt.del (h : AllGt k A) : del k A = A :=
  List.filter_eq_self.mpr fun e he => by simpa using (h e he).ne'

-- ============================================= updates of a part

/-- An insertion passes over what lies below its key. -/
theorem ins_append_left (h : AllLt A k) : ins k v (A ++ B) = A ++ ins k v B := by
  unfold ins
  rw [List.filter_append, List.filter_append, h.filter_lt, h.filter_gt,
    List.nil_append, List.append_assoc]

/-- An insertion does not reach what lies above its key. -/
theorem ins_append_right (h : AllGt k B) : ins k v (A ++ B) = ins k v A ++ B := by
  unfold ins
  rw [List.filter_append, List.filter_append, h.filter_lt, h.filter_gt,
    List.append_nil, List.append_assoc, List.cons_append]

/-- A new key lands between its neighbours. -/
theorem ins_between (hA : AllLt A k) (hB : AllGt k B) :
    ins k v (A ++ B) = A ++ (k, v) :: B := by
  unfold ins
  rw [List.filter_append, List.filter_append, hA.filter_lt, hA.filter_gt,
    hB.filter_lt, hB.filter_gt, List.append_nil, List.nil_append]

/-- A key above all others goes to the end. -/
theorem ins_end (hA : AllLt A k) : ins k v A = A ++ [(k, v)] := by
  have h := ins_between (v := v) hA (B := []) fun _ he => absurd he List.not_mem_nil
  rwa [List.append_nil] at h

/-- A present key's pair is replaced. -/
theorem ins_replace {w : β} (hA : AllLt A k) (hB : AllGt k B) :
    ins k v (A ++ (k, w) :: B) = A ++ (k, v) :: B := by
  rw [ins_append_left hA]
  unfold ins
  rw [List.filter_cons_of_neg (by simp), List.filter_cons_of_neg (by simp),
    hB.filter_lt, hB.filter_gt, List.nil_append]

theorem del_append (k : κ) (A B : List (κ × β)) :
    del k (A ++ B) = del k A ++ del k B :=
  List.filter_append ..

/-- A present key's pair is taken out. -/
theorem del_between {w : β} (hA : AllLt A k) (hB : AllGt k B) :
    del k (A ++ (k, w) :: B) = A ++ B := by
  rw [del_append, hA.del]
  congr 1
  unfold del
  rw [List.filter_cons_of_neg (by simp)]
  exact hB.del

-- ======================================================== look-up

section Lookup

variable [BEq κ] [LawfulBEq κ]

/-- A filter on keys keeps or drops all of a key's entries. -/
theorem lookup_filter (p : κ → Bool) (l : List (κ × β)) (k : κ) :
    (l.filter fun e => p e.1).lookup k = if p k then l.lookup k else none := by
  induction l with
  | nil => simp
  | cons e l ih =>
      obtain ⟨a, b⟩ := e
      rw [List.filter_cons]
      by_cases hk : k = a
      · subst hk
        by_cases hp : p k
        · simp [hp]
        · simpa [hp] using ih
      · have hne : (k == a) = false := by simpa using hk
        by_cases hp : p a
        · simp only [hp, if_true, List.lookup_cons, hne]
          exact ih
        · simp only [hp, List.lookup_cons, hne]
          exact ih

/-- Only the inserted key's binding changes. -/
theorem lookup_ins (k' : κ) :
    (ins k v l).lookup k' = if k' = k then some v else l.lookup k' := by
  have hlt := lookup_filter (fun a => decide (a < k)) l k'
  have hgt := lookup_filter (fun a => decide (k < a)) l k'
  unfold ins
  rw [List.lookup_append, hlt, List.lookup_cons, hgt]
  rcases lt_trichotomy k' k with h | rfl | h
  · have hne : (k' == k) = false := by simpa using h.ne
    simp [h, h.ne, hne, not_lt.mpr h.le]
  · simp
  · have hne : (k' == k) = false := by simpa using h.ne'
    simp [h, h.ne', hne, not_lt.mpr h.le]

/-- Only the deleted key's binding goes. -/
theorem lookup_del (k' : κ) :
    (del k l).lookup k' = if k' = k then none else l.lookup k' := by
  have h := lookup_filter (fun a => decide (a ≠ k)) l k'
  unfold del
  rw [h]
  by_cases hk : k' = k <;> simp [hk]

theorem lookup_of_allLt (h : AllLt A k) : A.lookup k = none := by
  rw [List.lookup_eq_none_iff]
  intro e he
  simpa using (h e he).ne'

theorem lookup_of_allGt (h : AllGt k A) : A.lookup k = none := by
  rw [List.lookup_eq_none_iff]
  intro e he
  simpa using (h e he).ne

/-- Only the middle part can bind a key that lies between the others. -/
theorem lookup_middle {C : List (κ × β)} (hA : AllLt A k) (hC : AllGt k C) :
    (A ++ (B ++ C)).lookup k = B.lookup k := by
  rw [List.lookup_append, List.lookup_append, lookup_of_allLt hA,
    lookup_of_allGt hC, Option.none_or, Option.or_none]

/-- The pair at a key's place decides what the key is bound to. -/
theorem lookup_at (e : κ × β) (hA : AllLt A k) (hB : AllGt k B) :
    (A ++ e :: B).lookup k = if k = e.1 then some e.2 else none := by
  obtain ⟨a, b⟩ := e
  have hmid : (A ++ ([(a, b)] ++ B)).lookup k = [(a, b)].lookup k :=
    lookup_middle hA hB
  rw [List.singleton_append] at hmid
  rw [hmid, List.lookup_cons, List.lookup_nil]
  by_cases hk : k = a
  · simp [hk]
  · have hne : (k == a) = false := by simpa using hk
    simp [hk, hne]

/-- Unbinding a key that is not bound changes nothing. -/
theorem del_of_lookup_eq_none (h : l.lookup k = none) : del k l = l := by
  refine List.filter_eq_self.mpr fun e he => ?_
  have hne : k ≠ e.1 := by simpa using List.lookup_eq_none_iff.mp h e he
  simpa using hne.symm

end Lookup

-- ======================================================== order

/-- In a sorted list everything in front of an entry is below it. -/
theorem Sorted.allLt {w : β} (h : Sorted (A ++ (k, w) :: B)) : AllLt A k :=
  fun e he => (List.pairwise_append.mp h).2.2 e he _ (List.mem_cons_self ..)

/-- In a sorted list everything behind an entry is above it. -/
theorem Sorted.allGt {w : β} (h : Sorted ((k, w) :: B)) : AllGt k B :=
  fun e he => (List.pairwise_cons.mp h).1 e he

/-- A sorted list binds each of its keys to the value beside it. -/
theorem Sorted.lookup_of_mem [BEq κ] [LawfulBEq κ] (h : Sorted l) {e : κ × β} (he : e ∈ l) :
    l.lookup e.1 = some e.2 := by
  obtain ⟨A, B, rfl⟩ := List.append_of_mem he
  rw [lookup_at e h.allLt (Sorted.allGt (List.pairwise_append.mp h).2.1), if_pos rfl]

/-- What a sorted list binds, and nothing else, is in it. -/
theorem Sorted.mem_iff_lookup [BEq κ] [LawfulBEq κ] (h : Sorted l) (e : κ × β) :
    e ∈ l ↔ l.lookup e.1 = some e.2 := by
  refine ⟨fun he => h.lookup_of_mem he, fun he => ?_⟩
  obtain ⟨A, B, rfl, -⟩ := List.lookup_eq_some_iff.mp he
  simp

/-- Sorted lists are the maps they spell. -/
theorem Sorted.ext [BEq κ] [LawfulBEq κ] (hA : Sorted A) (hB : Sorted B)
    (h : ∀ k, A.lookup k = B.lookup k) : A = B := by
  have hirrefl : Std.Irrefl fun a b : κ × β => a.1 < b.1 := ⟨fun _ => lt_irrefl _⟩
  have hasymm : Std.Antisymm fun a b : κ × β => a.1 < b.1 :=
    ⟨fun _ _ hab hba => absurd hab hba.not_gt⟩
  apply List.Pairwise.eq_of_mem_iff hA hB
  intro e
  rw [hA.mem_iff_lookup, hB.mem_iff_lookup, h]

theorem sorted_ins (h : Sorted l) : Sorted (ins k v l) := by
  refine List.pairwise_append.mpr ⟨h.filter _, ?_, ?_⟩
  · refine List.pairwise_cons.mpr ⟨?_, h.filter _⟩
    intro e he
    simpa using (List.mem_filter.mp he).2
  · intro a ha b hb
    have hak : a.1 < k := by simpa using (List.mem_filter.mp ha).2
    rcases List.mem_cons.mp hb with rfl | hb
    · exact hak
    · exact hak.trans (by simpa using (List.mem_filter.mp hb).2)

theorem sorted_del (h : Sorted l) : Sorted (del k l) := h.filter _

/-- What an insertion can leave in the list. -/
theorem mem_ins {e : κ × β} (h : e ∈ ins k v l) : e = (k, v) ∨ e ∈ l := by
  rcases List.mem_append.mp h with h | h
  · exact Or.inr (List.mem_filter.mp h).1
  · rcases List.mem_cons.mp h with h | h
    · exact Or.inl h
    · exact Or.inr (List.mem_filter.mp h).1

/-- An insertion adds at most the weight of the new pair: every other
entry is kept once, or dropped. -/
theorem sum_ins_le (w : κ × β → Nat) (l : List (κ × β)) :
    ((ins k v l).map w).sum ≤ (l.map w).sum + w (k, v) := by
  have hkeep : ((l.filter fun e => e.1 < k).map w).sum
      + ((l.filter fun e => k < e.1).map w).sum ≤ (l.map w).sum := by
    induction l with
    | nil => simp
    | cons e l ih =>
        rw [List.map_cons, List.sum_cons]
        rcases lt_trichotomy e.1 k with h | h | h
        · rw [List.filter_cons_of_pos (by simpa using h),
            List.filter_cons_of_neg (by simpa using h.le), List.map_cons, List.sum_cons]
          omega
        · rw [List.filter_cons_of_neg (by simp [h]), List.filter_cons_of_neg (by simp [h])]
          omega
        · rw [List.filter_cons_of_neg (by simpa using h.le),
            List.filter_cons_of_pos (by simpa using h), List.map_cons, List.sum_cons]
          omega
  rw [ins, List.map_append, List.sum_append, List.map_cons, List.sum_cons]
  omega

theorem mem_of_mem_del {e : κ × β} (h : e ∈ del k l) : e ∈ l :=
  (List.mem_filter.mp h).1

-- ======================================================= the floor

/-- The entry with nothing but larger keys behind it, itself not above
`k` unless it is the first, is where the search lands. -/
theorem floorKey_split {e : κ × β} (hs : Sorted (A ++ e :: B)) (hB : AllGt k B)
    (hA : A = [] ∨ e.1 ≤ k) : floorKey k (A ++ e :: B) = some e.1 := by
  have hBnil : B.filter (fun e => e.1 ≤ k) = [] :=
    List.filter_eq_nil_iff.mpr fun b hb => by simpa using hB b hb
  unfold floorKey
  by_cases he : e.1 ≤ k
  · rw [List.filter_append, List.filter_cons_of_pos (by simpa using he), hBnil]
    simp
  · obtain rfl := hA.resolve_right he
    rw [List.nil_append, List.filter_cons_of_neg (by simpa using he), hBnil]
    simp

/-- A sorted list that is not empty splits where the search lands. -/
theorem exists_floor_split (hs : Sorted l) (hne : l ≠ []) (k : κ) :
    ∃ A e B, l = A ++ e :: B ∧ AllGt k B ∧ (A = [] ∨ e.1 ≤ k) := by
  induction l with
  | nil => exact absurd rfl hne
  | cons e l ih =>
      by_cases hle : ∃ b ∈ l, b.1 ≤ k
      · obtain ⟨b, hb, hbk⟩ := hle
        obtain ⟨A, e', B, rfl, hB, hA⟩ :=
          ih (List.pairwise_cons.mp hs).2 (List.ne_nil_of_mem hb)
        refine ⟨e :: A, e', B, rfl, hB, Or.inr ?_⟩
        rcases hA with rfl | hek
        · rcases List.mem_cons.mp hb with rfl | hb
          · exact hbk
          · exact absurd hbk (not_le.mpr (hB b hb))
        · exact hek
      · exact ⟨[], e, l, rfl, fun b hb => not_le.mp fun h => hle ⟨b, hb, h⟩, Or.inl rfl⟩

theorem mem_of_mem_fromFloor {e : κ × β} (h : e ∈ fromFloor k l) : e ∈ l := by
  unfold fromFloor at h
  split at h
  · cases h
  · exact (List.mem_filter.mp h).1

theorem fromFloor_split {e : κ × β} (hs : Sorted (A ++ e :: B)) (hB : AllGt k B)
    (hA : A = [] ∨ e.1 ≤ k) : fromFloor k (A ++ e :: B) = e :: B := by
  have hlt : AllLt A e.1 := hs.allLt
  have hgt : AllGt e.1 B := Sorted.allGt (List.pairwise_append.mp hs).2.1
  have hAnil : A.filter (fun a => e.1 ≤ a.1) = [] :=
    List.filter_eq_nil_iff.mpr fun a ha => by simpa using hlt a ha
  have hBself : B.filter (fun b => e.1 ≤ b.1) = B :=
    List.filter_eq_self.mpr fun b hb => by simpa using (hgt b hb).le
  unfold fromFloor
  rw [floorKey_split hs hB hA]
  dsimp only
  rw [List.filter_append, hAnil, List.nil_append,
    List.filter_cons_of_pos (by simp), hBself]

/-- A part of the entries is visited as the whole would be just when it
has all of those to be visited. -/
theorem fromFloor_filter_eq_iff (p : κ → Bool) (hs : Sorted l) :
    fromFloor k (l.filter fun e => p e.1) = fromFloor k l
      ↔ ∀ e ∈ fromFloor k l, p e.1 = true := by
  constructor
  · intro h e he
    rw [← h] at he
    exact (List.mem_filter.mp (mem_of_mem_fromFloor he)).2
  · intro h
    by_cases hne : l = []
    · simp [hne]
    · obtain ⟨A, e, B, rfl, hB, hA⟩ := exists_floor_split hs hne k
      rw [fromFloor_split hs hB hA] at h
      have hkeep : (e :: B).filter (fun e => p e.1) = e :: B := List.filter_eq_self.mpr h
      have hs' := hs.filter fun e => p e.1
      rw [List.filter_append, hkeep] at hs' ⊢
      rw [fromFloor_split hs hB hA, fromFloor_split hs' hB]
      rcases hA with rfl | hle
      · exact Or.inl rfl
      · exact Or.inr hle

end SortedMap
