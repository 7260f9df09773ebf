/-
Key comparison is the lexicographic order, and `nodeLookupLE` finds the
last entry that is not above a key.

The binary search folds "in front of every entry" and "at entry 0" into
the same index, so its spec is a split `L ++ e :: R` of the node: `R` is
strictly above the key, and `e` is at or below it unless `L` is empty.
-/
import Svacara.Btree.Proofs.Node

namespace Svacara.Btree

open Buf Outcome

-- ====================================================== comparison

theorem cmp_self (a : Bytes) : cmp a a = 0 := by
  induction a with
  | nil => rfl
  | cons x a ih => rw [cmp, if_neg (lt_irrefl x), if_neg (lt_irrefl x), ih]

/-- A smaller first argument gives -1. -/
theorem cmp_of_lt {a b : Bytes} (h : a < b) : cmp a b = -1 := by
  induction a generalizing b with
  | nil =>
      cases b with
      | nil => exact absurd h (lt_irrefl _)
      | cons y b => rfl
  | cons x a ih =>
      cases b with
      | nil => exact absurd h (List.not_lt_nil _)
      | cons y b =>
          rw [cmp]
          rcases List.cons_lt_cons_iff.mp h with hxy | ⟨rfl, hab⟩
          · rw [if_pos hxy]
          · rw [if_neg (lt_irrefl x), if_neg (lt_irrefl x), ih hab]

/-- A larger first argument gives 1. -/
theorem cmp_of_gt {a b : Bytes} (h : b < a) : cmp a b = 1 := by
  induction a generalizing b with
  | nil => exact absurd h (List.not_lt_nil _)
  | cons x a ih =>
      cases b with
      | nil => rfl
      | cons y b =>
          rw [cmp]
          rcases List.cons_lt_cons_iff.mp h with hyx | ⟨rfl, hba⟩
          · rw [if_neg (lt_asymm hyx), if_pos hyx]
          · rw [if_neg (lt_irrefl y), if_neg (lt_irrefl y), ih hba]

/-- A common front part does not decide. -/
theorem cmp_append_left (c a b : Bytes) : cmp (c ++ a) (c ++ b) = cmp a b := by
  induction c with
  | nil => rfl
  | cons x c ih =>
      rw [List.cons_append, List.cons_append, cmp, if_neg (lt_irrefl x),
        if_neg (lt_irrefl x), ih]

theorem cmp_eq_zero_iff {a b : Bytes} : cmp a b = 0 ↔ a = b := by
  rcases lt_trichotomy a b with h | rfl | h
  · simp [cmp_of_lt h, h.ne]
  · simp [cmp_self]
  · simp [cmp_of_gt h, h.ne']

theorem cmp_pos_iff {a b : Bytes} : 0 < cmp a b ↔ b < a := by
  rcases lt_trichotomy a b with h | rfl | h
  · simp [cmp_of_lt h, lt_asymm h]
  · simp [cmp_self]
  · simp [cmp_of_gt h, h]

theorem cmp_le_zero_iff {a b : Bytes} : cmp a b ≤ 0 ↔ a ≤ b := by
  rw [← not_lt, cmp_pos_iff, not_lt]

theorem zero_le_cmp_iff {a b : Bytes} : 0 ≤ cmp a b ↔ b ≤ a := by
  rcases lt_trichotomy a b with h | rfl | h
  · simp [cmp_of_lt h, h]
  · simp [cmp_self]
  · simp [cmp_of_gt h, h.le]

-- ========================================================== search

/-- Strictly increasing keys. -/
def SortedKeys (es : List Entry) : Prop :=
  es.Pairwise fun a b => a.key < b.key

theorem SortedKeys.lt {es : List Entry} {i j : Nat} {a b : Entry}
    (h : SortedKeys es) (hij : i < j) (ha : es[i]? = some a)
    (hb : es[j]? = some b) : a.key < b.key := by
  obtain ⟨hi, rfl⟩ := List.getElem?_eq_some_iff.mp ha
  obtain ⟨hj, rfl⟩ := List.getElem?_eq_some_iff.mp hb
  exact List.pairwise_iff_getElem.mp h i j hi hj hij

/-- The keys of a node, as the accessors read them. -/
structure Keyed (node : BNode) (ks : List Bytes) : Prop where
  count : nkeys node = .ok ks.length
  key : ∀ i k, ks[i]? = some k → getKey node i = .ok k

/-- A count takes two bytes. -/
theorem nkeys_lt {node : BNode} {n : Nat} (h : nkeys node = .ok n) : n < 65536 := by
  unfold nkeys uintAt at h
  split at h
  · next hlen =>
    cases h
    refine Nat.lt_of_lt_of_le (leNat_lt _) ?_
    exact Nat.pow_le_pow_right (by decide) (List.length_take_le 2 _)
  · cases h

theorem Encodes.keyed {buf : BNode} {ty : Nat} {es : List Entry} (h : Encodes buf ty es) :
    Keyed buf (es.map Entry.key) where
  count := by
    rw [List.length_map]
    exact Holds.nkeys h
  key i k hk := by
    rw [List.getElem?_map] at hk
    obtain ⟨e, he, rfl⟩ := Option.map_eq_some_iff.mp hk
    exact Holds.getKey h he

/-- `lo` separates the keys at or below `key` from those above. -/
structure Cut (ks : List Bytes) (key : Bytes) (lo hi : Nat) : Prop where
  below : ∀ j k, j < lo → ks[j]? = some k → k ≤ key
  above : ∀ j k, hi ≤ j → ks[j]? = some k → key < k

theorem getElem?_lt {ks : List Bytes} {i j : Nat} {a b : Bytes} (h : ks.Pairwise (· < ·))
    (hij : i < j) (ha : ks[i]? = some a) (hb : ks[j]? = some b) : a < b := by
  obtain ⟨hi, rfl⟩ := List.getElem?_eq_some_iff.mp ha
  obtain ⟨hj, rfl⟩ := List.getElem?_eq_some_iff.mp hb
  exact List.pairwise_iff_getElem.mp h i j hi hj hij

/-- The search loop narrows the window to a cut. The induction is on the
fuel, which bounds the window's width. -/
theorem lookupLoop_cut {node : BNode} {ks : List Bytes} (key : Bytes) (h : Keyed node ks)
    (hs : ks.Pairwise (· < ·)) :
    ∀ (fuel lo hi : Nat), hi - lo ≤ fuel → lo ≤ hi → hi ≤ ks.length →
      Cut ks key lo hi →
      ∃ c, lookupLoop node key fuel lo hi = .ok c ∧ c ≤ ks.length
        ∧ Cut ks key c c := by
  intro fuel
  induction fuel with
  | zero =>
      intro lo hi hw hle hn hc
      obtain rfl : lo = hi := by omega
      exact ⟨lo, rfl, hn, hc⟩
  | succ fuel ih =>
      intro lo hi hw hle hn hc
      have hsmall : ks.length < 65536 := nkeys_lt h.count
      rw [lookupLoop]
      by_cases hlt : lo < hi
      · rw [if_pos hlt, u16_of_lt (n := lo + (hi - lo) / 2) (by omega)]
        obtain ⟨k, hk⟩ : ∃ k, ks[lo + (hi - lo) / 2]? = some k :=
          ⟨_, List.getElem?_eq_getElem (by omega)⟩
        show ∃ c, (getKey node (lo + (hi - lo) / 2) >>= _) = .ok c ∧ _
        rw [h.key _ _ hk, ok_bind,
          u16_of_lt (n := lo + (hi - lo) / 2 + 1) (by omega)]
        by_cases hcmp : cmp k key ≤ 0
        · rw [if_pos hcmp]
          refine ih _ _ (by omega) (by omega) hn ⟨?_, hc.above⟩
          intro j f hj hf
          rcases Nat.lt_or_eq_of_le (Nat.le_of_lt_succ hj) with hj | rfl
          · exact (getElem?_lt hs hj hf hk).le.trans (cmp_le_zero_iff.mp hcmp)
          · rw [hk] at hf
            cases hf
            exact cmp_le_zero_iff.mp hcmp
        · rw [if_neg hcmp]
          refine ih _ _ (by omega) (by omega) (by omega) ⟨hc.below, ?_⟩
          have habove : key < k := not_le.mp (mt cmp_le_zero_iff.mpr hcmp)
          intro j f hj hf
          rcases Nat.lt_or_eq_of_le hj with hj | rfl
          · exact habove.trans (getElem?_lt hs hj hk hf)
          · rw [hk] at hf
            cases hf
            exact habove
      · rw [if_neg hlt]
        obtain rfl : lo = hi := by omega
        exact ⟨lo, rfl, hn, hc⟩

/-- The index found splits what a non-empty node lists: everything behind
it is above the key, and it is itself at or below unless it is the
first. -/
theorem nodeLookupLE_at {α : Type} (f : α → Bytes) {node : BNode} {xs : List α}
    (key : Bytes) (h : Keyed node (xs.map f)) (hs : xs.Pairwise fun a b => f a < f b)
    (hne : xs ≠ []) :
    ∃ L x R, xs = L ++ x :: R ∧ nodeLookupLE node key = .ok L.length
      ∧ (∀ r ∈ R, key < f r) ∧ (L = [] ∨ f x ≤ key) := by
  have hlen : (xs.map f).length = xs.length := List.length_map f
  obtain ⟨c, hc, hcn, hcut⟩ := lookupLoop_cut key h (List.pairwise_map.mpr hs)
    (xs.map f).length 0 (xs.map f).length (by omega) (by omega) (Nat.le_refl _)
    ⟨fun j k hj => absurd hj (Nat.not_lt_zero j), fun j k hj hk => by
      rw [List.getElem?_eq_none hj] at hk
      cases hk⟩
  have hpos : 0 < xs.length := List.length_pos_iff.mpr hne
  have hlt : (if c = 0 then 0 else c - 1) < xs.length := by
    split
    · exact hpos
    · omega
  refine ⟨xs.take (if c = 0 then 0 else c - 1), xs.get ⟨_, hlt⟩,
    xs.drop ((if c = 0 then 0 else c - 1) + 1), ?_, ?_, ?_, ?_⟩
  · rw [List.get_eq_getElem, List.getElem_cons_drop, List.take_append_drop]
  · rw [nodeLookupLE, h.count, ok_bind, hc, ok_bind, pure_eq_ok,
      List.length_take, Nat.min_eq_left (Nat.le_of_lt hlt)]
  · intro r hr
    obtain ⟨j, hj⟩ := List.getElem?_of_mem hr
    rw [List.getElem?_drop] at hj
    refine hcut.above _ _ ?_ (by rw [List.getElem?_map, hj]; rfl)
    split <;> omega
  · by_cases hc0 : c = 0
    · left
      rw [if_pos hc0, List.take_zero]
    · right
      rw [List.get_eq_getElem]
      refine hcut.below (c - 1) _ (by omega) ?_
      rw [List.getElem?_map, List.getElem?_eq_getElem (by omega)]
      simp only [if_neg hc0]
      rfl

/-- The same for a node in the page format. -/
theorem nodeLookupLE_split {buf : BNode} {ty : Nat} {es : List Entry}
    (key : Bytes) (h : Encodes buf ty es) (hs : SortedKeys es) (hne : es ≠ []) :
    ∃ L e R, es = L ++ e :: R ∧ nodeLookupLE buf key = .ok L.length
      ∧ (∀ r ∈ R, key < r.key) ∧ (L = [] ∨ e.key ≤ key) :=
  nodeLookupLE_at Entry.key key h.keyed hs hne

end Svacara.Btree
