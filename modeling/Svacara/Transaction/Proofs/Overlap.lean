/-
The conflict check compares the right bounds.

A range is an interval of keys whose upper bound may be absent, and an
empty `stop` says that it is. With the absent bound read as the top of
`WithTop Bytes`, bounded and unbounded ranges are of one kind, and
`keyRangeOverlap` asks that each range starts no later than the other
stops. Of two ranges that are not empty themselves that is all there is
to ask: the greater of the two starts is then in both.

The ranges that the package records are never empty: `Get` and `Commit`
record single keys and `Seek` a range without a stop. So the check is
exact in every run.
-/
import Svacara.Transaction.Reads
import Svacara.Transaction.Proofs.Step
import Svacara.Btree.Proofs.Search
import Mathlib.Order.WithBot

namespace Svacara.Transaction

-- ======================================================= intervals

section Intervals

variable {α : Type*} [LinearOrder α] {a b : α} {s t : WithTop α}

/-- Two intervals that are not empty meet exactly if each starts no later
than the other stops. -/
theorem exists_mem_both_iff (has : ↑a ≤ s) (hbt : ↑b ≤ t) :
    (∃ k : α, (a ≤ k ∧ ↑k ≤ s) ∧ b ≤ k ∧ ↑k ≤ t) ↔ ↑a ≤ t ∧ ↑b ≤ s := by
  constructor
  · intro ⟨k, ⟨hak, hks⟩, hbk, hkt⟩
    constructor
    · exact le_trans (WithTop.coe_le_coe.mpr hak) hkt
    · exact le_trans (WithTop.coe_le_coe.mpr hbk) hks
  · intro ⟨hat, hbs⟩
    have hmax : ∀ {u : WithTop α}, ↑a ≤ u → ↑b ≤ u → ↑(max a b) ≤ u := by
      intro u ha hb
      rw [WithTop.coe_max]
      exact max_le ha hb
    exact ⟨max a b, ⟨le_max_left a b, hmax has hbs⟩, le_max_right a b, hmax hat hbt⟩

end Intervals

-- ========================================================== ranges

/-- The upper bound of a range; an empty `stop` is none. -/
def KeyRange.limit (r : KeyRange) : WithTop Bytes :=
  if r.stop = [] then ⊤ else r.stop

/-- The keys of a range, as `CompareKeys` orders them. -/
def KeyRange.keys (r : KeyRange) : Set Bytes :=
  { k | Btree.compareKeys r.start k ≤ 0
    ∧ (r.stop = [] ∨ Btree.compareKeys k r.stop ≤ 0) }

/-- A range that has a stop does not start behind it. -/
def KeyRange.Ordered (r : KeyRange) : Prop :=
  r.stop ≠ [] → Btree.compareKeys r.start r.stop ≤ 0

instance : DecidablePred KeyRange.Ordered := fun r =>
  inferInstanceAs (Decidable (r.stop ≠ [] → Btree.compareKeys r.start r.stop ≤ 0))

theorem KeyRange.le_limit_iff (r : KeyRange) (k : Bytes) :
    ↑k ≤ r.limit ↔ r.stop = [] ∨ k ≤ r.stop := by
  rw [KeyRange.limit]
  split
  · next hnil => exact iff_of_true le_top (Or.inl hnil)
  · next hstop => rw [WithTop.coe_le_coe, or_iff_right hstop]

theorem KeyRange.has_iff (r : KeyRange) (k : Bytes) :
    r.Has k ↔ r.start ≤ k ∧ ↑k ≤ r.limit := by
  rw [KeyRange.Has, r.le_limit_iff]

theorem KeyRange.mem_keys_iff (r : KeyRange) (k : Bytes) : k ∈ r.keys ↔ r.Has k := by
  show _ ≤ (0 : Int) ∧ _ ↔ _
  rw [Btree.compareKeys, Btree.compareKeys, Btree.cmp_le_zero_iff, Btree.cmp_le_zero_iff]
  rfl

theorem KeyRange.ordered_iff (r : KeyRange) : r.Ordered ↔ ↑r.start ≤ r.limit := by
  rw [KeyRange.Ordered, Btree.compareKeys, Btree.cmp_le_zero_iff, r.le_limit_iff,
    or_iff_not_imp_left]

/-- One of the two comparisons of `keyRangeOverlap`. -/
theorem KeyRange.before_iff (r : KeyRange) (k : Bytes) :
    (0 < r.stop.length ∧ 0 < Btree.compareKeys k r.stop) ↔ ¬ ↑k ≤ r.limit := by
  rw [Btree.compareKeys, Btree.cmp_pos_iff, List.length_pos_iff, r.le_limit_iff, not_or, not_le]

theorem keyRangeOverlap_iff (a b : KeyRange) :
    keyRangeOverlap a b = true ↔ ↑a.start ≤ b.limit ∧ ↑b.start ≤ a.limit := by
  rw [keyRangeOverlap]
  simp only [b.before_iff, a.before_iff]
  by_cases hab : ↑a.start ≤ b.limit
  · by_cases hba : ↑b.start ≤ a.limit
    · simp [hab, hba]
    · simp [hab, hba]
  · simp [hab]

theorem keyRangeOverlap_ordered {a b : KeyRange} (ha : a.Ordered) (hb : b.Ordered) :
    keyRangeOverlap a b = true ↔ ∃ k, k ∈ a.keys ∧ k ∈ b.keys := by
  rw [keyRangeOverlap_iff,
    ← exists_mem_both_iff (a.ordered_iff.mp ha) (b.ordered_iff.mp hb)]
  refine exists_congr fun k => ?_
  rw [a.mem_keys_iff, b.mem_keys_iff, a.has_iff, b.has_iff]

-- ================================================= lists of ranges

theorem rangesOverlap_iff (reads writes : List KeyRange) :
    rangesOverlap reads writes = true
      ↔ ∃ r ∈ reads, ∃ w ∈ writes, keyRangeOverlap r w = true := by
  rw [rangesOverlap, List.any_eq_true]
  simp only [List.any_eq_true]

/-- The test of two lists of ranges is exact. -/
theorem rangesOverlap_exact (reads writes : List KeyRange)
    (hreads : ∀ r ∈ reads, r.Ordered) (hwrites : ∀ w ∈ writes, w.Ordered) :
    rangesOverlap reads writes = true
      ↔ ∃ k, (∃ r ∈ reads, k ∈ r.keys) ∧ ∃ w ∈ writes, k ∈ w.keys := by
  rw [rangesOverlap_iff]
  constructor
  · intro ⟨r, hr, w, hw, hover⟩
    obtain ⟨k, hrk, hwk⟩ := (keyRangeOverlap_ordered (hreads r hr) (hwrites w hw)).mp hover
    exact ⟨k, ⟨r, hr, hrk⟩, w, hw, hwk⟩
  · intro ⟨k, ⟨r, hr, hrk⟩, w, hw, hwk⟩
    refine ⟨r, hr, w, hw, ?_⟩
    rw [keyRangeOverlap_ordered (hreads r hr) (hwrites w hw)]
    exact ⟨k, hrk, hwk⟩

/-- A seek from `b` on and a read of `a` against a write of `c`. -/
theorem rangesOverlap_exact_seek :
    ∃ k, (∃ r ∈ [KeyRange.mk [97] [97], ⟨[98], []⟩], k ∈ r.keys)
      ∧ ∃ w ∈ [KeyRange.mk [99] [99]], k ∈ w.keys := by
  apply (rangesOverlap_exact _ _ ?_ ?_).mp
  · decide
  · decide
  · decide

-- ============================================================ runs

theorem scanConflicts_iff (tx : Tx) (history : List CommittedTX) :
    scanConflicts tx history = true
      ↔ ∃ h ∈ history.takeWhile fun h => versionBefore tx.version h.version,
        rangesOverlap tx.reads h.writes = true := by
  induction history with
  | nil => simp [scanConflicts]
  | cons h rest ih =>
      rw [scanConflicts, List.takeWhile_cons]
      by_cases hyounger : versionBefore tx.version h.version = true
      · by_cases hover : rangesOverlap tx.reads h.writes = true
        · simp [hyounger, hover]
        · simp [hyounger, hover, ih]
      · simp [hyounger]

theorem KeyRange.ordered_point (k : Bytes) : (KeyRange.mk k k).Ordered := by
  intro _
  rw [Btree.compareKeys, Btree.cmp_self]

theorem KeyRange.ordered_unbounded (k : Bytes) : (KeyRange.mk k []).Ordered := by
  intro hstop
  exact absurd rfl hstop

def Tx.ReadsOrdered (tx : Tx) : Prop := ∀ r ∈ tx.reads, r.Ordered

def Manager.WritesOrdered (m : Manager) : Prop :=
  ∀ h ∈ m.history, ∀ w ∈ h.writes, w.Ordered

variable {trim : Bool} {m m' : Manager} {tx tx' : Tx} {c : Call} {a : Answer}

theorem Tx.ReadsOrdered.concat (h : tx.ReadsOrdered) {r : KeyRange} (hr : r.Ordered) :
    ∀ r' ∈ tx.reads ++ [r], r'.Ordered := by
  intro r' hr'
  rcases List.mem_append.mp hr' with hr' | hr'
  · exact h r' hr'
  · rw [List.mem_singleton.mp hr']
    exact hr

/-- The entry that `Commit` appends has single keys only. -/
theorem Manager.WritesOrdered.concat (h : m.WritesOrdered) (version : Nat) (ws : List Write) :
    ∀ e ∈ m.history ++ [⟨version, ws.map fun w => ⟨w.1, w.1⟩⟩], ∀ w ∈ e.writes, w.Ordered := by
  intro e he w hw
  rcases List.mem_append.mp he with he | he
  · exact h e he w hw
  · rw [List.mem_singleton.mp he] at hw
    obtain ⟨x, -, rfl⟩ := List.mem_map.mp hw
    exact KeyRange.ordered_point x.1

theorem Change.readsOrdered (h : Change trim m tx c a tx' m') (ho : tx.ReadsOrdered) :
    tx'.ReadsOrdered := by
  cases h with
  | get i key =>
      rw [get_snd]
      exact ho.concat (KeyRange.ordered_point key)
  | seek i key => exact ho.concat (KeyRange.ordered_unbounded key)
  | _ => exact ho

theorem Change.writesOrdered (h : Change trim m tx c a tx' m') (ho : m.WritesOrdered) :
    m'.WritesOrdered := by
  cases h with
  | failed => exact ho.concat tx.version _
  | done i ranges writes fails hfin hdet hsome kv happly m' hm' =>
      subst hm'
      cases trim with
      | false => exact ho.concat tx.version _
      | true => exact fun e he => ho.concat tx.version _ e (List.mem_of_mem_drop he)
  | _ => exact ho

/-- All ranges that are recorded are ordered. -/
structure RangesOrdered (s : Sys) : Prop where
  reads : ∀ tx ∈ s.txs, tx.ReadsOrdered
  writes : s.manager.WritesOrdered

theorem rangesOrdered_step {s : Sys} (h : RangesOrdered s) (trim : Bool) (c : Call) :
    RangesOrdered (step trim s c).2 := by
  rcases step_cases trim s c with ⟨isolation, rfl⟩ | ⟨i, -, -, hstep⟩ |
      ⟨i, tx, a, tx', m', -, htx, hchange, hstep⟩
  · refine ⟨fun tx htx => ?_, h.writes⟩
    rcases List.mem_append.mp htx with htx | htx
    · exact h.reads tx htx
    · rw [List.mem_singleton.mp htx]
      exact fun r hr => absurd hr List.not_mem_nil
  · rw [hstep]
    exact h
  · rw [hstep]
    refine ⟨fun u hu => ?_, hchange.writesOrdered h.writes⟩
    rcases List.mem_or_eq_of_mem_set hu with hu | rfl
    · exact h.reads u hu
    · exact hchange.readsOrdered (h.reads tx (List.mem_of_getElem? htx))

theorem rangesOrdered_trace (trim : Bool) (kv : Store) (calls : List Call) :
    RangesOrdered (trace trim kv calls).1 := by
  have hinit : RangesOrdered (Sys.init kv) :=
    ⟨fun tx htx => absurd htx List.not_mem_nil, fun e he => absurd he List.not_mem_nil⟩
  have hstep : ∀ (x : Sys × Log) (c : Call), RangesOrdered x.1 → True →
      RangesOrdered (tick trim x c).1 := fun x c h _ => rangesOrdered_step h trim c
  apply trace_induction hinit hstep
  exact along_of_forall (fun _ _ _ => trivial) _

/-- In every run the check finds a conflict exactly if some key lies both
in a range that the transaction has read and in one that was written by
a younger transaction, with none but younger ones behind it in the
history. -/
theorem detectConflicts_trace {trim : Bool} {kv : Store} {calls : List Call} {s : Sys}
    (hs : (trace trim kv calls).1 = s) {i : Nat} (htx : s.txs[i]? = some tx) :
    detectConflicts s.manager tx = true
      ↔ ∃ e ∈ s.manager.history.reverse.takeWhile fun e => versionBefore tx.version e.version,
        ∃ r ∈ tx.reads, ∃ w ∈ e.writes, ∃ k, k ∈ r.keys ∧ k ∈ w.keys := by
  have ho : RangesOrdered s := hs ▸ rangesOrdered_trace trim kv calls
  rw [detectConflicts, scanConflicts_iff]
  refine exists_congr fun e => and_congr_right fun he => ?_
  have hmem : e ∈ s.manager.history :=
    List.mem_reverse.mp ((List.takeWhile_prefix _).subset he)
  rw [rangesOverlap_iff]
  refine exists_congr fun r => and_congr_right fun hr => ?_
  refine exists_congr fun w => and_congr_right fun hw => ?_
  exact keyRangeOverlap_ordered (ho.reads tx (List.mem_of_getElem? htx) r hr)
    (ho.writes e hmem w hw)

end Svacara.Transaction
