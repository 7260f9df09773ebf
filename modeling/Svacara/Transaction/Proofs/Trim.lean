/-
Trimming the history never changes a verdict.

`Books` is what the manager's own bookkeeping amounts to: `ongoing` is
the versions of the unfinished transactions, and `minVer` is at or below
all of them. It follows that what `trimHistory` cuts off is older than
every unfinished transaction, now and later. A manager that does not
trim therefore has the same history with some such entries in front
(`Trims`), and the backward scan, which stops at the first entry that is
not newer than the transaction, never gets past them.
-/
import Svacara.Transaction.Proofs.Step

namespace Svacara.Transaction

variable {trim : Bool} {m m' : Manager} {tx tx' : Tx} {c : Call} {a : Answer}

-- ======================================================= the books

theorem leastVersion_le (vs : List Nat) : ∀ least,
    leastVersion least vs ≤ least ∧ ∀ v ∈ vs, leastVersion least vs ≤ v := by
  induction vs with
  | nil => exact fun least => ⟨Nat.le_refl _, fun v hv => absurd hv List.not_mem_nil⟩
  | cons u vs ih =>
      intro least
      obtain ⟨h₁, h₂⟩ := ih (if u < least then u else least)
      have hmin : (if u < least then u else least) ≤ least
          ∧ (if u < least then u else least) ≤ u := by
        split <;> omega
      rw [leastVersion]
      refine ⟨Nat.le_trans h₁ hmin.1, fun v hv => ?_⟩
      rcases List.mem_cons.mp hv with rfl | hv
      · exact Nat.le_trans h₁ hmin.2
      · exact h₂ v hv

/-- The bookkeeping of a manager with the given transactions. -/
structure Books (s : Sys) : Prop where
  version : s.manager.version = s.txs.length
  txVersion : ∀ (i : Nat) (tx : Tx), s.txs[i]? = some tx → tx.version = i + 1
  ongoing : ∀ v, v ∈ s.manager.ongoing
    ↔ ∃ (i : Nat) (tx : Tx), s.txs[i]? = some tx ∧ tx.version = v
      ∧ tx.finished = false
  minVer_ongoing : ∀ v ∈ s.manager.ongoing, s.manager.minVer ≤ v
  minVer_version : s.manager.minVer ≤ s.manager.version
  history : ∀ h ∈ s.manager.history, h.version ≤ s.manager.version

theorem Books.init (kv : Store) : Books (Sys.init kv) where
  version := rfl
  txVersion i tx h := by cases h
  ongoing v := by
    constructor
    · intro h
      cases h
    · intro ⟨i, tx, h, _⟩
      cases h
  minVer_ongoing v h := by cases h
  minVer_version := Nat.le_refl _
  history h hh := by cases hh

/-- How a call on a transaction moves the books: it leaves the set of
unfinished transactions alone, or it finishes this one. -/
structure Moves (m : Manager) (tx : Tx) (tx' : Tx) (m' : Manager) : Prop where
  version : m'.version = m.version
  txVersion : tx'.version = tx.version
  ongoing : (tx'.finished = tx.finished ∧ m'.ongoing = m.ongoing)
    ∨ (tx'.finished = true ∧ m'.ongoing = m.ongoing.filter (· ≠ tx.version))
  minVer : m'.minVer = m.minVer
    ∨ m'.minVer = leastVersion m'.version m'.ongoing
  history : ∀ h ∈ m'.history, h ∈ m.history ∨ h.version = tx.version

theorem finished_of_committed (tx : Tx) : Tx.finished { tx with committed := true } = true :=
  rfl

theorem finished_of_aborted (tx : Tx) : Tx.finished { tx with aborted := true } = true :=
  Bool.or_true _

theorem Change.moves (h : Change trim m tx c a tx' m') : Moves m tx tx' m' := by
  have hsame : ∀ h ∈ m.history, h ∈ m.history ∨ h.version = tx.version :=
    fun _ hh => Or.inl hh
  have happend : ∀ {ws : List KeyRange}, ∀ h ∈ m.history ++ [⟨tx.version, ws⟩],
      h ∈ m.history ∨ h.version = tx.version := by
    intro ws h hh
    rcases List.mem_append.mp hh with hh | hh
    · exact Or.inl hh
    · right
      rw [List.mem_singleton.mp hh]
  cases h with
  | get i key =>
      rw [get_snd]
      exact ⟨rfl, rfl, Or.inl ⟨rfl, rfl⟩, Or.inl rfl, hsame⟩
  | seek i key => exact ⟨rfl, rfl, Or.inl ⟨rfl, rfl⟩, Or.inl rfl, hsame⟩
  | set i key val => exact ⟨rfl, rfl, Or.inl ⟨rfl, rfl⟩, Or.inl rfl, hsame⟩
  | del i key => exact ⟨rfl, rfl, Or.inl ⟨rfl, rfl⟩, Or.inl rfl, hsame⟩
  | finished => exact ⟨rfl, rfl, Or.inl ⟨rfl, rfl⟩, Or.inl rfl, hsame⟩
  | conflict =>
      exact ⟨rfl, rfl, Or.inr ⟨finished_of_aborted tx, rfl⟩, Or.inl rfl, hsame⟩
  | empty =>
      exact ⟨rfl, rfl, Or.inr ⟨finished_of_committed tx, rfl⟩, Or.inr rfl, hsame⟩
  | failed => exact ⟨rfl, rfl, Or.inl ⟨rfl, rfl⟩, Or.inl rfl, happend⟩
  | done i ranges writes fails hfin hdet hsome kv happly m' hm' =>
      subst hm'
      cases trim with
      | false =>
          exact ⟨rfl, rfl, Or.inr ⟨finished_of_committed tx, rfl⟩, Or.inr rfl, happend⟩
      | true =>
          refine ⟨rfl, rfl, Or.inr ⟨finished_of_committed tx, rfl⟩, Or.inr rfl, ?_⟩
          exact fun h hh => happend h (List.mem_of_mem_drop hh)
  | abortFinished => exact ⟨rfl, rfl, Or.inl ⟨rfl, rfl⟩, Or.inl rfl, hsame⟩
  | abort =>
      exact ⟨rfl, rfl, Or.inr ⟨finished_of_aborted tx, rfl⟩, Or.inr rfl, hsame⟩

/-- The versions in `ongoing` after a call on transaction `i`. -/
theorem Books.ongoing_set {s : Sys} (hb : Books s) {i : Nat}
    (hi : s.txs[i]? = some tx) (hm : Moves s.manager tx tx' m') (v : Nat) :
    v ∈ m'.ongoing ↔ ∃ (j : Nat) (u : Tx), (s.txs.set i tx')[j]? = some u
      ∧ u.version = v ∧ u.finished = false := by
  have hvi := hb.txVersion i tx hi
  constructor
  · intro hv
    have hold : v ∈ s.manager.ongoing := by
      rcases hm.ongoing with ⟨-, heq⟩ | ⟨-, heq⟩
      · rwa [heq] at hv
      · rw [heq] at hv
        exact (List.mem_filter.mp hv).1
    obtain ⟨j, u, hj, hver, hfin⟩ := (hb.ongoing v).mp hold
    by_cases hji : j = i
    · subst hji
      rw [hi] at hj
      cases hj
      refine ⟨j, tx', getElem?_set_eq hi, hm.txVersion.trans hver, ?_⟩
      rcases hm.ongoing with ⟨heq, -⟩ | ⟨-, heq⟩
      · rw [heq, hfin]
      · rw [heq] at hv
        have := (List.mem_filter.mp hv).2
        rw [hver] at this
        simp at this
    · exact ⟨j, u, by rw [getElem?_set_of_ne hji]; exact hj, hver, hfin⟩
  · intro ⟨j, u, hj, hver, hfin⟩
    rcases getElem?_set_cases hi hj with ⟨rfl, rfl⟩ | ⟨hji, hj⟩
    · rcases hm.ongoing with ⟨heq, hong⟩ | ⟨heq, -⟩
      · rw [hong]
        rw [heq] at hfin
        exact (hb.ongoing v).mpr ⟨j, tx, hi, hm.txVersion.symm.trans hver, hfin⟩
      · rw [heq] at hfin
        cases hfin
    · have hold := (hb.ongoing v).mpr ⟨j, u, hj, hver, hfin⟩
      rcases hm.ongoing with ⟨-, heq⟩ | ⟨-, heq⟩
      · rwa [heq]
      · rw [heq]
        have hvj := hb.txVersion j u hj
        exact List.mem_filter.mpr ⟨hold, by simp; omega⟩

theorem Books.set {s : Sys} (hb : Books s) {i : Nat} (hi : s.txs[i]? = some tx)
    (hm : Moves s.manager tx tx' m') : Books ⟨m', s.txs.set i tx'⟩ where
  version := by
    rw [List.length_set, hm.version]
    exact hb.version
  txVersion j u hj := by
    rcases getElem?_set_cases hi hj with ⟨rfl, rfl⟩ | ⟨-, hj⟩
    · rw [hm.txVersion]
      exact hb.txVersion j tx hi
    · exact hb.txVersion j u hj
  ongoing := hb.ongoing_set hi hm
  minVer_ongoing v hv := by
    rcases hm.minVer with heq | heq
    · rw [heq]
      apply hb.minVer_ongoing
      rcases hm.ongoing with ⟨-, hong⟩ | ⟨-, hong⟩
      · rwa [← hong]
      · rw [hong] at hv
        exact (List.mem_filter.mp hv).1
    · rw [heq]
      exact (leastVersion_le _ _).2 v hv
  minVer_version := by
    rcases hm.minVer with heq | heq
    · rw [heq, hm.version]
      exact hb.minVer_version
    · rw [heq]
      exact (leastVersion_le _ _).1
  history h hh := by
    show h.version ≤ m'.version
    rw [hm.version]
    rcases hm.history h hh with hh | hh
    · exact hb.history h hh
    · rw [hh, hb.txVersion i tx hi, hb.version]
      exact (List.getElem?_eq_some_iff.mp hi).1

theorem Books.begin {s : Sys} (hb : Books s) (isolation : IsolationLevel) :
    Books ⟨(begin s.manager isolation).2,
      s.txs ++ [(begin s.manager isolation).1]⟩ where
  version := by
    rw [List.length_append, List.length_singleton, ← hb.version]
    rfl
  txVersion j u hj := by
    rcases getElem?_concat_cases hj with hj | ⟨rfl, rfl⟩
    · exact hb.txVersion j u hj
    · rw [← hb.version]
      rfl
  ongoing v := by
    constructor
    · intro hv
      rcases List.mem_cons.mp hv with rfl | hv
      · exact ⟨s.txs.length, _, List.getElem?_concat_length, rfl, rfl⟩
      · obtain ⟨j, u, hj, hver, hfin⟩ := (hb.ongoing v).mp hv
        exact ⟨j, u, by rw [List.getElem?_append_left
          (List.getElem?_eq_some_iff.mp hj).1]; exact hj, hver, hfin⟩
    · intro ⟨j, u, hj, hver, hfin⟩
      rcases getElem?_concat_cases hj with hj | ⟨rfl, rfl⟩
      · exact List.mem_cons_of_mem _ ((hb.ongoing v).mpr ⟨j, u, hj, hver, hfin⟩)
      · rw [← hver]
        exact List.mem_cons_self ..
  minVer_ongoing v hv := by
    have hle := hb.minVer_version
    rcases List.mem_cons.mp hv with rfl | hv
    · exact Nat.le_succ_of_le hle
    · exact hb.minVer_ongoing v hv
  minVer_version := Nat.le_succ_of_le hb.minVer_version
  history h hh := Nat.le_succ_of_le (hb.history h hh)

theorem Books.step {s : Sys} (hb : Books s) (trim : Bool) (c : Call) :
    Books (step trim s c).2 := by
  rcases step_cases trim s c with ⟨isolation, rfl⟩ | ⟨i, _, _, heq⟩
    | ⟨i, tx, a, tx', m', _, hi, hchange, heq⟩
  · exact hb.begin isolation
  · rw [heq]
    exact hb
  · rw [heq]
    exact hb.set hi hchange.moves

-- ======================================================== the scan

/-- Entries that are older than the transaction end the scan. -/
theorem scanConflicts_append {tx : Tx} {old : List CommittedTX}
    (hold : ∀ d ∈ old, d.version < tx.version) (recent : List CommittedTX) :
    scanConflicts tx (recent ++ old) = scanConflicts tx recent := by
  induction recent with
  | nil =>
      cases old with
      | nil => rfl
      | cons d old =>
          have hd := hold d (List.mem_cons_self ..)
          have hstop : versionBefore tx.version d.version = false := by
            simpa [versionBefore] using Nat.le_of_lt hd
          simp [scanConflicts, hstop]
  | cons h recent ih =>
      rw [List.cons_append, scanConflicts, scanConflicts, ih]

/-- A manager with `old` entries in front of its history. -/
def widen (old : List CommittedTX) (m : Manager) : Manager :=
  { m with history := old ++ m.history }

theorem detectConflicts_widen {old : List CommittedTX} (m : Manager)
    (hold : ∀ d ∈ old, d.version < tx.version) :
    detectConflicts (widen old m) tx = detectConflicts m tx := by
  unfold detectConflicts widen
  rw [List.reverse_append]
  exact scanConflicts_append (fun d hd => hold d (List.mem_reverse.mp hd)) _

theorem widen_widen (old cut : List CommittedTX) (m : Manager) :
    widen old (widen cut m) = widen (old ++ cut) m := by
  unfold widen
  rw [List.append_assoc]

/-- What is cut off is older than `minVer`. -/
theorem version_lt_of_mem_cut {minVer : Nat} {history : List CommittedTX}
    {d : CommittedTX} (hd : d ∈ history.take (trimCut minVer history)) :
    d.version < minVer := by
  unfold trimCut at hd
  cases hcut : history.findIdx? fun h => minVer ≤ h.version with
  | none =>
      rw [hcut] at hd
      exact absurd hd List.not_mem_nil
  | some cut =>
      rw [hcut] at hd
      obtain ⟨_, _, hbefore⟩ := List.findIdx?_eq_some_iff_getElem.mp hcut
      obtain ⟨j, hj, rfl⟩ := List.mem_take_iff_getElem.mp hd
      have hlt : j < cut := by
        rw [Option.getD_some] at hj
        omega
      simpa using hbefore j hlt

/-- Not trimming is trimming with the cut-off entries kept in front. -/
theorem widen_trimHistory (m : Manager) :
    widen (m.history.take (trimCut m.minVer m.history)) (trimHistory m) = m := by
  unfold widen trimHistory
  rw [List.take_append_drop]

-- ================================================== the simulation

/-- `Commit` without and with trimming. -/
theorem commit_widen {old : List CommittedTX} (m : Manager) (tx : Tx)
    (ranges writes : Visit Write) (fails : Nat → Bool)
    (hold : tx.finished = false → ∀ d ∈ old, d.version < tx.version) :
    ∃ cut, commit false (widen old m) tx ranges writes fails
        = ((commit true m tx ranges writes fails).1,
            (commit true m tx ranges writes fails).2.1,
            widen (old ++ cut) (commit true m tx ranges writes fails).2.2)
      ∧ ∀ d ∈ cut, d.version < (commit true m tx ranges writes fails).2.2.minVer := by
  have hnil : ∀ {v : Nat}, ∀ d ∈ ([] : List CommittedTX), d.version < v :=
    fun d hd => absurd hd List.not_mem_nil
  unfold commit
  by_cases hfin : tx.finished = true
  · rw [if_pos hfin, if_pos hfin]
    exact ⟨[], by rw [List.append_nil], hnil⟩
  · rw [if_neg hfin, if_neg hfin, detectConflicts_widen m (hold (by simpa using hfin))]
    by_cases hconf : serializable ≤ tx.isolation ∧ detectConflicts m tx = true
    · rw [if_pos hconf, if_pos hconf]
      exact ⟨[], by rw [List.append_nil]; rfl, hnil⟩
    · rw [if_neg hconf, if_neg hconf]
      by_cases hnone : tx.pending.entries.length = 0
      · rw [if_pos hnone, if_pos hnone]
        exact ⟨[], by rw [List.append_nil]; rfl, hnil⟩
      · rw [if_neg hnone, if_neg hnone]
        dsimp only
        have hkv : (widen old m).kv = m.kv := rfl
        rw [hkv]
        cases applyWrites fails 0 (writes.order tx.pending.entries) m.kv with
        | mk kv err =>
            cases err with
            | some e =>
                refine ⟨[], ?_, hnil⟩
                rw [List.append_nil]
                unfold widen
                rw [List.append_assoc]
            | none =>
                dsimp only
                rw [if_neg Bool.false_ne_true, if_pos rfl]
                -- the manager before the trimming, and what is cut off it
                let m₂ := updateMinVer (endOngoing { m with
                  kv := kv
                  history := m.history ++ [⟨tx.version,
                    (ranges.order tx.pending.entries).map fun w => ⟨w.1, w.1⟩⟩] } tx)
                refine ⟨m₂.history.take (trimCut m₂.minVer m₂.history), ?_,
                  fun d hd => version_lt_of_mem_cut hd⟩
                have hwide : widen (old ++ m₂.history.take (trimCut m₂.minVer m₂.history))
                    (trimHistory m₂) = widen old m₂ := by
                  rw [← widen_widen, widen_trimHistory]
                rw [hwide]
                unfold m₂ widen updateMinVer endOngoing
                rw [List.append_assoc]

/-- A call on a transaction, without and with trimming: the same answer
and transaction, and the histories differ by entries in front, the new
ones among them older than the manager's `minVer`. -/
theorem callOn_widen {old : List CommittedTX} (m : Manager) (tx : Tx) (c : Call)
    (hold : tx.finished = false → ∀ d ∈ old, d.version < tx.version) :
    ∃ cut, callOn false (widen old m) tx c
        = ((callOn true m tx c).1, (callOn true m tx c).2.1,
            widen (old ++ cut) (callOn true m tx c).2.2)
      ∧ ∀ d ∈ cut, d.version < (callOn true m tx c).2.2.minVer := by
  have hnil : ∀ d ∈ ([] : List CommittedTX), d.version < m.minVer :=
    fun d hd => absurd hd List.not_mem_nil
  cases c with
  | begin isolation =>
      exact ⟨[], by rw [List.append_nil]; rfl, hnil⟩
  | get i key => exact ⟨[], by rw [List.append_nil]; rfl, hnil⟩
  | seek i key => exact ⟨[], by rw [List.append_nil]; rfl, hnil⟩
  | set i key val => exact ⟨[], by rw [List.append_nil]; rfl, hnil⟩
  | del i key => exact ⟨[], by rw [List.append_nil]; rfl, hnil⟩
  | commit i ranges writes fails =>
      obtain ⟨cut, heq, hcut⟩ := commit_widen m tx ranges writes fails hold
      refine ⟨cut, ?_, hcut⟩
      unfold callOn
      dsimp only
      rw [heq]
  | abort i =>
      unfold callOn abort
      by_cases hfin : tx.finished = true
      · simp only [if_pos hfin]
        exact ⟨[], by rw [List.append_nil], hnil⟩
      · simp only [if_neg hfin]
        exact ⟨[], by rw [List.append_nil]; rfl, fun d hd => absurd hd List.not_mem_nil⟩

/-- The two managers side by side: `s` trims and `s'` does not. The
entries that `s'` has in front are older than every transaction that can
still commit. -/
structure Trims (s s' : Sys) : Prop where
  txs : s'.txs = s.txs
  manager : ∃ old, s'.manager = widen old s.manager
    ∧ ∀ d ∈ old, d.version ≤ s.manager.version
      ∧ ∀ (i : Nat) (tx : Tx), s.txs[i]? = some tx → tx.finished = false →
        d.version < tx.version

theorem Trims.init (kv : Store) : Trims (Sys.init kv) (Sys.init kv) :=
  ⟨rfl, [], rfl, fun _ hd => absurd hd List.not_mem_nil⟩

theorem Trims.begin {s s' : Sys} (h : Trims s s')
    (isolation : IsolationLevel) :
    Trims (step true s (.begin isolation)).2 (step false s' (.begin isolation)).2 := by
  obtain ⟨htxs, old, hm, hold⟩ := h
  refine ⟨?_, old, ?_, fun d hd => ⟨Nat.le_succ_of_le (hold d hd).1, ?_⟩⟩
  · show s'.txs ++ _ = s.txs ++ _
    rw [htxs, hm]
    rfl
  · show (Svacara.Transaction.begin s'.manager isolation).2 = _
    rw [hm]
    rfl
  · intro i tx hi hfin
    rcases getElem?_concat_cases hi with hi | ⟨rfl, rfl⟩
    · exact (hold d hd).2 i tx hi hfin
    · exact Nat.lt_succ_of_le (hold d hd).1

/-- An unfinished transaction was unfinished before the call, under the
same version. -/
theorem Moves.unfinished (h : Moves m tx tx' m') (hfin : tx'.finished = false) :
    tx.finished = false := by
  rcases h.ongoing with ⟨heq, -⟩ | ⟨heq, -⟩
  · rwa [heq] at hfin
  · rw [heq] at hfin
    cases hfin

theorem Trims.call {s s' : Sys} (h : Trims s s') (hb : Books s) {i : Nat}
    (hc : c.tx = some i) :
    (step true s c).1 = (step false s' c).1
      ∧ Trims (step true s c).2 (step false s' c).2 := by
  obtain ⟨htxs, old, hm, hold⟩ := h
  have hbooks : Books (step true s c).2 := hb.step true c
  rw [step_of_tx true s hc] at hbooks ⊢
  rw [step_of_tx false s' hc, htxs]
  cases hi : s.txs[i]? with
  | none => exact ⟨rfl, htxs, old, hm, hold⟩
  | some tx =>
      rw [hi] at hbooks
      dsimp only at hbooks ⊢
      have hmoves := (callOn_change true s.manager tx hc).moves
      obtain ⟨cut, heq, hcut⟩ := callOn_widen s.manager tx c fun hfin d hd =>
        (hold d hd).2 i tx hi hfin
      rw [hm, heq]
      refine ⟨rfl, rfl, old ++ cut, rfl, fun d hd => ?_⟩
      rcases List.mem_append.mp hd with hd | hd
      · refine ⟨?_, fun j u hj hfin => ?_⟩
        · show d.version ≤ (callOn true s.manager tx c).2.2.version
          rw [hmoves.version]
          exact (hold d hd).1
        · rcases getElem?_set_cases hi hj with ⟨rfl, rfl⟩ | ⟨-, hj⟩
          · rw [hmoves.txVersion]
            exact (hold d hd).2 j tx hi (hmoves.unfinished hfin)
          · exact (hold d hd).2 j u hj hfin
      · -- what was cut off now is below `minVer`, and `minVer` is below
        -- everything unfinished
        have hlt := hcut d hd
        refine ⟨Nat.le_trans (Nat.le_of_lt hlt) hbooks.minVer_version, ?_⟩
        intro j u hj hfin
        exact Nat.lt_of_lt_of_le hlt (hbooks.minVer_ongoing _
          ((hbooks.ongoing _).mpr ⟨j, u, hj, rfl, hfin⟩))

/-- The two managers give the same answer and stay side by side. -/
theorem Trims.step {s s' : Sys} (h : Trims s s') (hb : Books s) (c : Call) :
    (step true s c).1 = (step false s' c).1
      ∧ Trims (step true s c).2 (step false s' c).2 := by
  cases hc : c.tx with
  | some i => exact h.call hb hc
  | none =>
      cases c with
      | begin isolation => exact ⟨rfl, h.begin isolation⟩
      | _ => cases hc

theorem Trims.verdict {s s' : Sys} (h : Trims s s') {i : Nat}
    (hi : s.txs[i]? = some tx) (hfin : tx.finished = false) :
    detectConflicts s'.manager tx = detectConflicts s.manager tx := by
  obtain ⟨-, old, hm, hold⟩ := h
  rw [hm]
  exact detectConflicts_widen _ fun d hd => (hold d hd).2 i tx hi hfin

-- ============================================================ runs

/-- A run of both managers: the books are in order, they stay side by
side, and what is observed is the same. -/
theorem trace_trims (kv : Store) (calls : List Call) :
    Books (trace true kv calls).1
      ∧ Trims (trace true kv calls).1 (trace false kv calls).1
      ∧ (trace true kv calls).2 = (trace false kv calls).2 := by
  induction calls using List.reverseRecOn with
  | nil => exact ⟨Books.init kv, Trims.init kv, rfl⟩
  | append_singleton calls c ih =>
      obtain ⟨hb, ht, hlog⟩ := ih
      obtain ⟨hanswer, hnext⟩ := ht.step hb c
      rw [trace_concat, trace_concat]
      refine ⟨hb.step true c, hnext, ?_⟩
      unfold tick
      rw [hanswer, hlog]

/-- All the versions that a state holds. -/
def Sys.versions (s : Sys) : List Nat :=
  s.manager.version :: s.manager.minVer :: (s.manager.ongoing
    ++ s.manager.history.map CommittedTX.version ++ s.txs.map Tx.version)

/-- None is above the number of the `Begin`s. -/
theorem Books.versions_le {s : Sys} (hb : Books s) : ∀ v ∈ s.versions, v ≤ s.txs.length := by
  have htx : ∀ tx ∈ s.txs, tx.version ≤ s.txs.length := by
    intro tx hmem
    obtain ⟨i, hi⟩ := List.mem_iff_getElem?.mp hmem
    rw [hb.txVersion i tx hi]
    exact (List.getElem?_eq_some_iff.mp hi).1
  simp only [Sys.versions, List.forall_mem_cons, List.forall_mem_append, List.forall_mem_map,
    ← hb.version]
  rw [← hb.version] at htx
  refine ⟨Nat.le_refl _, hb.minVer_version, ⟨fun v hv => ?_, hb.history⟩, htx⟩
  obtain ⟨i, tx, hi, rfl, -⟩ := (hb.ongoing v).mp hv
  exact htx tx (List.mem_of_getElem? hi)

/-- The versions of the source are `uint64`. Up to 2^64 - 1 transactions
the next one does not wrap, and comparing two of them is comparing the
naturals. -/
theorem versions_uint64 (trim : Bool) (kv : Store) (calls : List Call) :
    let s := (trace trim kv calls).1
    s.txs.length + 1 < 2 ^ 64 →
      (UInt64.ofNat s.manager.version + 1).toNat = s.manager.version + 1
        ∧ ∀ a ∈ s.versions, ∀ b ∈ s.versions,
          (UInt64.ofNat a < UInt64.ofNat b ↔ a < b)
            ∧ (UInt64.ofNat a = UInt64.ofNat b ↔ a = b) := by
  intro s hfew
  have hb : Books s := @trace_induction trim kv (fun _ _ => True) (fun x => Books x.1)
    (Books.init kv) (fun _ c hb _ => hb.step trim c) calls
    (along_of_forall (fun _ _ _ => trivial) _)
  have hlt : ∀ v ∈ s.versions, v < UInt64.size := fun v hv =>
    Nat.lt_of_le_of_lt (hb.versions_le v hv) (Nat.lt_of_succ_lt hfew)
  refine ⟨?_, fun a ha b hb => ⟨UInt64.ofNat_lt_iff_lt (hlt a ha) (hlt b hb), ?_⟩⟩
  · rw [← UInt64.ofNat_one, ← UInt64.ofNat_add, hb.version]
    exact UInt64.toNat_ofNat_of_lt' hfew
  · rw [← UInt64.toNat_inj, UInt64.toNat_ofNat_of_lt' (hlt a ha),
      UInt64.toNat_ofNat_of_lt' (hlt b hb)]

/-- In every run, `ongoing` is the versions of the transactions that are
neither committed nor aborted, `minVer` is at or below all of them and
the manager's version, and the manager that never trims its history
would have the same transactions, find the same conflicts and give the
same answer to whatever call comes next. -/
theorem trimming_keeps_verdicts (kv : Store) (calls : List Call) :
    let s := (trace true kv calls).1
    let s' := (trace false kv calls).1
    (∀ v, v ∈ s.manager.ongoing ↔ ∃ tx ∈ s.txs,
        tx.version = v ∧ tx.committed = false ∧ tx.aborted = false)
      ∧ (∀ v ∈ s.manager.ongoing, s.manager.minVer ≤ v)
      ∧ s.manager.minVer ≤ s.manager.version
      ∧ s'.txs = s.txs
      ∧ (∀ tx ∈ s.txs, tx.committed = false → tx.aborted = false →
        detectConflicts s'.manager tx = detectConflicts s.manager tx)
      ∧ ∀ c, (step false s' c).1 = (step true s c).1 := by
  intro s s'
  obtain ⟨hb, ht, -⟩ := trace_trims kv calls
  refine ⟨fun v => ?_, hb.minVer_ongoing, hb.minVer_version, ht.txs, ?_, fun c =>
    (ht.step hb c).1.symm⟩
  · rw [hb.ongoing v]
    constructor
    · intro ⟨i, tx, hi, hver, hfin⟩
      exact ⟨tx, List.mem_of_getElem? hi, hver, Bool.or_eq_false_iff.mp hfin⟩
    · intro ⟨tx, hmem, hver, hfin⟩
      obtain ⟨i, hi⟩ := List.mem_iff_getElem?.mp hmem
      exact ⟨i, tx, hi, hver, Bool.or_eq_false_iff.mpr hfin⟩
  · intro tx hmem hcom hab
    obtain ⟨i, hi⟩ := List.mem_iff_getElem?.mp hmem
    exact ht.verdict hi (Bool.or_eq_false_iff.mpr ⟨hcom, hab⟩)

end Svacara.Transaction
