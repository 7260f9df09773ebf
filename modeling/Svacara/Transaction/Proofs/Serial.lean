/-
Serializability.

A transaction that commits with all its reads still current can be
executed after the ones before it, so a run is serial as long as every
stale reader is refused. The conflict check does not refuse them all:
history entries carry the version of the `Begin` and stand in the order
of the `Commit`s, and the scan stops at the first one that is not newer
than the transaction, so a commit by an older transaction hides itself
and everything before it (`lost_update`). What the scan does find is a
conflict with a younger transaction that no older one has followed; in
the runs in which every stale reader is `Caught` so, everything is
serial (`serial_of_staleCaught`).

The history is followed in the manager that does not trim (`Recorded`),
where it is the list of all commits that wrote.
-/
import Svacara.Transaction.Proofs.Overlap
import Svacara.Transaction.Proofs.Product
import Svacara.Transaction.Proofs.Trim

namespace Svacara.Transaction

variable {m m' : Manager} {tx tx' : Tx} {c : Call} {a : Answer}
variable {i : Nat} {l l' : Log} {kv : Store}

-- ================================================ serial execution

theorem readsFrom_append (kv : Store) (es fs : List Event) :
    ReadsFrom kv (es ++ fs) ↔ ReadsFrom kv es ∧ ReadsFrom (after kv es) fs := by
  induction es generalizing kv with
  | nil => exact (iff_of_eq (true_and _)).symm
  | cons e es ih =>
      cases e with
      | get key val n =>
          refine (and_congr_right fun _ => ih kv).trans ?_
          exact and_assoc.symm
      | set key val => exact ih _
      | del key => exact ih _

theorem readAfter_concat (es pre : List Event) (e : Event) (k : Bytes)
    (val : Option Bytes) (n : Nat) :
    ReadAfter (es ++ [e]) pre k val n
      ↔ ReadAfter es pre k val n ∨ (pre = es ∧ e = .get k val n) := by
  constructor
  · intro ⟨post, heq⟩
    rcases List.eq_nil_or_concat post with rfl | ⟨post, last, rfl⟩
    · obtain ⟨hes, he⟩ := List.append_inj' heq rfl
      cases he
      exact Or.inr ⟨hes.symm, rfl⟩
    · rw [List.concat_eq_append, ← List.cons_append, ← List.append_assoc] at heq
      exact Or.inl ⟨post, (List.append_inj' heq rfl).1⟩
  · intro h
    rcases h with ⟨post, rfl⟩ | ⟨rfl, rfl⟩
    · exact ⟨post ++ [e], by rw [List.append_assoc, List.cons_append]⟩
    · exact ⟨[], rfl⟩

/-- Every read returns what the events before it leave. -/
theorem readsFrom_iff (kv : Store) (es : List Event) :
    ReadsFrom kv es
      ↔ ∀ pre k val n, ReadAfter es pre k val n → val = after kv pre k := by
  induction es using List.reverseRecOn with
  | nil =>
      refine iff_of_true trivial fun pre k val n ⟨post, heq⟩ => ?_
      cases pre <;> cases heq
  | append_singleton es e ih =>
      rw [readsFrom_append, ih]
      constructor
      · intro ⟨hes, he⟩ pre k val n hread
        rcases (readAfter_concat es pre e k val n).mp hread with hread | ⟨rfl, rfl⟩
        · exact hes pre k val n hread
        · exact he.1
      · intro h
        refine ⟨fun pre k val n hread => ?_, ?_⟩
        · exact h pre k val n ((readAfter_concat ..).mpr (Or.inl hread))
        · cases e with
          | get k val n =>
              exact ⟨h es k val n ((readAfter_concat ..).mpr (Or.inr ⟨rfl, rfl⟩)), trivial⟩
          | set key val => trivial
          | del key => trivial

-- ======================================================= the reads

/-- The reads of a run, and the ranges the transactions keep of them. -/
structure Reads (kv : Store) (x : Sys × Log) : Prop where
  isolation : ∀ tx ∈ x.1.txs, tx.isolation = serializable
  kept : ∀ (i : Nat) (tx : Tx), x.1.txs[i]? = some tx →
    ∀ k val n, Event.get k val n ∈ x.2.events i → ⟨k, k⟩ ∈ tx.reads
  value : ∀ i pre k val n, ReadAfter (x.2.events i) pre k val n →
    n ≤ x.2.commits.length
      ∧ val = (net pre k).getD (after kv ((x.2.commits.take n).flatMap Prod.snd) k)

theorem Reads.init (kv : Store) : Reads kv (Sys.init kv, Log.empty) where
  isolation tx h := by cases h
  kept i tx h := by cases h
  value i pre k val n h := by
    obtain ⟨post, heq⟩ := h
    cases pre <;> cases heq

theorem isolation_set {txs : List Tx} (h : ∀ u ∈ txs, u.isolation = serializable)
    (hi : txs[i]? = some tx) (hiso : tx'.isolation = tx.isolation) :
    ∀ u ∈ txs.set i tx', u.isolation = serializable := by
  intro u hu
  obtain ⟨j, hj⟩ := List.mem_iff_getElem?.mp hu
  rcases getElem?_set_cases hi hj with ⟨rfl, rfl⟩ | ⟨-, hj⟩
  · rw [hiso]
    exact h tx (List.mem_of_getElem? hi)
  · exact h u (List.mem_of_getElem? hj)

/-- A call of transaction `i` that is no access: the transaction may keep
more ranges, and there may be a commit. -/
theorem Reads.frame {s : Sys} (h : Reads kv (s, l)) (hi : s.txs[i]? = some tx)
    (m' : Manager) (later : List (Nat × List Event))
    (hiso : tx'.isolation = tx.isolation) (hold : tx.reads ⊆ tx'.reads) :
    Reads kv (⟨m', s.txs.set i tx'⟩, { l with commits := l.commits ++ later }) where
  isolation := isolation_set h.isolation hi hiso
  kept j u hj k val n hmem := by
    rcases getElem?_set_cases hi hj with ⟨rfl, rfl⟩ | ⟨-, hj⟩
    · exact hold (h.kept j tx hi k val n hmem)
    · exact h.kept j u hj k val n hmem
  value j pre k val n hread := by
    obtain ⟨hn, hval⟩ := h.value j pre k val n hread
    refine ⟨?_, ?_⟩
    · show n ≤ (l.commits ++ later).length
      rw [List.length_append]
      exact Nat.le_add_right_of_le hn
    · show val = (net pre k).getD
        (after kv (((l.commits ++ later).take n).flatMap Prod.snd) k)
      rw [List.take_append_of_le_length hn]
      exact hval

/-- An access of transaction `i`. -/
theorem Reads.access {s : Sys} (h : Reads kv (s, l)) (hlen : i < l.txs.length)
    (hi : s.txs[i]? = some tx) (e : Event) (hiso : tx'.isolation = tx.isolation)
    (hold : tx.reads ⊆ tx'.reads)
    (hkept : ∀ k val n, e = .get k val n → ⟨k, k⟩ ∈ tx'.reads)
    (hvalue : ∀ k val n, e = .get k val n → n = l.commits.length
      ∧ val = (net (l.events i) k).getD (after kv l.committed k)) :
    Reads kv (⟨s.manager, s.txs.set i tx'⟩, l.add i e) where
  isolation := isolation_set h.isolation hi hiso
  kept j u hj k val n hmem := by
    rcases getElem?_set_cases hi hj with ⟨rfl, rfl⟩ | ⟨hji, hj⟩
    · rw [events_add_self hlen] at hmem
      rcases List.mem_append.mp hmem with hmem | hmem
      · exact hold (h.kept j tx hi k val n hmem)
      · exact hkept k val n (List.mem_singleton.mp hmem).symm
    · rw [events_add_of_ne hji] at hmem
      exact h.kept j u hj k val n hmem
  value j pre k val n hread := by
    by_cases hji : j = i
    · subst hji
      rw [events_add_self hlen] at hread
      rcases (readAfter_concat ..).mp hread with hread | ⟨rfl, he⟩
      · exact h.value j pre k val n hread
      · obtain ⟨rfl, hval⟩ := hvalue k val n he
        refine ⟨Nat.le_refl _, ?_⟩
        show val = (net _ k).getD (after kv ((l.commits.take _).flatMap Prod.snd) k)
        rw [List.take_length]
        exact hval
    · rw [events_add_of_ne hji] at hread
      exact h.value j pre k val n hread

theorem Reads.call {s : Sys} (h : Reads kv (s, l)) (hp : Product kv (s, l))
    (hi : s.txs[i]? = some tx) (he : Effect l i s.manager tx l' tx' m') :
    Reads kv (⟨m', s.txs.set i tx'⟩, l') := by
  have hlen : i < l.txs.length := by
    rw [hp.length]
    exact (List.getElem?_eq_some_iff.mp hi).1
  cases he with
  | get key =>
      have hget : (tx.get s.manager.kv key).2.reads = tx.reads ++ [⟨key, key⟩]
          ∧ (tx.get s.manager.kv key).2.isolation = tx.isolation
          ∧ (tx.get s.manager.kv key).1
            = (tx.pending.lookup key).getD (s.manager.kv key) := by
        unfold Tx.get
        dsimp only
        cases tx.pending.lookup key <;> exact ⟨rfl, rfl, rfl⟩
      refine h.access hlen hi _ hget.2.1 ?_ (fun k val n he => ?_) (fun k val n he => ?_)
      · rw [hget.1]
        exact List.subset_append_left ..
      · cases he
        rw [hget.1]
        exact List.mem_append_right _ (List.mem_singleton_self _)
      · cases he
        refine ⟨rfl, ?_⟩
        rw [hget.2.2, hp.pending i tx hi, ← hp.store]
  | write e key val he =>
      have hnot : ∀ k val n, e ≠ .get k val n := by
        intro k val n heq
        have := he key
        rw [heq, if_pos rfl] at this
        cases this
      exact h.access hlen hi e rfl (List.Subset.refl _)
        (fun k val n heq => absurd heq (hnot k val n))
        (fun k val n heq => absurd heq (hnot k val n))
  | quiet _ _ _ hreads _ hiso _ =>
      have hframe := h.frame hi m' [] hiso hreads
      rwa [List.append_nil] at hframe
  | commit _ hfin hkv => exact h.frame hi m' _ rfl (List.Subset.refl _)

theorem Reads.begin {s : Sys} (h : Reads kv (s, l)) (hp : Product kv (s, l))
    (trim : Bool) {isolation : IsolationLevel} (hiso : isolation = serializable) :
    Reads kv (tick trim (s, l) (.begin isolation)) where
  isolation u hu := by
    rcases List.mem_append.mp hu with hu | hu
    · exact h.isolation u hu
    · rw [List.mem_singleton.mp hu]
      exact hiso
  kept j u hj k val n hmem := by
    have hevents := events_begin l isolation .none j
    rcases getElem?_concat_cases hj with hj | ⟨rfl, rfl⟩
    · exact h.kept j u hj k val n (hevents ▸ hmem)
    · have hnil : l.events s.txs.length = [] := by
        unfold Log.events
        rw [← hp.length, List.getElem?_eq_none (Nat.le_refl _)]
        rfl
      rw [hnil] at hevents
      exact absurd (hevents ▸ hmem) List.not_mem_nil
  value j pre k val n hread :=
    h.value j pre k val n (events_begin l isolation .none j ▸ hread)

-- ===================================================== the history

/-- A history as the list of the commits that wrote: the version of the
transaction, and a range for every key it has written. -/
inductive Recorded : List CommittedTX → List (Nat × List Event) → Prop where
  | nil : Recorded [] []
  | silent {history commits} (i : Nat) (es : List Event)
      (h : Recorded history commits) (hnone : ∀ k, net es k = none) :
      Recorded history (commits ++ [(i, es)])
  | wrote {history commits} (i : Nat) (es : List Event) (writes : List KeyRange)
      (h : Recorded history commits) (hsome : ∃ k, net es k ≠ none)
      (hwrites : ∀ k, net es k ≠ none → ⟨k, k⟩ ∈ writes) :
      Recorded (history ++ [⟨i + 1, writes⟩]) (commits ++ [(i, es)])

theorem rangesOverlap_of_mem {reads writes : List KeyRange} {k : Bytes}
    (hr : ⟨k, k⟩ ∈ reads) (hw : ⟨k, k⟩ ∈ writes) : rangesOverlap reads writes = true := by
  have hself := (KeyRange.mk k k).ordered_iff.mp (KeyRange.ordered_point k)
  rw [rangesOverlap_iff]
  exact ⟨_, hr, _, hw, (keyRangeOverlap_iff _ _).mpr ⟨hself, hself⟩⟩

/-- The scan meets a conflict with a younger transaction if only younger
ones have committed writes after it. -/
theorem Recorded.scan {history : List CommittedTX} {commits : List (Nat × List Event)}
    (h : Recorded history commits) (hver : tx.version = i + 1) {k : Bytes}
    (hread : ⟨k, k⟩ ∈ tx.reads) :
    ∀ {earlier later : List (Nat × List Event)} {j : Nat} {es : List Event},
      commits = earlier ++ (j, es) :: later → i < j → net es k ≠ none →
      (∀ p ∈ later, (∃ k, net p.2 k ≠ none) → i < p.1) →
      scanConflicts tx history.reverse = true := by
  induction h with
  | nil =>
      intro earlier later j es heq
      cases earlier <;> cases heq
  | silent i' es' h hnone ih =>
      intro earlier later j es heq hij hnet hlater
      rcases List.eq_nil_or_concat later with rfl | ⟨later, last, rfl⟩
      · obtain ⟨-, hlast⟩ := List.append_inj' heq rfl
        cases hlast
        exact absurd (hnone k) hnet
      · rw [List.concat_eq_append, ← List.cons_append, ← List.append_assoc] at heq
        refine ih (List.append_inj' heq rfl).1 hij hnet fun p hp => hlater p ?_
        rw [List.concat_eq_append]
        exact List.mem_append_left _ hp
  | wrote i' es' writes h hsome hwrites ih =>
      intro earlier later j es heq hij hnet hlater
      rw [List.reverse_append, List.reverse_singleton, List.singleton_append, scanConflicts]
      rcases List.eq_nil_or_concat later with rfl | ⟨later, last, rfl⟩
      · -- the newest entry is the conflicting one
        obtain ⟨-, hlast⟩ := List.append_inj' heq rfl
        cases hlast
        have hyounger : versionBefore tx.version (i' + 1) = true := by
          simp [versionBefore, hver, hij]
        rw [hyounger, rangesOverlap_of_mem hread (hwrites k hnet)]
        rfl
      · rw [List.concat_eq_append] at hlater
        rw [List.concat_eq_append, ← List.cons_append, ← List.append_assoc] at heq
        obtain ⟨hinit, hlast⟩ := List.append_inj' heq rfl
        cases hlast
        have hyounger : versionBefore tx.version (i' + 1) = true := by
          have := hlater (i', es') (List.mem_append_right _ (List.mem_singleton_self _)) hsome
          simp [versionBefore, hver, this]
        rw [hyounger, ih hinit hij hnet fun p hp => hlater p (List.mem_append_left _ hp)]
        simp

theorem Change.recorded (h : Change false m tx c a tx' m') (hc : c.tx = some i)
    (hok : c.StoreOk) (hver : tx.version = i + 1)
    (hpending : ∀ k, tx.pending.lookup k = net (l.events i) k)
    (hrec : Recorded m.history l.commits) :
    Recorded m'.history (observe l c a).commits := by
  cases h with
  | get j key => exact hrec
  | seek j key => exact hrec
  | set j key val => exact hrec
  | del j key => exact hrec
  | finished => exact hrec
  | conflict => exact hrec
  | empty j ranges writes fails hfin hdet hnone =>
      cases hc
      refine .silent _ _ hrec fun k => ?_
      rw [← hpending]
      unfold AList.lookup
      rw [List.length_eq_zero_iff.mp hnone]
      rfl
  | failed j ranges writes fails hfin hdet hsome kv e happly =>
      rw [applyWrites_eq hok] at happly
      cases happly
  | done j ranges writes fails hfin hdet hsome kv happly m' hm' =>
      cases hc
      subst hm'
      rw [if_neg Bool.false_ne_true]
      show Recorded (m.history ++ [⟨tx.version, _⟩]) _
      rw [hver]
      refine .wrote _ _ _ hrec ?_ fun k hk => ?_
      · obtain ⟨w, hw⟩ := List.exists_mem_of_length_pos (Nat.pos_of_ne_zero hsome)
        refine ⟨w.1, ?_⟩
        rw [← hpending, AList.mem_lookup_iff.mpr hw]
        exact Option.some_ne_none _
      · rw [← hpending] at hk
        obtain ⟨val, hval⟩ := Option.ne_none_iff_exists'.mp hk
        have hmem : (⟨k, val⟩ : Write) ∈ tx.pending.entries :=
          AList.mem_lookup_iff.mp hval
        exact List.mem_map.mpr ⟨_, (ranges.perm _).mem_iff.mpr hmem, rfl⟩
  | abortFinished => exact hrec
  | abort => exact hrec

/-- The manager that does not trim has all commits in its history. -/
def Shadowed (x : Sys × Log) : Prop :=
  ∃ s', Trims x.1 s' ∧ Recorded s'.manager.history x.2.commits

theorem Shadowed.tick {x : Sys × Log} (h : Shadowed x) (hb : Books x.1)
    (hp : Product kv x) (hok : c.StoreOk) : Shadowed (tick true x c) := by
  obtain ⟨s', ht, hrec⟩ := h
  obtain ⟨hanswer, hnext⟩ := ht.step hb c
  refine ⟨(step false s' c).2, hnext, ?_⟩
  show Recorded _ (observe x.2 c (step true x.1 c).1).commits
  rw [hanswer]
  rcases step_cases false s' c with ⟨isolation, rfl⟩ | ⟨i, hc, hi, heq⟩
    | ⟨i, tx, a, tx', m', hc, hi, hchange, heq⟩
  · exact hrec
  · rw [ht.txs] at hi
    rw [heq, observe_missing hc (hp.length ▸ List.getElem?_eq_none_iff.mp hi)]
    exact hrec
  · rw [ht.txs] at hi
    rw [heq]
    exact hchange.recorded hc hok (hb.txVersion i tx hi) (hp.pending i tx hi) hrec

-- ==================================================== commit steps

/-- A transaction that passes the conflict check is not caught. -/
theorem not_caught {s : Sys} (hb : Books s) (hr : Reads kv (s, l)) (hs : Shadowed (s, l))
    (hi : s.txs[i]? = some tx) (hfin : tx.finished = false)
    (hdet : detectConflicts s.manager tx = false) : ¬ Caught l i := by
  intro ⟨earlier, j, es, later, k, hcommits, hij, hnet, ⟨val, n, hget⟩, hlater⟩
  obtain ⟨s', ht, hrec⟩ := hs
  have hscan : detectConflicts s'.manager tx = true :=
    hrec.scan (hb.txVersion i tx hi) (hr.kept i tx hi k val n hget) hcommits hij hnet hlater
  rw [ht.verdict hi hfin, hdet] at hscan
  cases hscan

/-- The reads of a transaction that is not stale are those it would make
now. -/
theorem readsFrom_of_not_stale {s : Sys} (hr : Reads kv (s, l)) (hns : ¬ Stale l i) :
    ReadsFrom (after kv l.committed) (l.events i) := by
  rw [readsFrom_iff]
  intro pre k val n hread
  obtain ⟨-, hval⟩ := hr.value i pre k val n hread
  rw [after_apply, hval]
  cases hpre : net pre k with
  | some own => rfl
  | none =>
      have hsince : net (l.since n) k = none := by
        by_contra hwrite
        exact hns ⟨pre, k, val, n, hread, hpre, hwrite⟩
      rw [committed_split l n, after_append, after_apply _ (l.since n), hsince]
      rfl

/-- What a call adds to the committed events: nothing, or those of a
transaction that has passed the check. -/
theorem Change.committed {trim : Bool} (h : Change trim m tx c a tx' m')
    (hc : c.tx = some i) (l : Log) :
    (observe l c a).committed = l.committed
      ∨ (∃ ranges writes fails, c = .commit i ranges writes fails)
        ∧ tx.finished = false
        ∧ (serializable ≤ tx.isolation → detectConflicts m tx = false)
        ∧ (observe l c a).committed = l.committed ++ l.events i := by
  have happend : ∀ es, Log.committed { l with commits := l.commits ++ [(i, es)] }
      = l.committed ++ es := by
    intro es
    unfold Log.committed
    rw [List.flatMap_append, List.flatMap_singleton]
  cases h with
  | empty j ranges writes fails hfin hdet hnone =>
      cases hc
      exact Or.inr ⟨⟨ranges, writes, fails, rfl⟩, hfin, hdet, happend _⟩
  | done j ranges writes fails hfin hdet hsome kv happly m' hm' =>
      cases hc
      exact Or.inr ⟨⟨ranges, writes, fails, rfl⟩, hfin, hdet, happend _⟩
  | _ => exact Or.inl rfl

/-- Serial so far, with all that is known of the reads and the history. -/
structure Serial (kv : Store) (x : Sys × Log) : Prop where
  books : Books x.1
  product : Product kv x
  reads : Reads kv x
  shadowed : Shadowed x
  serial : ReadsFrom kv x.2.committed

theorem Serial.init (kv : Store) : Serial kv (Sys.init kv, Log.empty) where
  books := Books.init kv
  product := Product.init kv
  reads := Reads.init kv
  shadowed := ⟨Sys.init kv, Trims.init kv, .nil⟩
  serial := trivial

theorem Reads.tick {x : Sys × Log} (h : Reads kv x) (hp : Product kv x) (trim : Bool)
    (hok : c.StoreOk) (hser : c.IsSerializable) : Reads kv (tick trim x c) := by
  obtain ⟨s, l⟩ := x
  rcases step_cases trim s c with ⟨isolation, rfl⟩ | ⟨i, hc, hi, heq⟩
    | ⟨i, tx, a, tx', m', hc, hi, hchange, heq⟩
  · exact h.begin hp trim hser
  · show Reads kv ((step trim s c).2, observe l c (step trim s c).1)
    rw [heq, observe_missing hc (hp.length ▸ List.getElem?_eq_none_iff.mp hi)]
    exact h
  · show Reads kv ((step trim s c).2, observe l c (step trim s c).1)
    rw [heq]
    exact h.call hp hi (hchange.effect hc hok l)

theorem Serial.tick {x : Sys × Log} (h : Serial kv x) (hok : c.StoreOk)
    (hser : c.IsSerializable) (hcaught : StaleCaught x c) :
    Serial kv (tick true x c) where
  books := h.books.step true c
  product := h.product.tick hok
  reads := h.reads.tick h.product true hok hser
  shadowed := h.shadowed.tick h.books h.product hok
  serial := by
    obtain ⟨s, l⟩ := x
    show ReadsFrom kv (observe l c (step true s c).1).committed
    rcases step_cases true s c with ⟨isolation, rfl⟩ | ⟨i, hc, hi, heq⟩
      | ⟨i, tx, a, tx', m', hc, hi, hchange, heq⟩
    · exact h.serial
    · rw [heq, observe_missing hc
        (h.product.length ▸ List.getElem?_eq_none_iff.mp hi)]
      exact h.serial
    · rw [heq]
      rcases hchange.committed hc l with hsame | ⟨⟨ranges, writes, fails, rfl⟩, hfin, hdet, hnew⟩
      · rw [hsame]
        exact h.serial
      · have hiso : serializable ≤ tx.isolation :=
          le_of_eq (h.reads.isolation tx (List.mem_of_getElem? hi)).symm
        have hnot := not_caught h.books h.reads h.shadowed hi hfin (hdet hiso)
        have hcurrent := readsFrom_of_not_stale h.reads fun hstale =>
          hnot (hcaught tx hi hfin hstale)
        rw [hnew, readsFrom_append]
        exact ⟨h.serial, hcurrent⟩

-- ============================================================ runs

/-- Serializable transactions over a store that does not fail: in every
run in which every `Commit` by a stale reader is caught, and at every
moment of it, the committed transactions have read and left what they
would one after another, in the order of their `Commit`s. -/
theorem serial_of_staleCaught (kv : Store) (calls : List Call)
    (hok : ∀ c ∈ calls, c.StoreOk ∧ c.IsSerializable)
    (hcaught : Along StaleCaught true (Sys.init kv, Log.empty) calls) :
    ∀ before rest, calls = before ++ rest →
      let s := (trace true kv before).1
      let l := (trace true kv before).2
      ReadsFrom kv l.committed ∧ s.manager.kv = after kv l.committed := by
  intro before rest hsplit
  subst hsplit
  have hcalls : Along (fun _ c => c.StoreOk ∧ c.IsSerializable) true
      (Sys.init kv, Log.empty) before :=
    along_of_forall (fun c hc _ => hok c (List.mem_append_left _ hc)) _
  have h : Serial kv (trace true kv before) :=
    trace_induction (Serial.init kv) (fun x c h hc => h.tick hc.1.1 hc.1.2 hc.2)
      (hcalls.and hcaught.left)
  exact ⟨h.serial, h.product.store⟩

/-- Two transactions read `[1]`, write it, and commit in the order
given. -/
def bothWrite (first second : Nat) : List Call :=
  [.begin serializable, .begin serializable, .get 0 [1], .get 1 [1],
    .set 0 [1] (some [8]), .set 1 [1] (some [9]),
    .commit first .inOrder .inOrder fun _ => false,
    .commit second .inOrder .inOrder fun _ => false]

theorem bothWrite_caught :
    Along StaleCaught true (Sys.init fun _ => some [0], Log.empty) (bothWrite 1 0) := by
  refine ⟨trivial, trivial, trivial, trivial, trivial, trivial, ?_, ?_, trivial⟩
  · -- nothing has been committed yet
    intro tx _ _ ⟨_, k, _, n, _, _, hwrite⟩
    refine absurd ?_ hwrite
    show net ((List.drop n []).flatMap Prod.snd) k = none
    rw [List.drop_nil]
    rfl
  · intro tx _ _ _
    refine ⟨[], 1, [.get [1] (some [0]) 0, .set [1] (some [9])], [], [1], rfl,
      by decide, by decide, ⟨some [0], 0, by decide⟩, ?_⟩
    exact fun p hp => absurd hp List.not_mem_nil

/-- The younger one commits first: the older one is refused. -/
theorem serial_of_staleCaught_younger_first :
    let kv : Store := fun _ => some [0]
    let x := trace true kv (bothWrite 1 0)
    (ReadsFrom kv x.2.committed ∧ x.1.manager.kv = after kv x.2.committed)
      ∧ x.2.commits.map Prod.fst = [1] := by
  have hok : ∀ c ∈ bothWrite 1 0, c.StoreOk ∧ c.IsSerializable := by
    simp [bothWrite, Call.StoreOk, Call.IsSerializable]
  exact ⟨serial_of_staleCaught _ (bothWrite 1 0) hok bothWrite_caught (bothWrite 1 0) [] rfl,
    by decide⟩

/-- The older one commits first: both commit, and the second has read a
value that its predecessor has overwritten. -/
theorem lost_update :
    let kv : Store := fun _ => some [0]
    let x := trace true kv (bothWrite 0 1)
    x.2.commits.map Prod.fst = [0, 1] ∧ ¬ ReadsFrom kv x.2.committed := by
  decide

end Svacara.Transaction
