/-
The store is the product of the committed transactions.

`Effect` is what a call does as far as the log is concerned, when the
store does not fail: an access is logged and shows in the pending map, a
successful `Commit` overwrites the store with the pending map, and
everything else leaves both alone. The order in which the entries of the
pending map reach the store does not matter, since its keys are distinct
(`applyWrites_eq`). `Product` is the invariant of the runs.
-/
import Svacara.Transaction.Proofs.Step

namespace Svacara.Transaction

variable {trim : Bool} {m m' : Manager} {tx tx' : Tx} {c : Call} {a : Answer}
variable {i : Nat} {l l' : Log}

-- ========================================= events and their effect

theorem net_concat (es : List Event) (e : Event) (k : Bytes) :
    net (es ++ [e]) k = (e.effect k).or (net es k) := by
  unfold net
  rw [List.foldl_append]
  rfl

theorem apply_eq (kv : Store) (e : Event) (k : Bytes) :
    e.apply kv k = (e.effect k).getD (kv k) := by
  cases e with
  | get key val seen => rfl
  | set key val =>
      simp only [Event.apply, Event.effect, Function.update_apply]
      split <;> rfl
  | del key =>
      simp only [Event.apply, Event.effect, Function.update_apply]
      split <;> rfl

theorem after_append (kv : Store) (es fs : List Event) :
    after kv (es ++ fs) = after (after kv es) fs :=
  List.foldl_append

/-- Executing events one after another overwrites the map with their net
effect. -/
theorem after_apply (kv : Store) (es : List Event) (k : Bytes) :
    after kv es k = (net es k).getD (kv k) := by
  induction es using List.reverseRecOn with
  | nil => rfl
  | append_singleton es e ih =>
      rw [after_append, net_concat]
      show e.apply (after kv es) k = _
      rw [apply_eq, ih]
      cases e.effect k <;> rfl

theorem committed_split (l : Log) (n : Nat) :
    l.committed = (l.commits.take n).flatMap Prod.snd ++ l.since n := by
  unfold Log.committed Log.since
  rw [← List.flatMap_append, List.take_append_drop]

-- ====================================================== the writes

/-- The second loop of `Commit` when no store operation fails. -/
theorem applyWrites_ok {fails : Nat → Bool} (hok : ∀ n, fails n = false) :
    ∀ (ws : List Write) (n : Nat) (kv : Store), ws.NodupKeys →
      applyWrites fails n ws kv = (fun k => (ws.dlookup k).getD (kv k), none) := by
  intro ws
  induction ws with
  | nil => exact fun n kv _ => rfl
  | cons w ws ih =>
      intro n kv hnodup
      obtain ⟨key, val⟩ := w
      obtain ⟨hnot, hrest⟩ := List.nodupKeys_cons.mp hnodup
      have hstep : applyWrites fails n (⟨key, val⟩ :: ws) kv
          = applyWrites fails (n + 1) ws (Function.update kv key val) := by
        cases val <;> simp [applyWrites, hok n]
      rw [hstep, ih (n + 1) _ hrest]
      refine Prod.ext (funext fun k => ?_) rfl
      dsimp only
      by_cases hk : k = key
      · subst hk
        rw [List.dlookup_cons_eq, List.dlookup_eq_none.mpr hnot, Function.update_self]
        rfl
      · rw [List.dlookup_cons_ne ws ⟨key, val⟩ hk, Function.update_of_ne hk]

/-- Whatever the order, the entries of a pending map overwrite the store
with that map. -/
theorem applyWrites_eq {fails : Nat → Bool} (hok : ∀ n, fails n = false)
    (writes : Visit Write) (pending : Pending) (kv : Store) :
    applyWrites fails 0 (writes.order pending.entries) kv
      = (fun k => (pending.lookup k).getD (kv k), none) := by
  have hperm := writes.perm pending.entries
  have hnodup : (writes.order pending.entries).NodupKeys :=
    (List.perm_nodupKeys hperm).mpr pending.nodupKeys
  rw [applyWrites_ok hok _ 0 kv hnodup]
  refine Prod.ext (funext fun k => ?_) rfl
  dsimp only
  rw [List.perm_dlookup k hnodup hperm]
  rfl

-- ============================================== a call and the log

/-- What a call on transaction `i` does to the log, the transaction and
the store, when the store does not fail. -/
inductive Effect (l : Log) (i : Nat) (m : Manager) (tx : Tx) :
    Log → Tx → Manager → Prop where
  | get (key : Bytes) :
      Effect l i m tx (l.add i (.get key (tx.get m.kv key).1 l.commits.length))
        (tx.get m.kv key).2 m
  | write (e : Event) (key : Bytes) (val : Option Bytes)
      (he : ∀ k, e.effect k = if k = key then some val else none) :
      Effect l i m tx (l.add i e) { tx with pending := tx.pending.insert key val } m
  | quiet (tx' : Tx) (m' : Manager) (hpending : tx'.pending = tx.pending)
      (hreads : tx.reads ⊆ tx'.reads) (hcommitted : tx'.committed = tx.committed)
      (hisolation : tx'.isolation = tx.isolation) (hkv : m'.kv = m.kv) :
      Effect l i m tx l tx' m'
  | commit (m' : Manager) (hfin : tx.finished = false)
      (hkv : ∀ k, m'.kv k = (tx.pending.lookup k).getD (m.kv k)) :
      Effect l i m tx { l with commits := l.commits ++ [(i, l.events i)] }
        { tx with committed := true } m'

theorem Change.effect (h : Change trim m tx c a tx' m') (hc : c.tx = some i)
    (hok : c.StoreOk) (l : Log) : Effect l i m tx (observe l c a) tx' m' := by
  cases h with
  | get j key =>
      cases hc
      exact .get key
  | seek j key => exact .quiet _ _ rfl (List.subset_append_left ..) rfl rfl rfl
  | set j key val =>
      cases hc
      exact .write _ key val fun k => rfl
  | del j key =>
      cases hc
      exact .write _ key none fun k => rfl
  | finished => exact .quiet _ _ rfl (List.Subset.refl _) rfl rfl rfl
  | conflict => exact .quiet _ _ rfl (List.Subset.refl _) rfl rfl rfl
  | empty j ranges writes fails hfin hdet hnone =>
      cases hc
      refine .commit _ hfin fun k => ?_
      have hempty : tx.pending.lookup k = none := by
        unfold AList.lookup
        rw [List.length_eq_zero_iff.mp hnone]
        rfl
      rw [hempty]
      rfl
  | failed j ranges writes fails hfin hdet hsome kv e happly =>
      rw [applyWrites_eq hok] at happly
      cases happly
  | done j ranges writes fails hfin hdet hsome kv happly m' hm' =>
      cases hc
      rw [applyWrites_eq hok] at happly
      cases happly
      refine .commit _ hfin fun k => ?_
      subst hm'
      cases trim <;> rfl
  | abortFinished => exact .quiet _ _ rfl (List.Subset.refl _) rfl rfl rfl
  | abort => exact .quiet _ _ rfl (List.Subset.refl _) rfl rfl rfl

theorem length_add (l : Log) (i : Nat) (e : Event) :
    (l.add i e).txs.length = l.txs.length :=
  List.length_modify ..

theorem events_add_self (hi : i < l.txs.length) (e : Event) :
    (l.add i e).events i = l.events i ++ [e] := by
  unfold Log.events Log.add
  rw [List.getElem?_modify_eq, List.getElem?_eq_getElem hi]
  rfl

theorem events_add_of_ne {j : Nat} (h : j ≠ i) (e : Event) :
    (l.add i e).events j = l.events j := by
  unfold Log.events Log.add
  dsimp only
  rw [List.getElem?_modify_ne _ _ (Ne.symm h)]

/-- A new transaction has no events. -/
theorem events_begin (l : Log) (isolation : IsolationLevel) (a : Answer) (j : Nat) :
    (observe l (.begin isolation) a).events j = l.events j := by
  unfold Log.events observe
  dsimp only
  rw [List.getElem?_append]
  split
  · rfl
  · rename_i hge
    rw [List.getElem?_eq_none (Nat.le_of_not_lt hge)]
    cases j - l.txs.length <;> rfl

/-- A call on a transaction that was never begun leaves no trace. -/
theorem observe_missing (hc : c.tx = some i) (hi : l.txs.length ≤ i) :
    observe l c .none = l := by
  have hadd : ∀ e, l.add i e = l := by
    intro e
    unfold Log.add
    rw [List.modify_eq_self hi]
  cases c with
  | begin isolation => cases hc
  | set j key val =>
      cases hc
      exact hadd _
  | del j key =>
      cases hc
      exact hadd _
  | _ => rfl

-- =================================================== the invariant

/-- The store and the log of a run from `kv`. -/
structure Product (kv : Store) (x : Sys × Log) : Prop where
  length : x.2.txs.length = x.1.txs.length
  pending : ∀ (i : Nat) (tx : Tx), x.1.txs[i]? = some tx →
    ∀ k, tx.pending.lookup k = net (x.2.events i) k
  store : x.1.manager.kv = after kv x.2.committed
  once : (x.2.commits.map Prod.fst).Nodup
  committed : ∀ i, i ∈ x.2.commits.map Prod.fst
    ↔ ∃ tx, x.1.txs[i]? = some tx ∧ tx.committed = true

theorem Product.init (kv : Store) : Product kv (Sys.init kv, Log.empty) where
  length := rfl
  pending i tx h := by cases h
  store := rfl
  once := List.nodup_nil
  committed i := by
    constructor
    · intro h
      cases h
    · intro ⟨tx, h, _⟩
      cases h

/-- The transactions that are committed after a call that leaves the
flag of its own transaction alone. -/
theorem committed_set {txs : List Tx} (hi : txs[i]? = some tx)
    (heq : tx'.committed = tx.committed) (j : Nat) :
    (∃ u, (txs.set i tx')[j]? = some u ∧ u.committed = true)
      ↔ ∃ u, txs[j]? = some u ∧ u.committed = true := by
  by_cases hji : j = i
  · subst hji
    rw [getElem?_set_eq hi, hi]
    simp [heq]
  · rw [getElem?_set_of_ne hji]

/-- An access of transaction `i`: it is logged, and the pending map
follows. -/
theorem Product.access {kv : Store} {s : Sys} (h : Product kv (s, l))
    (hi : s.txs[i]? = some tx) (e : Event)
    (hcommitted : tx'.committed = tx.committed)
    (hpending : ∀ k, tx'.pending.lookup k = (e.effect k).or (tx.pending.lookup k)) :
    Product kv (⟨s.manager, s.txs.set i tx'⟩, l.add i e) where
  length := by
    rw [length_add, List.length_set]
    exact h.length
  pending j u hj k := by
    have hlt : i < l.txs.length := by
      rw [h.length]
      exact (List.getElem?_eq_some_iff.mp hi).1
    rcases getElem?_set_cases hi hj with ⟨rfl, rfl⟩ | ⟨hji, hj⟩
    · rw [events_add_self hlt, net_concat, hpending, h.pending j tx hi]
    · rw [events_add_of_ne hji]
      exact h.pending j u hj k
  store := h.store
  once := h.once
  committed j := (h.committed j).trans (committed_set hi hcommitted j).symm

theorem Product.commit {kv : Store} {s : Sys} (h : Product kv (s, l))
    (hi : s.txs[i]? = some tx) (hfin : tx.finished = false)
    (hkv : ∀ k, m'.kv k = (tx.pending.lookup k).getD (s.manager.kv k)) :
    Product kv (⟨m', s.txs.set i { tx with committed := true }⟩,
      { l with commits := l.commits ++ [(i, l.events i)] }) where
  length := by
    rw [List.length_set]
    exact h.length
  pending j u hj k := by
    rcases getElem?_set_cases hi hj with ⟨rfl, rfl⟩ | ⟨hji, hj⟩
    · exact h.pending j tx hi k
    · exact h.pending j u hj k
  store := by
    funext k
    have hcommitted : Log.committed { l with commits := l.commits ++ [(i, l.events i)] }
        = l.committed ++ l.events i := by
      unfold Log.committed
      rw [List.flatMap_append, List.flatMap_singleton]
    rw [hkv, hcommitted, after_append, after_apply, h.pending i tx hi, h.store]
  once := by
    -- an unfinished transaction is not among the committed ones
    have hnot : i ∉ l.commits.map Prod.fst := by
      intro hmem
      obtain ⟨u, hu, hcom⟩ := (h.committed i).mp hmem
      rw [hi] at hu
      cases hu
      rw [(Bool.or_eq_false_iff.mp hfin).1] at hcom
      cases hcom
    rw [List.map_append, List.map_singleton]
    refine List.nodup_append.mpr ⟨h.once, List.nodup_singleton i, ?_⟩
    intro x hx y hy heq
    rw [heq, List.mem_singleton.mp hy] at hx
    exact hnot hx
  committed j := by
    rw [List.map_append, List.map_singleton, List.mem_append, List.mem_singleton,
      h.committed j]
    by_cases hji : j = i
    · subst hji
      rw [getElem?_set_eq hi]
      simp
    · rw [getElem?_set_of_ne hji]
      simp [hji]

theorem Product.call {kv : Store} {s : Sys} (h : Product kv (s, l))
    (hi : s.txs[i]? = some tx) (he : Effect l i s.manager tx l' tx' m') :
    Product kv (⟨m', s.txs.set i tx'⟩, l') := by
  cases he with
  | get key =>
      have hsame : (tx.get s.manager.kv key).2.committed = tx.committed
          ∧ (tx.get s.manager.kv key).2.pending = tx.pending := by
        unfold Tx.get
        dsimp only
        split <;> exact ⟨rfl, rfl⟩
      refine h.access hi _ hsame.1 fun k => ?_
      rw [hsame.2]
      rfl
  | write e key val he =>
      refine h.access hi e rfl fun k => ?_
      rw [he]
      by_cases hk : k = key
      · subst hk
        rw [if_pos rfl, AList.lookup_insert]
        rfl
      · rw [if_neg hk, AList.lookup_insert_ne hk]
        rfl
  | quiet _ _ hpending _ hcommitted _ hkv =>
      refine ⟨?_, fun j u hj k => ?_, ?_, h.once, fun j => ?_⟩
      · rw [List.length_set]
        exact h.length
      · rcases getElem?_set_cases hi hj with ⟨rfl, rfl⟩ | ⟨hji, hj⟩
        · rw [hpending]
          exact h.pending j tx hi k
        · exact h.pending j u hj k
      · show m'.kv = _
        rw [hkv]
        exact h.store
      · exact (h.committed j).trans (committed_set hi hcommitted j).symm
  | commit _ hfin hkv => exact h.commit hi hfin hkv

theorem Product.begin {kv : Store} {s : Sys} (h : Product kv (s, l))
    (isolation : IsolationLevel) :
    Product kv (tick trim (s, l) (.begin isolation)) where
  length := by
    show (l.txs ++ _).length = (s.txs ++ _).length
    rw [List.length_append, List.length_append, h.length]
    rfl
  pending j u hj k := by
    show _ = net ((observe l (.begin isolation) .none).events j) k
    rw [events_begin]
    rcases getElem?_concat_cases hj with hj | ⟨rfl, rfl⟩
    · exact h.pending j u hj k
    · unfold Log.events
      rw [← h.length, List.getElem?_eq_none (Nat.le_refl _)]
      rfl
  store := h.store
  once := h.once
  committed j := by
    refine (h.committed j).trans ⟨fun ⟨u, hu, hcom⟩ => ⟨u, ?_, hcom⟩, fun ⟨u, hu, hcom⟩ => ?_⟩
    · show (s.txs ++ _)[j]? = some u
      rw [List.getElem?_append_left (List.getElem?_eq_some_iff.mp hu).1]
      exact hu
    · rcases getElem?_concat_cases hu with hu | ⟨-, rfl⟩
      · exact ⟨u, hu, hcom⟩
      · cases hcom

theorem Product.tick {kv : Store} {x : Sys × Log} (h : Product kv x)
    (hok : c.StoreOk) : Product kv (tick trim x c) := by
  obtain ⟨s, l⟩ := x
  rcases step_cases trim s c with ⟨isolation, rfl⟩ | ⟨i, hc, hi, heq⟩
    | ⟨i, tx, a, tx', m', hc, hi, hchange, heq⟩
  · exact h.begin isolation
  · have hmissing : observe l c .none = l := by
      apply observe_missing hc
      rw [h.length]
      exact List.getElem?_eq_none_iff.mp hi
    show Product kv ((step trim s c).2, observe l c (step trim s c).1)
    rw [heq, hmissing]
    exact h
  · have heffect := hchange.effect hc hok l
    show Product kv ((step trim s c).2, observe l c (step trim s c).1)
    rw [heq]
    exact h.call hi heffect

-- ============================================================ runs

theorem trace_product (trim : Bool) (kv : Store) (calls : List Call)
    (hok : ∀ c ∈ calls, c.StoreOk) : Product kv (trace trim kv calls) := by
  have halong : Along (fun _ c => c.StoreOk) trim (Sys.init kv, Log.empty) calls :=
    along_of_forall (fun c hc _ => hok c hc) _
  exact trace_induction (Product.init kv) (fun x c h hc => h.tick hc) halong

end Svacara.Transaction
