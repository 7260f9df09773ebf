/-
A connection and the transaction it is in.

Whether a connection is in a transaction is read off the calls and their
answers: an accepted `Begin` opens one, and an `Abort` or a `Commit` that
commits or reports a conflict ends it (`opens`). Between two calls the
other connections may do anything to the manager and its store.

The connection keeps its pointer to a transaction that has been
committed, or refused for a conflict. Such a stale pointer is the one
thing that goes wrong: a run behaves as it should just when no `Begin`
and no `Set` is made on a connection that has one
(`faithful_iff_neverStale`).
-/
import Svacara.Pool.Conn
import Svacara.Transaction.Proofs.Atomic

namespace Svacara.Pooling

open Transaction

/-- A call on the connection, or what the others do to the manager. -/
inductive Event where
  | call (k : ConnCall)
  | other (m : Manager)

/-- The store operations of a call succeed. -/
def Unfailing : Event → Prop
  | .call (.set _ _ fails) => fails = false
  | .call (.commit _ _ fails) => ∀ n, fails n = false
  | _ => True

-- ==================================== writes buffered or immediate

/-- Whether a transaction is open after a call, from its answer. -/
def opens (o : Bool) : ConnCall → ConnAnswer → Bool
  | .begin _, .begun none => true
  | .commit .., .committed none => false
  | .commit .., .committed (some (.commit .conflict)) => false
  | .abort, _ => false
  | _, _ => o

/-- The write went to the transaction and not to the store. -/
def Buffered (c c' : Conn) (m m' : Manager) (key : Bytes) (val : Option Bytes) : Prop :=
  (∃ tx, c.tx = some tx ∧ c'.tx = some (tx.set key val)) ∧ m'.kv = m.kv

/-- The write went to the store. -/
def Immediate (c c' : Conn) (m m' : Manager) (key : Bytes) (val : Option Bytes) : Prop :=
  c'.tx = c.tx ∧ m'.kv = Function.update m.kv key (some (val.getD []))

/-- What a call should do, with `o` telling whether a transaction is
open. -/
def Behaves (o : Bool) (c c' : Conn) (m m' : Manager) : ConnCall → ConnAnswer → Prop
  | .begin _, a => a = .begun none ↔ o = false
  | .set key val _, _ =>
      (Buffered c c' m m' key val ↔ o = true) ∧ (o = false → Immediate c c' m m' key val)
  | _, _ => True

/-- Every call of a run does what it should. -/
def Faithful : Bool → Conn → Manager → List Event → Prop
  | _, _, _, [] => True
  | o, c, _, .other m :: es => Faithful o c m es
  | o, c, m, .call k :: es =>
      let (a, c', m') := c.call m k
      Behaves o c c' m m' k a ∧ Faithful (opens o k a) c' m' es

-- =================================================== the condition

/-- The connection points to a transaction that has ended. -/
def Conn.stale (c : Conn) : Bool :=
  match c.tx with
  | some tx => tx.finished
  | none => false

/-- A `Begin` or a `Set`. -/
def ConnCall.needsLive : ConnCall → Bool
  | .begin _ => true
  | .set .. => true
  | _ => false

/-- No `Begin` and no `Set` of a run is made on a stale connection. -/
def NeverStale : Conn → Manager → List Event → Prop
  | _, _, [] => True
  | c, _, .other m :: es => NeverStale c m es
  | c, m, .call k :: es =>
      (k.needsLive = true → c.stale = false) ∧
        NeverStale (c.call m k).2.1 (c.call m k).2.2 es

-- =========================================================== steps

/-- The connection has a transaction that has not ended. -/
def Conn.live (c : Conn) : Bool :=
  match c.tx with
  | some tx => !tx.finished
  | none => false

/-- A `Commit` of an open transaction whose writes succeed ends it, with
no error or a conflict. -/
theorem commit_ends (m : Manager) {tx : Tx} (ranges writes : Visit Write) {fails : Nat → Bool}
    (hok : ∀ n, fails n = false) (hfin : tx.finished = false) :
    ((commit true m tx ranges writes fails).1 = none ∨
        (commit true m tx ranges writes fails).1 = some .conflict) ∧
      (commit true m tx ranges writes fails).2.1.finished = true := by
  have hwrites := (applyWrites_error_iff fails (writes.order tx.pending.entries) 0 m.kv).mpr
    fun i _ => hok _
  rcases hres : commit true m tx ranges writes fails with ⟨err, tx', m'⟩
  cases change_of_commit hres 0 with
  | finished _ _ _ _ hended =>
      rw [hfin] at hended
      cases hended
  | conflict => exact ⟨.inr rfl, Bool.or_true _⟩
  | empty => exact ⟨.inl rfl, rfl⟩
  | failed _ _ _ _ _ _ _ kv e happly =>
      rw [happly] at hwrites
      cases hwrites
  | done => exact ⟨.inl rfl, rfl⟩

/-- After a call, a transaction is open by the answers just when the
connection has one that has not ended. -/
theorem opens_live (c : Conn) (m : Manager) (k : ConnCall) (hok : Unfailing (.call k)) :
    opens c.live k (c.call m k).1 = (c.call m k).2.1.live := by
  cases k with
  | begin isolation =>
      cases h : c.tx with
      | none => simp [Conn.call, Conn.begin, h, opens, Conn.live, Transaction.begin, Tx.finished]
      | some tx => simp [Conn.call, Conn.begin, h, opens]
  | get key =>
      cases h : c.tx with
      | none => simp [Conn.call, Conn.get, h, opens]
      | some tx =>
          have hfin : (tx.get m.kv key).2.finished = tx.finished := by
            rw [get_snd]
            rfl
          simp [Conn.call, Conn.get, h, opens, Conn.live, hfin]
  | set key val fails =>
      cases h : c.tx with
      | none =>
          obtain rfl : fails = false := hok
          simp [Conn.call, Conn.set, h, opens]
      | some tx => simp [Conn.call, Conn.set, h, opens, Conn.live, Tx.set, Tx.finished]
  | commit ranges writes fails =>
      cases h : c.tx with
      | none => simp [Conn.call, Conn.commit, h, opens]
      | some tx =>
          by_cases hfin : tx.finished = true
          · simp [Conn.call, Conn.commit, h, opens, Conn.live, Transaction.commit, hfin]
          · obtain ⟨hans, hend⟩ := commit_ends m ranges writes hok (by simpa using hfin)
            rcases hans with hans | hans
            · simp [Conn.call, Conn.commit, h, opens, Conn.live, hans, hend]
            · simp [Conn.call, Conn.commit, h, opens, Conn.live, hans, hend]
  | abort =>
      cases h : c.tx with
      | none => simp [Conn.call, Conn.abort, h, opens, Conn.live]
      | some tx => simp [Conn.call, Conn.abort, h, opens, Conn.live]

/-- A call does what it should just when it is not made on a stale
connection, or does not care. -/
theorem behaves_iff (c : Conn) (m : Manager) (k : ConnCall) (hok : Unfailing (.call k)) :
    Behaves c.live c (c.call m k).2.1 m (c.call m k).2.2 k (c.call m k).1
      ↔ (k.needsLive = true → c.stale = false) := by
  cases k with
  | begin isolation =>
      cases h : c.tx with
      | none => simp [Conn.call, Conn.begin, h, Behaves, Conn.live, Conn.stale]
      | some tx => simp [Conn.call, Conn.begin, h, Behaves, Conn.live, Conn.stale,
          ConnCall.needsLive]
  | set key val fails =>
      cases h : c.tx with
      | none =>
          obtain rfl : fails = false := hok
          simp [Conn.call, Conn.set, h, Behaves, Buffered, Immediate, Conn.live, Conn.stale]
      | some tx =>
          simp only [Conn.call, Conn.set, h, Behaves, Buffered, Immediate, Conn.live,
            Conn.stale, ConnCall.needsLive]
          cases hfin : tx.finished with
          | false => simp
          | true => simp
  | get key => simp [Behaves, ConnCall.needsLive]
  | commit ranges writes fails => simp [Behaves, ConnCall.needsLive]
  | abort => simp [Behaves, ConnCall.needsLive]

-- ============================================================ runs

theorem faithful_iff_of_live (c : Conn) (m : Manager) (es : List Event)
    (hok : ∀ e ∈ es, Unfailing e) : Faithful c.live c m es ↔ NeverStale c m es := by
  induction es generalizing c m with
  | nil => exact Iff.rfl
  | cons e es ih =>
      have hrest : ∀ e ∈ es, Unfailing e := fun e he => hok e (by simp [he])
      cases e with
      | other m' => exact ih c m' hrest
      | call k =>
          have hk : Unfailing (.call k) := hok _ (by simp)
          simp only [Faithful, NeverStale]
          rw [behaves_iff c m k hk, opens_live c m k hk, ih _ _ hrest]

/-- From a new connection, a run of calls behaves as it should just when
no `Begin` and no `Set` in it finds a transaction that has ended. -/
theorem faithful_iff_neverStale (c : Conn) (hnew : c.tx = none) (m : Manager)
    (es : List Event) (hok : ∀ e ∈ es, Unfailing e) :
    Faithful false c m es ↔ NeverStale c m es := by
  have hlive : c.live = false := by simp [Conn.live, hnew]
  rw [← hlive]
  exact faithful_iff_of_live c m es hok

/-- A transaction that is aborted before the next one. -/
theorem faithful_begin_abort_begin :
    Faithful false ⟨1, none, 0, 0, true⟩ (newManager fun _ => none)
      [.call (.begin 0), .call (.set [107] (some [1]) false), .call .abort,
        .call (.begin 0)] := by
  apply (faithful_iff_neverStale ⟨1, none, 0, 0, true⟩ rfl (newManager fun _ => none)
    [.call (.begin 0), .call (.set [107] (some [1]) false), .call .abort, .call (.begin 0)]
    ?_).mpr
  · exact ⟨fun _ => rfl, fun _ => rfl, fun _ => rfl, fun _ => rfl, trivial⟩
  · simp [Unfailing]

/-- A transaction that is committed: the next `Set` never reaches the
store, and the next `Begin` is refused. -/
theorem unfaithful_after_commit :
    ¬ Faithful false ⟨1, none, 0, 0, true⟩ (newManager fun _ => none)
        [.call (.begin 0), .call (.commit Visit.inOrder Visit.inOrder fun _ => false),
          .call (.set [107] (some [1]) false)] ∧
      ¬ Faithful false ⟨1, none, 0, 0, true⟩ (newManager fun _ => none)
        [.call (.begin 0), .call (.commit Visit.inOrder Visit.inOrder fun _ => false),
          .call (.begin 0)] := by
  constructor
  · intro h
    obtain ⟨-, -, ⟨-, hnow⟩, -⟩ := h
    have hkv := congrFun (hnow rfl).2 [107]
    simp at hkv
    cases hkv
  · intro h
    obtain ⟨-, -, hbegin, -⟩ := h
    cases hbegin.mpr rfl

end Svacara.Pooling
