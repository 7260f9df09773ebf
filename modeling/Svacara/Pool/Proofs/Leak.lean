/-
Transactions and the next client.

Where every connection is released without a transaction, or in
transaction mode, a connection that nobody holds has none (`Unheld`), so
the next client gets it without one. What its transaction then buffers
are its own writes (`OwnOnly`): its reads see the store or these, and its
`Commit` writes nothing else.
-/
import Svacara.Pool.Proofs.Holder
import Svacara.Transaction.Proofs.Step

namespace Svacara.Pooling

open Transaction Outcome

/-- A `Release` leaves the connection without a transaction. -/
def Clean (s : Sys) : Call → Prop
  | .release client c _ =>
      (client, c) ∈ s.held →
        s.pool.config.mode = transactionMode ∨ (s.pool.heap c).tx = none
  | _ => True

/-- Every `Release` of a run does. -/
def AllClean : Sys → List Call → Prop
  | _, [] => True
  | s, c :: calls => Clean s c ∧ ∀ a s', step s c = .ok (a, s') → AllClean s' calls

/-- A connection that nobody holds has no transaction. -/
def Unheld (s : Sys) : Prop :=
  ∀ c, (∀ a, (a, c) ∉ s.held) → (s.pool.heap c).tx = none

variable {s s' : Sys} {p : Pool} {clock : Clock}

-- ==================================================== who has what

/-- An `Acquire` changes no transaction. -/
theorem tx_of_acquired {res : Except String Nat} (h : Acquired s.pool clock res p)
    (hun : Unheld s) (hone : OneHolder s) (d : Nat) :
    (p.heap d).tx = (s.pool.heap d).tx := by
  cases h with
  | closed => rfl
  | reused c rest conns =>
      by_cases hd : d = c
      · simp [Pool.taken, Pool.modify, hd]
      · simp [Pool.taken, Pool.modify, hd]
  | created =>
      by_cases hd : d = s.pool.next
      · have hnew : ∀ a, (a, s.pool.next) ∉ s.held := by
          intro a ha
          exact absurd (hone.held_lt a _ ha) (lt_irrefl _)
        simp [Pool.grown, hd, hun _ hnew]
      · simp [Pool.grown, hd]
  | full => rfl

theorem Unheld.step {k : Call} {a : Answer} (h : Unheld s) (hone : OneHolder s)
    (hclean : Clean s k) (hstep : step s k = .ok (a, s')) : Unheld s' := by
  cases hone.cases hstep with
  | acquired client clock c p hacq =>
      intro d hd
      rw [tx_of_acquired hacq h hone d]
      exact h d fun b hb => hd b (List.mem_cons_of_mem _ hb)
  | refused => exact h
  | released client c now m hheld =>
      intro d hd
      by_cases hdc : d = c
      · -- the connection given back: cleared, or without one already
        simp only [hdc, Function.update_self, put_eq]
        rcases hclean hheld with hmode | htx
        · simp [hmode]
        · simp [htx]
      · simp only [Function.update_of_ne hdc]
        exact h d fun b hb => hd b ((hone.mem_erase hheld).mpr ⟨hdc, hb⟩)
  | closed => exact h
  | called client c call hheld =>
      intro d hd
      have hdc : d ≠ c := by
        intro heq
        exact hd client (heq ▸ hheld)
      obtain ⟨tx, htx, hsame⟩ := onConn_heap s.pool c call d
      simp only [htx]
      exact (hsame hdc).trans (h d hd)
  | notReleased => exact h
  | notCalled => exact h

theorem unheld_init (db : Store) (config : Config) (readings : Nat → Time × Time) :
    Unheld (Sys.init db config readings) := by
  have hcreate : ∀ (p : Pool) (n : Nat), (∀ c, (p.heap c).tx = none) →
      ∀ c, ((p.createConns readings n).heap c).tx = none := by
    intro p n hp
    induction n with
    | zero => exact hp
    | succ n ih =>
        intro c
        simp only [Pool.createConns, Pool.createConn]
        by_cases hc : c = (p.createConns readings n).next
        · simp [hc]
        · simp [hc, ih]
  intro c _
  exact hcreate _ _ (fun _ => rfl) c

theorem unheld_run {calls : List Call} (h : Unheld s) (hone : OneHolder s)
    (hclean : AllClean s calls) (hrun : run s calls = .ok s') : Unheld s' := by
  induction calls generalizing s with
  | nil =>
      obtain rfl := Except.ok.inj hrun
      exact h
  | cons c calls ih =>
      obtain ⟨⟨a, t⟩, hstep, hrun⟩ := bind_eq_ok.mp hrun
      exact ih (h.step hone hclean.1 hstep) (hone.step hstep) (hclean.2 a t hstep) hrun

-- ====================================================== own writes

/-- The client holds the connection, and its transaction buffers nothing
but writes in `W`. -/
def OwnOnly (W : Bytes → Option Bytes → Prop) (a c : Nat) (s : Sys) : Prop :=
  (a, c) ∈ s.held ∧ ∀ tx, (s.pool.heap c).tx = some tx →
    ∀ key val, tx.pending.lookup key = some val → W key val

/-- Only a `Set` adds to what a transaction buffers. -/
theorem call_pending {c : Conn} {m : Manager} {call : ConnCall} {tx' : Tx}
    {key : Bytes} {val : Option Bytes} (htx : (c.call m call).2.1.tx = some tx')
    (h : tx'.pending.lookup key = some val) :
    (∃ tx, c.tx = some tx ∧ tx.pending.lookup key = some val) ∨
      ∃ fails, call = .set key val fails := by
  cases call with
  | begin isolation =>
      cases hc : c.tx with
      | none =>
          simp only [Conn.call, Conn.begin, hc, Option.some.injEq] at htx
          simp [← htx, Transaction.begin] at h
      | some tx =>
          simp only [Conn.call, Conn.begin, hc, Option.some.injEq] at htx
          exact Or.inl ⟨tx, rfl, htx ▸ h⟩
  | get k =>
      cases hc : c.tx with
      | none => simp [Conn.call, Conn.get, hc] at htx
      | some tx =>
          simp only [Conn.call, Conn.get, hc, get_snd, Option.some.injEq] at htx
          rw [← htx] at h
          exact Or.inl ⟨tx, rfl, h⟩
  | set k v fails =>
      cases hc : c.tx with
      | none => cases fails <;> simp [Conn.call, Conn.set, hc] at htx
      | some tx =>
          simp only [Conn.call, Conn.set, hc, Option.some.injEq] at htx
          rw [← htx, Tx.set] at h
          by_cases hk : key = k
          · subst hk
            obtain rfl : v = val := by simpa using h
            exact Or.inr ⟨fails, rfl⟩
          · rw [AList.lookup_insert_ne hk] at h
            exact Or.inl ⟨tx, rfl, h⟩
  | commit ranges writes fails =>
      cases hc : c.tx with
      | none => simp [Conn.call, Conn.commit, hc] at htx
      | some tx =>
          simp only [Conn.call, Conn.commit, hc, Option.some.injEq] at htx
          rw [← htx, commit_pending] at h
          exact Or.inl ⟨tx, rfl, h⟩
  | abort =>
      cases hc : c.tx with
      | none => simp [Conn.call, Conn.abort, hc] at htx
      | some tx => simp [Conn.call, Conn.abort, hc] at htx

theorem OwnOnly.step {W : Bytes → Option Bytes → Prop} {a c : Nat} {k : Call} {ans : Answer}
    (h : OwnOnly W a c s) (hone : OneHolder s) (hkeep : ∀ now, k ≠ .release a c now)
    (hstep : step s k = .ok (ans, s')) :
    OwnOnly (fun key val => W key val ∨ ∃ fails, k = .method a c (.set key val fails))
      a c s' := by
  obtain ⟨hheld, hown⟩ := h
  have hweak : ∀ tx, (s.pool.heap c).tx = some tx → ∀ key val,
      tx.pending.lookup key = some val →
        W key val ∨ ∃ fails, k = .method a c (.set key val fails) :=
    fun tx htx key val hval => Or.inl (hown tx htx key val hval)
  cases hone.cases hstep with
  | acquired client clock d p hacq =>
      have hsame : (p.heap c).tx = (s.pool.heap c).tx := by
        cases hacq with
        | reused _ rest conns =>
            by_cases hd : c = d
            · simp [Pool.taken, Pool.modify, hd]
            · simp [Pool.taken, Pool.modify, hd]
        | created =>
            have hne : c ≠ s.pool.next := Nat.ne_of_lt (hone.held_lt a c hheld)
            simp [Pool.grown, hne]
      exact ⟨List.mem_cons_of_mem _ hheld, fun tx htx => hweak tx (hsame ▸ htx)⟩
  | refused => exact ⟨hheld, hweak⟩
  | released client d now m hd =>
      have hne : c ≠ d := by
        intro heq
        subst heq
        exact hkeep now (by rw [hone.unique hd hheld])
      refine ⟨(hone.mem_erase hd).mpr ⟨hne, hheld⟩, fun tx htx => ?_⟩
      simp only [Function.update_of_ne hne] at htx
      exact hweak tx htx
  | closed => exact ⟨hheld, hweak⟩
  | called client d call hd =>
      refine ⟨hheld, fun tx htx key val hval => ?_⟩
      by_cases hdc : c = d
      · subst hdc
        obtain rfl := hone.unique hd hheld
        simp only [Pool.onConn, Function.update_self] at htx
        rcases call_pending htx hval with ⟨tx₀, htx₀, hval₀⟩ | ⟨fails, rfl⟩
        · exact Or.inl (hown tx₀ htx₀ key val hval₀)
        · exact Or.inr ⟨fails, rfl⟩
      · simp only [Pool.onConn, Function.update_of_ne hdc] at htx
        exact hweak tx htx key val hval
  | notReleased => exact ⟨hheld, hweak⟩
  | notCalled => exact ⟨hheld, hweak⟩

/-- While a client holds a connection, its transaction buffers what it
buffered before and the client's own writes. -/
theorem OwnOnly.run {W : Bytes → Option Bytes → Prop} {a c : Nat} {calls : List Call}
    (h : OwnOnly W a c s) (hone : OneHolder s) (hkeep : ∀ now, .release a c now ∉ calls)
    (hrun : run s calls = .ok s') :
    OwnOnly (fun key val => W key val ∨ ∃ fails, .method a c (.set key val fails) ∈ calls)
      a c s' := by
  induction calls generalizing s W with
  | nil =>
      obtain rfl := Except.ok.inj hrun
      exact ⟨h.1, fun tx htx key val hval => Or.inl (h.2 tx htx key val hval)⟩
  | cons k calls ih =>
      obtain ⟨⟨ans, t⟩, hstep, hrun⟩ := bind_eq_ok.mp hrun
      have hk : ∀ now, k ≠ .release a c now := by
        intro now heq
        exact hkeep now (by simp [heq])
      obtain ⟨hheld, hown⟩ := ih (h.step hone hk hstep) (hone.step hstep)
        (fun now hmem => hkeep now (by simp [hmem])) hrun
      refine ⟨hheld, fun tx htx key val hval => ?_⟩
      rcases hown tx htx key val hval with (hW | ⟨fails, hk⟩) | ⟨fails, hmem⟩
      · exact Or.inl hW
      · exact Or.inr ⟨fails, by simp [hk]⟩
      · exact Or.inr ⟨fails, by simp [hmem]⟩

-- =============================================== reads and commits

/-- A read sees the store, or what the transaction buffers. -/
theorem get_cases (c : Conn) (m : Manager) (key : Bytes) :
    (c.get m key).1 = m.kv key ∨
      ∃ tx, c.tx = some tx ∧ tx.pending.lookup key = some (c.get m key).1 := by
  cases h : c.tx with
  | none => exact Or.inl (by simp [Conn.get, h])
  | some tx =>
      cases hval : tx.pending.lookup key with
      | none => exact Or.inl (by simp [Conn.get, h, Tx.get, hval])
      | some val => exact Or.inr ⟨tx, rfl, by simp [Conn.get, h, Tx.get, hval]⟩

/-- The loop of `Commit` binds a key to what one of the writes says, or
leaves it. -/
theorem applyWrites_cases (fails : Nat → Bool) (n : Nat) (ws : List Write) (kv : Store)
    (key : Bytes) :
    (applyWrites fails n ws kv).1 key = kv key ∨
      ⟨key, (applyWrites fails n ws kv).1 key⟩ ∈ ws := by
  induction ws generalizing n kv with
  | nil => exact Or.inl rfl
  | cons w ws ih =>
      obtain ⟨k, v⟩ := w
      cases hfail : fails n with
      | true => exact Or.inl (by cases v <;> simp [applyWrites, hfail])
      | false =>
          have hstep : applyWrites fails n (⟨k, v⟩ :: ws) kv
              = applyWrites fails (n + 1) ws (Function.update kv k v) := by
            cases v <;> simp [applyWrites, hfail]
          rw [hstep]
          rcases ih (n + 1) (Function.update kv k v) with h | h
          · by_cases hk : key = k
            · subst hk
              rw [Function.update_self] at h
              exact Or.inr (by simp [h])
            · rw [Function.update_of_ne hk] at h
              exact Or.inl h
          · exact Or.inr (List.mem_cons_of_mem _ h)

/-- A `Commit` binds a key to what the transaction buffers, or leaves
it. -/
theorem commit_cases (c : Conn) (m : Manager) (ranges writes : Visit Write)
    (fails : Nat → Bool) (key : Bytes) :
    (c.commit m ranges writes fails).2.2.kv key = m.kv key ∨
      ∃ tx, c.tx = some tx ∧
        tx.pending.lookup key = some ((c.commit m ranges writes fails).2.2.kv key) := by
  cases h : c.tx with
  | none => exact Or.inl (by simp [Conn.commit, h])
  | some tx =>
      simp only [Conn.commit, h, Option.some.injEq, exists_eq_left']
      have happly := applyWrites_cases fails 0 (writes.order tx.pending.entries) m.kv key
      have hown {val : Option Bytes} (hmem : ⟨key, val⟩ ∈ writes.order tx.pending.entries) :
          tx.pending.lookup key = some val :=
        AList.mem_lookup_iff.mpr ((writes.perm _).mem_iff.mp hmem)
      rcases hres : commit true m tx ranges writes fails with ⟨err, tx', m'⟩
      cases change_of_commit hres 0 with
      | finished => exact Or.inl rfl
      | conflict => exact Or.inl rfl
      | empty => exact Or.inl rfl
      | failed _ _ _ _ _ _ _ kv e hwrites =>
          rw [hwrites] at happly
          exact happly.imp_right hown
      | done _ _ _ _ _ _ _ kv hwrites m' hm' =>
          rw [hwrites] at happly
          rw [hm']
          exact happly.imp_right hown

-- =================================================== the guarantee

/-- In a run in which every connection is released without a transaction
or in transaction mode, the next client gets it without one: its `Begin`
succeeds, and until it releases the connection its reads see the store or
its own writes, and its `Commit` writes nothing but these. -/
theorem acquired_without_transaction (db : Store) (config : Config)
    (readings : Nat → Time × Time) (before : List Call) (s s₁ : Sys)
    (hrun : run (Sys.init db config readings) before = .ok s)
    (hclean : AllClean (Sys.init db config readings) before)
    (client c : Nat) (clock : Clock)
    (hacq : step s (.acquire client clock) = .ok (.acquired (.ok c), s₁)) :
    (s₁.pool.heap c).tx = none ∧
      (∀ isolation, ∃ s₂, step s₁ (.method client c (.begin isolation))
        = .ok (.method (.begun none), s₂)) ∧
      ∀ after s₂, run s₁ after = .ok s₂ → (∀ now, .release client c now ∉ after) →
        (∀ key, ((s₂.pool.heap c).get s₂.pool.mgr key).1 = s₂.pool.mgr.kv key ∨
          ∃ fails, .method client c
            (.set key ((s₂.pool.heap c).get s₂.pool.mgr key).1 fails) ∈ after) ∧
        ∀ ranges writes fails key,
          ((s₂.pool.heap c).commit s₂.pool.mgr ranges writes fails).2.2.kv key
              = s₂.pool.mgr.kv key ∨
            ∃ f, .method client c (.set key
              (((s₂.pool.heap c).commit s₂.pool.mgr ranges writes fails).2.2.kv key) f)
                ∈ after := by
  have hone := oneHolder_run hrun
  have hun := unheld_run (unheld_init db config readings) (oneHolder_init db config readings)
    hclean hrun
  obtain ⟨hout, hheld⟩ := hone.of_acquire hacq
  have htx : (s₁.pool.heap c).tx = none := by
    rw [tx_of_acquired hout hun hone c]
    exact hun c (hone.not_held_of_acquired hout)
  have hmine : (client, c) ∈ s₁.held := by
    rw [hheld]
    exact List.mem_cons_self ..
  refine ⟨htx, ?_, ?_⟩
  · intro isolation
    have hbegin : (s₁.pool.onConn c (.begin isolation)).1 = .begun none := by
      simp [Pool.onConn, Conn.call, Conn.begin, htx]
    have hstep := step_method hmine (.begin isolation)
    rw [hbegin] at hstep
    exact ⟨_, hstep⟩
  · intro after s₂ hafter hkeep
    have hstart : OwnOnly (fun _ _ => False) client c s₁ :=
      ⟨hmine, fun tx hsome => by simp [htx] at hsome⟩
    obtain ⟨-, hown⟩ := hstart.run (hone.step hacq) hkeep hafter
    have hset : ∀ key val, (∃ tx, (s₂.pool.heap c).tx = some tx ∧
        tx.pending.lookup key = some val) →
          ∃ fails, Call.method client c (.set key val fails) ∈ after := by
      intro key val hbuf
      obtain ⟨tx, hsome, hval⟩ := hbuf
      exact (hown tx hsome key val hval).resolve_left id
    refine ⟨?_, ?_⟩
    · intro key
      exact (get_cases (s₂.pool.heap c) s₂.pool.mgr key).imp_right (hset key _)
    · intro ranges writes fails key
      exact (commit_cases (s₂.pool.heap c) s₂.pool.mgr ranges writes fails key).imp_right
        (hset key _)

/-- In transaction mode a client gives back a connection with an open
transaction; the next one begins its own. -/
theorem acquired_without_transaction_after_release :
    ∃ s s₁, run (Sys.init (fun _ => none) ⟨1, 1, 10, 100, transactionMode⟩ fun _ => (0, 0))
        [.acquire 7 ⟨0, 0, 0⟩, .method 7 0 (.begin 0),
          .method 7 0 (.set [107] (some [1]) false), .release 7 0 0] = .ok s ∧
      step s (.acquire 8 ⟨0, 0, 0⟩) = .ok (.acquired (.ok 0), s₁) ∧
      (s₁.pool.heap 0).tx = none := by
  refine ⟨_, _, rfl, rfl, ?_⟩
  refine (acquired_without_transaction (fun _ => none) ⟨1, 1, 10, 100, transactionMode⟩
    (fun _ => (0, 0))
    [.acquire 7 ⟨0, 0, 0⟩, .method 7 0 (.begin 0),
      .method 7 0 (.set [107] (some [1]) false), .release 7 0 0] _ _ rfl ?_ 8 0 ⟨0, 0, 0⟩
    rfl).1
  refine ⟨trivial, fun _ _ h₁ => ?_⟩
  obtain ⟨-, rfl⟩ := Prod.mk.inj (Except.ok.inj h₁)
  refine ⟨trivial, fun _ _ h₂ => ?_⟩
  obtain ⟨-, rfl⟩ := Prod.mk.inj (Except.ok.inj h₂)
  refine ⟨trivial, fun _ _ h₃ => ?_⟩
  obtain ⟨-, rfl⟩ := Prod.mk.inj (Except.ok.inj h₃)
  exact ⟨fun _ => Or.inl rfl, fun _ _ _ => trivial⟩

/-- In session mode, which the server uses, the next client finds the
transaction of the last one: its `Begin` is refused, it reads what the
other has not committed, and its `Commit` puts it into the store. -/
theorem leaked_in_session_mode :
    ∃ s s₁, run (Sys.init (fun _ => none) ⟨1, 1, 10, 100, sessionMode⟩ fun _ => (0, 0))
        [.acquire 7 ⟨0, 0, 0⟩, .method 7 0 (.begin 0),
          .method 7 0 (.set [107] (some [1]) false), .release 7 0 0] = .ok s ∧
      step s (.acquire 8 ⟨0, 0, 0⟩) = .ok (.acquired (.ok 0), s₁) ∧
      (s₁.pool.heap 0).tx ≠ none ∧
      ((s₁.pool.heap 0).begin s₁.pool.mgr 0).1 = some .inProgress ∧
      s₁.pool.mgr.kv [107] = none ∧
      ((s₁.pool.heap 0).get s₁.pool.mgr [107]).1 = some [1] ∧
      ((s₁.pool.heap 0).commit s₁.pool.mgr Visit.inOrder Visit.inOrder
        fun _ => false).2.2.kv [107] = some [1] := by
  refine ⟨_, _, rfl, rfl, ?_, rfl, rfl, rfl, rfl⟩
  intro h
  cases h

end Svacara.Pooling
