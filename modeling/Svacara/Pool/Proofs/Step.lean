/-
What a call on a pool can do.

`Acquired` lists the outcomes of an `Acquire` that returned, under the
one thing that holds of every free list in a run: its connections are not
in use. The walk then never gets past the first of them. It either hands
it out, or removes entries of `conns` until the reason for that is gone
or the slice panics.
-/
import Svacara.Pool.Run

namespace Svacara.Pooling

open Transaction Outcome

variable {p p' : Pool} {now : Time} {clock : Clock}

-- ======================================================== the walk

/-- The walk ends: a round either shortens `conns` or moves on. -/
theorem acquireLoop_ne_fuel (now : Time) {n i : Nat} {p : Pool}
    (h : (p.free.length - i) + p.conns.length < n) :
    acquireLoop now n i p ≠ .error .fuel := by
  induction n generalizing i p with
  | zero => omega
  | succ n ih =>
      have hremove : (do
          let p ← p.removeConn i
          acquireLoop now n i p) ≠ .error .fuel := by
        rw [Pool.removeConn]
        by_cases hi : i < p.conns.length
        · rw [if_pos hi, ok_bind]
          apply ih
          simp only [List.length_eraseIdx_of_lt hi]
          omega
        · simp [if_neg hi]
      rw [acquireLoop]
      cases hc : p.free[i]? with
      | none => simp
      | some c =>
          have hi : i < p.free.length := (List.getElem?_eq_some_iff.mp hc).1
          dsimp only
          split
          · exact hremove
          · split
            · exact hremove
            · split
              · simp
              · apply ih
                omega

theorem acquireLoop_nil (n : Nat) (hfree : p.free = []) :
    acquireLoop now (n + 1) 0 p = .ok (none, p) := by
  simp [acquireLoop, hfree]

/-- The pool after its first free connection was handed out, with `conns`
as the walk left it. -/
def Pool.taken (p : Pool) (now : Time) (c : Nat) (rest conns : List Nat) : Pool :=
  { p.modify c (fun c => { c with inUse := true, lastUsed := now }) with
    conns := conns, free := rest }

/-- A walk that comes back has handed out the first free connection, and
has removed from `conns` just when that one was idle too long. -/
theorem acquireLoop_cons {n c : Nat} {rest : List Nat} {r : Option Nat}
    (hfree : p.free = c :: rest) (hidle : (p.heap c).inUse = false)
    (h : acquireLoop now n 0 p = .ok (r, p')) :
    r = some c ∧ p.expired now c = false ∧ ∃ conns, p' = p.taken now c rest conns ∧
      (p.idle now c = false → conns = p.conns) ∧
      (p.idle now c = true → conns.length < p.conns.length) := by
  induction n generalizing p with
  | zero => simp [acquireLoop] at h
  | succ n ih =>
      rw [acquireLoop, hfree] at h
      simp only [List.getElem?_cons_zero] at h
      by_cases hi : p.idle now c = true
      · rw [if_pos hi] at h
        obtain ⟨q, hq, h⟩ := bind_eq_ok.mp h
        rw [Pool.removeConn] at hq
        split at hq
        · obtain rfl := Except.ok.inj hq
          rename_i hlt
          obtain ⟨hr, hexp, conns, hp', hsame, hless⟩ :=
            ih (p := { p with conns := p.conns.eraseIdx 0 }) hfree hidle h
          refine ⟨hr, hexp, conns, hp', by simp [hi], fun _ => ?_⟩
          have hlen : conns.length ≤ (p.conns.eraseIdx 0).length := by
            by_cases hq : Pool.idle { p with conns := p.conns.eraseIdx 0 } now c = true
            · exact (hless hq).le
            · rw [hsame (Bool.not_eq_true _ ▸ hq)]
          rw [List.length_eraseIdx_of_lt hlt] at hlen
          omega
        · simp at hq
      · rw [if_neg hi] at h
        by_cases he : p.expired now c = true
        · -- an expired connection stays expired: the walk never returns
          rw [if_pos he] at h
          obtain ⟨q, hq, h⟩ := bind_eq_ok.mp h
          rw [Pool.removeConn] at hq
          split at hq
          · obtain rfl := Except.ok.inj hq
            obtain ⟨-, hexp, -⟩ :=
              ih (p := { p with conns := p.conns.eraseIdx 0 }) hfree hidle h
            exact absurd (hexp.symm.trans he) (by simp)
          · simp at hq
        · rw [if_neg he, if_pos hidle] at h
          obtain ⟨rfl, rfl⟩ : some c = r ∧ _ = p' := by simpa using h
          refine ⟨rfl, by simpa using he, p.conns, ?_, fun _ => rfl, fun h => absurd h hi⟩
          simp [Pool.taken, Pool.modify, hfree]

-- ========================================================= Acquire

/-- The pool after a connection was created for the caller. -/
def Pool.grown (p : Pool) (clock : Clock) : Pool :=
  { p with
    nextID := p.nextID + 1
    heap := Function.update p.heap p.next
      { id := p.nextID + 1, tx := none, createdAt := clock.created, lastUsed := clock.used,
        inUse := true }
    next := p.next + 1
    conns := p.conns ++ [p.next] }

/-- The outcomes of an `Acquire` that returned. -/
inductive Acquired (p : Pool) (clock : Clock) : Except String Nat → Pool → Prop where
  | closed (hclosed : p.closed = true) :
      Acquired p clock (.error "pool is closed") p
  | reused (c : Nat) (rest conns : List Nat) (hfree : p.free = c :: rest)
      (hexp : p.expired clock.now c = false)
      (hsame : p.idle clock.now c = false → conns = p.conns)
      (hless : p.idle clock.now c = true → conns.length < p.conns.length) :
      Acquired p clock (.ok c) (p.taken clock.now c rest conns)
  | created (hfree : p.free = []) (hroom : p.conns.length < p.config.maxConns) :
      Acquired p clock (.ok p.next) (p.grown clock)
  | full (hfree : p.free = []) (hfull : p.config.maxConns ≤ p.conns.length) :
      Acquired p clock (.error "no available connections") p

theorem create_room (hfree : p.free = []) (hroom : p.conns.length < p.config.maxConns) :
    p.create clock = (.ok p.next, p.grown clock) := by
  simp [Pool.create, hroom, Pool.createConn, Pool.modify, Pool.grown, hfree]

theorem acquire_cases {res : Except String Nat}
    (hidle : ∀ c ∈ p.free, (p.heap c).inUse = false)
    (h : p.acquire clock = .ok (res, p')) : Acquired p clock res p' := by
  rw [Pool.acquire] at h
  by_cases hclosed : p.closed = true
  · rw [if_pos hclosed] at h
    obtain ⟨rfl, rfl⟩ : .error "pool is closed" = res ∧ p = p' := by simpa using h
    exact .closed hclosed
  · rw [if_neg hclosed] at h
    obtain ⟨⟨r, q⟩, hloop, h⟩ := bind_eq_ok.mp h
    cases hfree : p.free with
    | nil =>
        rw [acquireLoop_nil _ hfree] at hloop
        obtain ⟨rfl, rfl⟩ : none = r ∧ p = q := by simpa using hloop
        by_cases hroom : p.conns.length < p.config.maxConns
        · simp only [create_room hfree hroom, pure_eq_ok, Except.ok.injEq,
            Prod.mk.injEq] at h
          obtain ⟨rfl, rfl⟩ := h
          exact .created hfree hroom
        · simp only [Pool.create, if_neg hroom, pure_eq_ok, Except.ok.injEq,
            Prod.mk.injEq] at h
          obtain ⟨rfl, rfl⟩ := h
          exact .full hfree (by omega)
    | cons c rest =>
        obtain ⟨rfl, hexp, conns, rfl, hsame, hless⟩ :=
          acquireLoop_cons hfree (hidle c (by simp [hfree])) hloop
        obtain ⟨rfl, rfl⟩ : .ok c = res ∧ p.taken clock.now c rest conns = p' := by
          simpa using h
        exact .reused c rest conns hfree hexp hsame hless

-- ========================================================= Release

/-- The connection a `Release` leaves. -/
def Pool.put (p : Pool) (c : Nat) (now : Time) : Conn :=
  let conn := if p.config.mode = transactionMode then ((p.heap c).abort p.mgr).1 else p.heap c
  { conn with inUse := false, lastUsed := now }

theorem abort_tx (c : Conn) (m : Manager) : (c.abort m).1 = { c with tx := none } := by
  rw [Conn.abort]
  cases h : c.tx with
  | none => simp [← h]
  | some tx => rfl

/-- In transaction mode the connection comes back without a
transaction. -/
theorem put_eq (p : Pool) (c : Nat) (now : Time) :
    p.put c now = { p.heap c with
      tx := if p.config.mode = transactionMode then none else (p.heap c).tx
      inUse := false
      lastUsed := now } := by
  rw [Pool.put]
  by_cases hmode : p.config.mode = transactionMode
  · simp [hmode, abort_tx]
  · simp [hmode]

theorem release_eq {c : Nat} (now : Time) (h : (p.heap c).inUse = true) :
    ∃ m, p.release c now = { p with
      heap := Function.update p.heap c (p.put c now), mgr := m, free := p.free ++ [c] } := by
  rw [Pool.release, if_neg (by simp [h])]
  by_cases hmode : p.config.mode = transactionMode
  · refine ⟨((p.heap c).abort p.mgr).2, ?_⟩
    simp [hmode, Pool.dropTx, Pool.modify, Pool.put]
  · refine ⟨p.mgr, ?_⟩
    simp [hmode, Pool.modify, Pool.put]

-- ========================================================= methods

/-- A method changes nothing of a connection but its transaction. -/
theorem call_conn (c : Conn) (m : Manager) (call : ConnCall) :
    ∃ tx, (c.call m call).2.1 = { c with tx := tx } := by
  cases call with
  | begin isolation =>
      rw [Conn.call, Conn.begin]
      cases h : c.tx with
      | none => exact ⟨_, rfl⟩
      | some tx => exact ⟨some tx, by simp [← h]⟩
  | get key =>
      rw [Conn.call, Conn.get]
      cases h : c.tx with
      | none => exact ⟨none, by simp [← h]⟩
      | some tx => exact ⟨_, rfl⟩
  | set key val fails =>
      rw [Conn.call, Conn.set]
      cases h : c.tx with
      | none => exact ⟨none, by cases fails <;> simp [← h]⟩
      | some tx => exact ⟨_, rfl⟩
  | commit ranges writes fails =>
      rw [Conn.call, Conn.commit]
      cases h : c.tx with
      | none => exact ⟨none, by simp [← h]⟩
      | some tx => exact ⟨_, rfl⟩
  | abort => exact ⟨none, abort_tx c m⟩

/-- Only the transaction of the one connection changes. -/
theorem onConn_heap (p : Pool) (c : Nat) (call : ConnCall) (d : Nat) :
    ∃ tx, (p.onConn c call).2.heap d = { p.heap d with tx := tx } ∧
      (d ≠ c → tx = (p.heap d).tx) := by
  obtain ⟨tx, htx⟩ := call_conn (p.heap c) p.mgr call
  by_cases hd : d = c
  · subst hd
    exact ⟨tx, by simp [Pool.onConn, htx], fun h => absurd rfl h⟩
  · exact ⟨(p.heap d).tx, by simp [Pool.onConn, hd], fun _ => rfl⟩

-- =========================================================== steps

/-- The outcomes of a call that returned. -/
inductive Stepped (s : Sys) : Call → Answer → Sys → Prop where
  | acquired (client : Nat) (clock : Clock) (c : Nat) (p : Pool)
      (hacq : Acquired s.pool clock (.ok c) p) :
      Stepped s (.acquire client clock) (.acquired (.ok c)) ⟨p, (client, c) :: s.held⟩
  | refused (client : Nat) (clock : Clock) (e : String)
      (hacq : Acquired s.pool clock (.error e) s.pool) :
      Stepped s (.acquire client clock) (.acquired (.error e)) s
  | released (client c : Nat) (now : Time) (m : Manager) (hheld : (client, c) ∈ s.held) :
      Stepped s (.release client c now) .none
        ⟨{ s.pool with
            heap := Function.update s.pool.heap c (s.pool.put c now), mgr := m,
            free := s.pool.free ++ [c] },
          s.held.erase (client, c)⟩
  | closed : Stepped s .close .none ⟨s.pool.close, s.held⟩
  | called (client c : Nat) (call : ConnCall) (hheld : (client, c) ∈ s.held) :
      Stepped s (.method client c call) (.method (s.pool.onConn c call).1)
        ⟨(s.pool.onConn c call).2, s.held⟩
  | notReleased (client c : Nat) (now : Time) (hnot : (client, c) ∉ s.held) :
      Stepped s (.release client c now) .none s
  | notCalled (client c : Nat) (call : ConnCall) (hnot : (client, c) ∉ s.held) :
      Stepped s (.method client c call) .none s

theorem step_acquire_ok {s : Sys} {client c : Nat}
    (h : s.pool.acquire clock = .ok (.ok c, p)) :
    step s (.acquire client clock) = .ok (.acquired (.ok c), ⟨p, (client, c) :: s.held⟩) := by
  simp [step, h]

theorem step_acquire_error {s : Sys} {client : Nat} {e : String}
    (h : s.pool.acquire clock = .ok (.error e, p)) :
    step s (.acquire client clock) = .ok (.acquired (.error e), ⟨p, s.held⟩) := by
  simp [step, h]

theorem step_release {s : Sys} {client c : Nat} (h : (client, c) ∈ s.held) (now : Time) :
    step s (.release client c now)
      = .ok (.none, ⟨s.pool.release c now, s.held.erase (client, c)⟩) :=
  if_pos h

theorem step_method {s : Sys} {client c : Nat} (h : (client, c) ∈ s.held) (call : ConnCall) :
    step s (.method client c call)
      = .ok (.method (s.pool.onConn c call).1, ⟨(s.pool.onConn c call).2, s.held⟩) :=
  if_pos h

theorem step_cases {s s' : Sys} {k : Call} {a : Answer}
    (hfree : ∀ c ∈ s.pool.free, (s.pool.heap c).inUse = false)
    (hheld : ∀ a c, (a, c) ∈ s.held → (s.pool.heap c).inUse = true)
    (h : step s k = .ok (a, s')) : Stepped s k a s' := by
  cases k with
  | acquire client clock =>
      obtain ⟨⟨res, p⟩, hacq, h⟩ := bind_eq_ok.mp h
      have hcases := acquire_cases hfree hacq
      cases res with
      | ok c =>
          obtain ⟨rfl, rfl⟩ : .acquired (.ok c) = a ∧ ⟨p, (client, c) :: s.held⟩ = s' := by
            simpa using h
          exact .acquired client clock c p hcases
      | error e =>
          obtain ⟨rfl, rfl⟩ : .acquired (.error e) = a ∧ ⟨p, s.held⟩ = s' := by
            simpa using h
          obtain rfl : p = s.pool := by cases hcases <;> rfl
          exact .refused client clock e hcases
  | release client c now =>
      by_cases hc : (client, c) ∈ s.held
      · rw [step_release hc] at h
        obtain ⟨rfl, rfl⟩ := Prod.mk.inj (Except.ok.inj h)
        obtain ⟨m, hrel⟩ := release_eq now (hheld client c hc)
        rw [hrel]
        exact .released client c now m hc
      · obtain ⟨rfl, rfl⟩ := Prod.mk.inj (Except.ok.inj ((if_neg hc).symm.trans h))
        exact .notReleased client c now hc
  | close =>
      obtain ⟨rfl, rfl⟩ := Prod.mk.inj (Except.ok.inj h)
      exact .closed
  | method client c call =>
      by_cases hc : (client, c) ∈ s.held
      · rw [step_method hc] at h
        obtain ⟨rfl, rfl⟩ := Prod.mk.inj (Except.ok.inj h)
        exact .called client c call hc
      · obtain ⟨rfl, rfl⟩ := Prod.mk.inj (Except.ok.inj ((if_neg hc).symm.trans h))
        exact .notCalled client c call hc

-- ============================================================ runs

/-- An invariant of the steps is one of the runs. -/
theorem run_induction {I : Sys → Prop} {s s' : Sys} {calls : List Call}
    (hstep : ∀ s c a s', I s → step s c = .ok (a, s') → I s') (hs : I s)
    (h : run s calls = .ok s') : I s' := by
  induction calls generalizing s with
  | nil =>
      obtain rfl := Except.ok.inj h
      exact hs
  | cons c calls ih =>
      obtain ⟨⟨a, t⟩, hc, h⟩ := bind_eq_ok.mp h
      exact ih (hstep s c a t hs hc) h

end Svacara.Pooling
