/-
The books of the pool.

`Accounted` says that `conns` lists the free and the held connections,
each once, and no more than allowed. A run is `Sound` when every call in
it returns, every state of it is accounted for, and every connection is
handed out within its lifetime. That is the case just when every
`Acquire` is made in time (`sound_iff_allInTime`): the connection it
would hand out is neither idle too long in a pool with more than
`MinConns` of them, nor past its lifetime.

# Why both are needed

A connection past its lifetime makes the walk remove entries of `conns`
until there are none left to remove, and then panic. One that is only
idle too long is handed out all the same, but with entries missing from
`conns` that are still free or held; the counts then differ.
-/
import Svacara.Pool.Proofs.Holder

namespace Svacara.Pooling

open Transaction Outcome

structure Accounted (s : Sys) : Prop where
  nodup : s.pool.conns.Nodup
  perm : s.pool.conns.Perm (s.pool.free ++ s.held.map Prod.snd)
  le_max : s.pool.conns.length ≤ s.pool.config.maxConns

/-- A connection handed out is not past its lifetime, by the clock of the
call. -/
def Young (s' : Sys) : Call → Answer → Prop
  | .acquire _ clock, .acquired (.ok c) =>
      sub clock.now (s'.pool.heap c).createdAt ≤ s'.pool.config.maxLifetime
  | _, _ => True

/-- Every call of a run returns, hands out no connection past its
lifetime, and is made and ends in a state that is accounted for. -/
def Sound : Sys → List Call → Prop
  | s, [] => Accounted s
  | s, c :: calls =>
      Accounted s ∧ ∃ a s', step s c = .ok (a, s') ∧ Young s' c a ∧ Sound s' calls

/-- The connection that an `Acquire` would hand out, the first free one
or else a new one, is neither idle too long nor past its lifetime. -/
def InTime (p : Pool) (clock : Clock) : Prop :=
  match p.free with
  | [] =>
      p.conns.length < p.config.maxConns →
        sub clock.now clock.created ≤ p.config.maxLifetime
  | c :: _ => p.idle clock.now c = false ∧ p.expired clock.now c = false

/-- Every `Acquire` of a run is made in time. -/
def AllInTime : Sys → List Call → Prop
  | _, [] => True
  | s, c :: calls =>
      (∀ client clock, c = .acquire client clock → InTime s.pool clock) ∧
        ∀ a s', step s c = .ok (a, s') → AllInTime s' calls

variable {s s' : Sys} {client : Nat} {clock : Clock}

-- ========================================================= in time

/-- A connection that is not out of date goes out at once. -/
theorem acquireLoop_inTime {p : Pool} {now : Time} {c : Nat} {rest : List Nat} (n : Nat)
    (hfree : p.free = c :: rest) (huse : (p.heap c).inUse = false)
    (hidle : p.idle now c = false) (hexp : p.expired now c = false) :
    acquireLoop now (n + 1) 0 p = .ok (some c, p.taken now c rest p.conns) := by
  simp [acquireLoop, hfree, huse, hidle, hexp, Pool.taken, Pool.modify]

/-- In time, `Acquire` returns. -/
theorem acquire_returns {p : Pool} (huse : ∀ c ∈ p.free, (p.heap c).inUse = false)
    (h : InTime p clock) : ∃ res p', p.acquire clock = .ok (res, p') := by
  rw [Pool.acquire]
  by_cases hclosed : p.closed = true
  · simp [hclosed]
  · cases hfree : p.free with
    | nil =>
        rw [← hfree, acquireLoop_nil _ hfree]
        simp only [hclosed, ok_bind]
        exact ⟨_, _, rfl⟩
    | cons c rest =>
        rw [InTime, hfree] at h
        rw [acquireLoop_inTime _ hfree (huse c (by simp [hfree])) h.1 h.2]
        simp only [hclosed, ok_bind]
        exact ⟨_, _, rfl⟩

-- =========================================================== steps

theorem Accounted.length_eq (h : Accounted s) :
    s.pool.conns.length = s.pool.free.length + s.held.length := by
  simpa using h.perm.length_eq

/-- Handing out the first free connection keeps the books. -/
theorem Accounted.taken (h : Accounted s) {c : Nat} {rest : List Nat}
    (hfree : s.pool.free = c :: rest) :
    Accounted ⟨s.pool.taken clock.now c rest s.pool.conns, (client, c) :: s.held⟩ where
  nodup := h.nodup
  perm := by
    have hperm := h.perm
    rw [hfree, List.cons_append] at hperm
    exact hperm.trans List.perm_middle.symm
  le_max := h.le_max

/-- So does handing out a new one. -/
theorem Accounted.grown (h : Accounted s) (hone : OneHolder s) (hfree : s.pool.free = [])
    (hroom : s.pool.conns.length < s.pool.config.maxConns) :
    Accounted ⟨s.pool.grown clock, (client, s.pool.next) :: s.held⟩ where
  nodup := by
    have hnew : s.pool.next ∉ s.pool.conns := by
      intro hmem
      have hheld := h.perm.mem_iff.mp hmem
      rw [hfree, List.nil_append] at hheld
      obtain ⟨⟨a, c⟩, ha, hc⟩ := List.mem_map.mp hheld
      exact absurd (hone.held_lt a c ha) (by rw [← hc]; exact lt_irrefl _)
    rw [show (s.pool.grown clock).conns = s.pool.conns ++ [s.pool.next] from rfl,
      List.nodup_append_comm]
    exact List.nodup_cons.mpr ⟨hnew, h.nodup⟩
  perm := by
    have hperm := h.perm
    rw [hfree, List.nil_append] at hperm
    simp only [Pool.grown, hfree, List.nil_append, List.map_cons]
    exact (List.perm_append_comm.trans (hperm.cons _))
  le_max := by
    simp only [Pool.grown, List.length_append, List.length_singleton]
    omega

theorem Accounted.release (h : Accounted s) {a c : Nat} (ha : (a, c) ∈ s.held) (now : Time)
    (m : Manager) :
    Accounted ⟨{ s.pool with
        heap := Function.update s.pool.heap c (s.pool.put c now), mgr := m,
        free := s.pool.free ++ [c] },
      s.held.erase (a, c)⟩ := by
  refine ⟨h.nodup, ?_, h.le_max⟩
  have hheld : (s.held.map Prod.snd).Perm (c :: (s.held.erase (a, c)).map Prod.snd) :=
    (List.perm_cons_erase ha).map Prod.snd
  have hperm := h.perm.trans (hheld.append_left s.pool.free)
  simpa using hperm

theorem Accounted.method (h : Accounted s) (c : Nat) (call : ConnCall) :
    Accounted ⟨(s.pool.onConn c call).2, s.held⟩ :=
  ⟨h.nodup, h.perm, h.le_max⟩

/-- A call other than `Close`, and in time if it is an `Acquire`, returns
and keeps the books. -/
theorem step_inTime {c : Call} (hone : OneHolder s) (hopen : s.pool.closed = false)
    (h : Accounted s) (hc : c ≠ .close)
    (htime : ∀ client clock, c = .acquire client clock → InTime s.pool clock) :
    ∃ a s', step s c = .ok (a, s') ∧ Young s' c a ∧ Accounted s' ∧
      s'.pool.closed = false := by
  cases c with
  | acquire client clock =>
      have hin := htime client clock rfl
      obtain ⟨res, p, hacq⟩ := acquire_returns hone.free_idle hin
      cases acquire_cases hone.free_idle hacq with
      | closed hclosed => simp [hclosed] at hopen
      | reused c rest conns hfree hexp hsame =>
          rw [InTime, hfree] at hin
          obtain rfl := hsame hin.1
          refine ⟨.acquired (.ok c), _, step_acquire_ok hacq, ?_, h.taken hfree, hopen⟩
          simpa [Young, Pool.taken, Pool.modify, Pool.expired] using hexp
      | created hfree hroom =>
          rw [InTime, hfree] at hin
          refine ⟨.acquired (.ok s.pool.next), _, step_acquire_ok hacq, ?_,
            h.grown hone hfree hroom, hopen⟩
          simpa [Young, Pool.grown] using hin hroom
      | full hfree hfull =>
          exact ⟨.acquired (.error _), _, step_acquire_error hacq, trivial, h, hopen⟩
  | release client c now =>
      by_cases hheld : (client, c) ∈ s.held
      · obtain ⟨m, hrel⟩ := release_eq now (hone.held_inUse client c hheld)
        refine ⟨.none, _, step_release hheld now, trivial, ?_, ?_⟩
        · rw [hrel]
          exact h.release hheld now m
        · simp [hrel, hopen]
      · exact ⟨.none, s, if_neg hheld, trivial, h, hopen⟩
  | close => exact absurd rfl hc
  | method client c call =>
      by_cases hheld : (client, c) ∈ s.held
      · exact ⟨_, _, step_method hheld call, trivial, h.method c call, hopen⟩
      · exact ⟨.none, s, if_neg hheld, trivial, h, hopen⟩

/-- An `Acquire` that returns, keeps the books and hands out no
connection past its lifetime was made in time. -/
theorem inTime_of_step {a : Answer} (hone : OneHolder s) (h : Accounted s) (h' : Accounted s')
    (hstep : step s (.acquire client clock) = .ok (a, s'))
    (hyoung : Young s' (.acquire client clock) a) (hopen : s.pool.closed = false) :
    InTime s.pool clock := by
  cases hone.cases hstep with
  | acquired _ _ c p hacq =>
      cases hacq with
      | reused _ rest conns hfree hexp hsame hless =>
          rw [InTime, hfree]
          refine ⟨?_, hexp⟩
          -- an entry removed from `conns` is missing from the count
          by_contra hidle
          have hlt := hless (by simpa using hidle)
          have hold := h.length_eq
          have hnew : conns.length = rest.length + (s.held.length + 1) := h'.length_eq
          rw [hfree, List.length_cons] at hold
          omega
      | created hfree =>
          rw [InTime, hfree]
          intro _
          simpa [Young, Pool.grown] using hyoung
  | refused _ _ e hacq =>
      cases hacq with
      | closed hclosed => simp [hclosed] at hopen
      | full hfree hfull =>
          rw [InTime, hfree]
          intro hroom
          omega

-- ============================================================ runs

theorem sound_iff_of_accounted (hone : OneHolder s) (hopen : s.pool.closed = false)
    (h : Accounted s) (calls : List Call) (hclose : Call.close ∉ calls) :
    Sound s calls ↔ AllInTime s calls := by
  induction calls generalizing s with
  | nil => exact ⟨fun _ => trivial, fun _ => h⟩
  | cons c calls ih =>
      have hc : c ≠ .close := by
        rintro rfl
        exact hclose (by simp)
      have hrest : Call.close ∉ calls := fun hmem => hclose (by simp [hmem])
      constructor
      · rintro ⟨-, a, s', hstep, hyoung, hsound⟩
        have h' : Accounted s' := by
          cases calls with
          | nil => exact hsound
          | cons d calls => exact hsound.1
        have htime : ∀ client clock, c = .acquire client clock → InTime s.pool clock := by
          rintro client clock rfl
          exact inTime_of_step hone h h' hstep hyoung hopen
        refine ⟨htime, ?_⟩
        intro b t hstep'
        obtain ⟨-, rfl⟩ := Prod.mk.inj (Except.ok.inj (hstep.symm.trans hstep'))
        obtain ⟨b, t, hstep'', -, -, hopen'⟩ := step_inTime hone hopen h hc htime
        obtain ⟨-, rfl⟩ := Prod.mk.inj (Except.ok.inj (hstep.symm.trans hstep''))
        exact (ih (hone.step hstep) hopen' h' hrest).mp hsound
      · rintro ⟨htime, hnext⟩
        obtain ⟨a, s', hstep, hyoung, h', hopen'⟩ := step_inTime hone hopen h hc htime
        exact ⟨h, a, s', hstep, hyoung,
          (ih (hone.step hstep) hopen' h' hrest).mpr (hnext a s' hstep)⟩

/-- A new pool is accounted for. -/
theorem accounted_init (db : Store) (config : Config) (readings : Nat → Time × Time)
    (hmin : 1 ≤ config.minConns) (hmax : config.minConns ≤ config.maxConns) :
    Accounted (Sys.init db config readings) ∧
      (Sys.init db config readings).pool.closed = false := by
  obtain ⟨-, hfree, hconns, hconfig, hclosed, -⟩ := newPool_eq db config readings
  have hmin' : config.withDefaults.minConns = config.minConns := if_neg (by omega)
  have hmax' : config.withDefaults.maxConns = config.maxConns := if_neg (by omega)
  refine ⟨⟨?_, ?_, ?_⟩, hclosed⟩
  · simp only [Sys.init, hconns]
    exact List.nodup_range
  · simp [Sys.init, hconns, hfree]
  · simp only [Sys.init, hconns, hconfig, hmin', hmax', List.length_range]
    omega

/-- A run without `Close` goes by the books just when every `Acquire` in
it is made in time. -/
theorem sound_iff_allInTime (db : Store) (config : Config) (readings : Nat → Time × Time)
    (hmin : 1 ≤ config.minConns) (hmax : config.minConns ≤ config.maxConns)
    (calls : List Call) (hclose : Call.close ∉ calls) :
    Sound (Sys.init db config readings) calls ↔
      AllInTime (Sys.init db config readings) calls := by
  obtain ⟨h, hopen⟩ := accounted_init db config readings hmin hmax
  exact sound_iff_of_accounted (oneHolder_init db config readings) hopen h calls hclose

/-- A call that returns, and a run in time from what it leaves. -/
theorem AllInTime.cons {c : Call} {a : Answer} {calls : List Call}
    (hstep : step s c = .ok (a, s'))
    (htime : ∀ client clock, c = .acquire client clock → InTime s.pool clock)
    (hrest : AllInTime s' calls) : AllInTime s (c :: calls) := by
  refine ⟨htime, fun a' s'' hstep' => ?_⟩
  obtain ⟨-, rfl⟩ := Prod.mk.inj (Except.ok.inj (hstep.symm.trans hstep'))
  exact hrest

/-- Two clients and two connections, of which one is released and taken
again within its times. -/
theorem sound_two_clients :
    Sound (Sys.init (fun _ => none) ⟨2, 1, 10, 100, sessionMode⟩ fun _ => (0, 0))
      [.acquire 7 ⟨0, 0, 0⟩, .acquire 8 ⟨1, 1, 1⟩, .release 7 0 5, .acquire 8 ⟨15, 15, 15⟩] := by
  refine (sound_iff_allInTime (fun _ => none) ⟨2, 1, 10, 100, sessionMode⟩ (fun _ => (0, 0))
    (by decide) (by decide) _ (by simp)).mpr ?_
  refine .cons rfl ?_ (.cons rfl ?_ (.cons rfl ?_ (.cons rfl ?_ trivial)))
  · rintro client clock heq
    obtain ⟨-, rfl⟩ := Call.acquire.inj heq
    exact ⟨rfl, rfl⟩
  · rintro client clock heq
    obtain ⟨-, rfl⟩ := Call.acquire.inj heq
    exact fun _ => by decide
  · rintro client clock heq
    cases heq
  · rintro client clock heq
    obtain ⟨-, rfl⟩ := Call.acquire.inj heq
    exact ⟨rfl, rfl⟩

/-- An `Acquire` after the lifetime panics. And of two connections
that were idle too long, one is handed out that is no longer listed. -/
theorem unsound_lifetime_and_idle :
    step (Sys.init (fun _ => none) ⟨1, 1, 10, 100, sessionMode⟩ fun _ => (0, 0))
        (.acquire 7 ⟨101, 101, 101⟩) = .error .index ∧
      ¬ Sound (Sys.init (fun _ => none) ⟨1, 1, 10, 100, sessionMode⟩ fun _ => (0, 0))
        [.acquire 7 ⟨101, 101, 101⟩] ∧
      ∃ s, run (Sys.init (fun _ => none) ⟨2, 1, 10, 100, sessionMode⟩ fun _ => (0, 0))
          [.acquire 7 ⟨0, 0, 0⟩, .acquire 8 ⟨0, 0, 0⟩, .release 7 0 0, .release 8 1 0,
            .acquire 7 ⟨20, 20, 20⟩] = .ok s ∧
        s.pool.conns = [1] ∧ s.pool.free = [1] ∧ s.held = [(7, 0)] := by
  refine ⟨rfl, ?_, _, rfl, rfl, rfl, rfl⟩
  intro hsound
  obtain ⟨-, a, s', hstep, -⟩ := hsound
  cases hstep

end Svacara.Pooling
