/-
The sessions of a server.

`Handles` lists what can happen to one connection; the rest is about
whole runs. A client without the token does nothing: a run without its
events is the same run for everyone else. Not every token can be sent.
The sessions are apart: each has a pooled connection of its own, which
the events of the others leave as it is. And after a `Shutdown` no
session begins.
-/
import Svacara.Pool.Proofs.Accounting
import Svacara.Server.Proofs.Transactions
import Svacara.Server.Session

namespace Svacara.Serving

open Protocol Pooling Relational Outcome
open Svacara.Kvstore

section

variable {σ : Type} (fmt : Formats) (kv : Storage σ)

/-- The event takes a connection on to `Acquire`, with these frames sent
before. -/
inductive Admits (h : Host σ) (clock : Clock) : Phase → ConnEvent → List Bytes → Prop where
  | free (htoken : h.authToken = []) : Admits h clock .unseen (.accept clock) []
  | token (data : Bytes) (env : Env) (hclock : env.clock = clock)
      (htoken : tokenOf (data.take authSize) = h.authToken) :
      Admits h clock .greeting (.read data env) [authenticated]

/-- What can happen to one connection. -/
inductive Handles (h : Host σ) :
    Phase → ConnEvent → List Bytes → Phase → Host σ → Prop where
  | greeted (clock : Clock) : Handles h .unseen (.accept clock) [] .greeting h
  | refused (data : Bytes) (env : Env) :
      Handles h .greeting (.read data env) [authFailed] .gone h
  | left (now : Time) : Handles h .greeting (.fail now) [] .gone h
  | entered (clock : Clock) (ph : Phase) (e : ConnEvent) (greet : List Bytes)
      (hway : Admits h clock ph e greet) (c : Nat) (p : Pool)
      (hacq : h.pool.acquire clock = .ok (.ok c, p)) :
      Handles h ph e greet (.serving c) { h with pool := p }
  | turned (clock : Clock) (ph : Phase) (e : ConnEvent) (greet : List Bytes)
      (hway : Admits h clock ph e greet) (err : String) (p : Pool)
      (hacq : h.pool.acquire clock = .ok (.error err, p)) :
      Handles h ph e (greet ++ [sendError (lit "pool: " ++ lit err)]) .gone { h with pool := p }
  | invalid (c : Nat) (data : Bytes) (env : Env) (err : String) :
      Handles h (.serving c) (.read data env) [sendError (lit err)] (.serving c) h
  | answered (c : Nat) (data : Bytes) (env : Env) (msg : Message) (reply : Bytes)
      (srv : Server σ) (hmsg : handleMessage fmt kv h.server c msg = .ok (reply, srv)) :
      Handles h (.serving c) (.read data env) [reply] (.serving c) (h.put srv)
  | released (c : Nat) (now : Time) :
      Handles h (.serving c) (.fail now) [] .gone { h with pool := h.pool.release c now }
  | nothing (ph : Phase) (e : ConnEvent) : Handles h ph e [] ph h

end

variable {σ : Type} {fmt : Formats} {kv : Storage σ} {closeStore : σ → σ}
  {h h' : Host σ} {s s' : Net σ} {ph ph' : Phase} {e : ConnEvent} {frames greet : List Bytes}
  {clock : Clock} {events : List NetEvent} {all : List (Nat × Bytes)}

-- =========================================================== steps

theorem enter_cases (hway : Admits h clock ph e greet)
    (hstep : h.enter clock = .ok (frames, ph', h')) :
    Handles fmt kv h ph e (greet ++ frames) ph' h' := by
  obtain ⟨⟨res, p⟩, hacq, hstep⟩ := bind_eq_ok.mp hstep
  cases res with
  | ok c =>
      cases hstep
      rw [List.append_nil]
      exact .entered clock ph e greet hway c p hacq
  | error err =>
      cases hstep
      exact .turned clock ph e greet hway err p hacq

theorem round_cases {c : Nat} {data : Bytes} {env : Env}
    (hstep : h.round fmt kv c data env = .ok (frames, ph', h')) :
    Handles fmt kv h (.serving c) (.read data env) frames ph' h' := by
  obtain ⟨call, -, hstep⟩ := bind_eq_ok.mp hstep
  cases call with
  | sendError err =>
      cases hstep
      exact .invalid c data env err
  | handleMessage msgType payload =>
      obtain ⟨⟨reply, srv⟩, hmsg, hstep⟩ := bind_eq_ok.mp hstep
      cases hstep
      exact .answered c data env _ reply srv hmsg

theorem handleConn_cases (hstep : h.handleConn fmt kv ph e = .ok (frames, ph', h')) :
    Handles fmt kv h ph e frames ph' h' := by
  unfold Host.handleConn at hstep
  split at hstep
  · next clock =>
      split at hstep
      · cases hstep
        exact .nothing _ _
      · split at hstep
        · next htoken => exact enter_cases (.free htoken) hstep
        · cases hstep
          exact .greeted clock
  · next data env =>
      rw [Host.authenticate] at hstep
      split at hstep
      · cases hstep
        exact .refused data env
      · next htoken =>
          obtain ⟨⟨replies, ph, mid⟩, henter, hstep⟩ := bind_eq_ok.mp hstep
          cases hstep
          exact enter_cases (.token data env rfl (not_not.mp htoken)) henter
  · next now =>
      cases hstep
      exact .left now
  · next c data env => exact round_cases hstep
  · next c now =>
      cases hstep
      exact .released c now
  · cases hstep
    exact .nothing _ _

theorem Handles.authToken (hstep : Handles fmt kv h ph e frames ph' h') :
    h'.authToken = h.authToken := by
  cases hstep <;> rfl

-- ============================================================ runs

theorem step_conn {i : Nat} (hstep : s.step fmt kv closeStore (.conn i e) = .ok (all, s')) :
    ∃ frames ph', Handles fmt kv s.host (s.phase i) e frames ph' s'.host
      ∧ s'.phase = Function.update s.phase i ph' ∧ all = frames.map (i, ·) := by
  obtain ⟨⟨frames, ph', host⟩, hhandle, hstep⟩ := bind_eq_ok.mp hstep
  cases hstep
  exact ⟨frames, ph', handleConn_cases hhandle, rfl, rfl⟩

/-- What every step keeps, every run keeps, and what holds of the frames
of every step holds of those of the run. -/
theorem run_rule {I : Net σ → Prop} {P : Nat × Bytes → Prop}
    (hstep : ∀ s e frames s', e ∈ events → I s → s.step fmt kv closeStore e = .ok (frames, s') →
      I s' ∧ ∀ f ∈ frames, P f)
    (hI : I s) (hrun : s.run fmt kv closeStore events = .ok (all, s')) :
    I s' ∧ ∀ f ∈ all, P f := by
  induction events generalizing s all with
  | nil =>
      cases hrun
      exact ⟨hI, fun f hf => absurd hf List.not_mem_nil⟩
  | cons e events ih =>
      obtain ⟨⟨frames, mid⟩, hfirst, hrun⟩ := bind_eq_ok.mp hrun
      obtain ⟨⟨rest, last⟩, hrest, hrun⟩ := bind_eq_ok.mp hrun
      cases hrun
      obtain ⟨hmid, hframes⟩ := hstep s e frames mid (List.mem_cons_self ..) hI hfirst
      obtain ⟨hlast, hall⟩ := ih
        (fun s e frames s' he => hstep s e frames s' (List.mem_cons_of_mem _ he)) hmid hrest
      exact ⟨hlast, fun f hf => (List.mem_append.mp hf).elim (hframes f) (hall f)⟩

-- ================================================== authentication

/-- The server but for what has become of some clients. -/
def Net.mask (s : Net σ) (low : Nat → Bool) (phase : Nat → Phase) : Net σ where
  host := s.host
  phase := fun i => if low i then phase i else s.phase i

/-- The event is one of those clients'. -/
def NetEvent.low (low : Nat → Bool) : NetEvent → Bool
  | .conn i _ => low i
  | .shutdown => false

/-- What is read is not the token. -/
def NetEvent.Guesses (token : Bytes) : NetEvent → Prop
  | .conn _ (.read data _) => tokenOf (data.take authSize) ≠ token
  | _ => True

/-- None of those clients is being served. -/
def Outside (s : Net σ) (low : Nat → Bool) : Prop :=
  ∀ i c, low i = true → s.phase i ≠ .serving c

section

variable {low : Nat → Bool} {phase : Nat → Phase} {e : NetEvent}

theorem mask_update (low : Nat → Bool) (phase : Nat → Phase) (host : Host σ) (i : Nat)
    (ph : Phase) :
    Net.mask ⟨host, Function.update s.phase i ph⟩ low phase
      = if low i then Net.mask ⟨host, s.phase⟩ low phase
        else ⟨host, Function.update (s.mask low phase).phase i ph⟩ := by
  cases hi : low i
  all_goals
    simp only [Net.mask, Net.mk.injEq, true_and, if_true, Bool.false_eq_true, if_false]
    funext j
    by_cases hj : j = i
    · simp [hj, hi]
    · simp [hj]

/-- The event of another client does not see the difference. -/
theorem step_mask (he : e.low low = false) :
    (s.mask low phase).step fmt kv closeStore e
      = (s.step fmt kv closeStore e).map fun r => (r.1, r.2.mask low phase) := by
  cases e with
  | shutdown => rfl
  | conn i e =>
      have hi : low i = false := he
      have hph : (s.mask low phase).phase i = s.phase i := by simp [Net.mask, hi]
      rw [Net.step, Net.step, hph]
      show (s.host.handleConn fmt kv (s.phase i) e >>= _) = _
      cases s.host.handleConn fmt kv (s.phase i) e with
      | error f => rfl
      | ok r =>
          have hmask := mask_update (s := s) low phase r.2.2 i r.2.1
          rw [hi] at hmask
          exact congrArg (fun s' => Except.ok (_, s')) hmask.symm

/-- An event of another client. -/
theorem step_high (he : e.low low = false) (hout : Outside s low)
    (hstep : s.step fmt kv closeStore e = .ok (all, s')) :
    s'.host.authToken = s.host.authToken ∧ Outside s' low ∧ ∀ f ∈ all, low f.1 = false := by
  cases e with
  | shutdown =>
      cases hstep
      refine ⟨?_, hout, fun _ hf => absurd hf List.not_mem_nil⟩
      rw [Host.shut]
      split <;> rfl
  | conn i e =>
      have hi : low i = false := he
      obtain ⟨frames, ph', hhandle, hphase, rfl⟩ := step_conn hstep
      refine ⟨hhandle.authToken, fun j c hj => ?_, fun f hf => ?_⟩
      · rw [hphase, Function.update_of_ne]
        · exact hout j c hj
        · rintro rfl
          exact absurd (hj.symm.trans hi) (by decide)
      · obtain ⟨b, -, rfl⟩ := List.mem_map.mp hf
        exact hi

theorem handleConn_low (fmt : Formats) (kv : Storage σ) {i : Nat} {e : ConnEvent}
    (htoken : h.authToken ≠ []) (hph : ∀ c, ph ≠ .serving c)
    (hguess : (NetEvent.conn i e).Guesses h.authToken) :
    ∃ frames ph', h.handleConn fmt kv ph e = .ok (frames, ph', h)
      ∧ (∀ c, ph' ≠ .serving c) ∧ ∀ f ∈ frames, f = authFailed := by
  unfold Host.handleConn
  split
  · split
    · exact ⟨_, _, rfl, hph, by simp⟩
    · exact ⟨_, _, rfl, by simp, by simp⟩
  · exact ⟨_, _, if_pos hguess, by simp, by simp⟩
  · exact ⟨_, _, rfl, by simp, by simp⟩
  · exact absurd rfl (hph _)
  · exact absurd rfl (hph _)
  · exact ⟨_, _, rfl, hph, by simp⟩

/-- An event of those clients, none of whom has the token. -/
theorem step_low (fmt : Formats) (kv : Storage σ) (closeStore : σ → σ) (phase : Nat → Phase)
    (htoken : s.host.authToken ≠ []) (hout : Outside s low) (he : e.low low = true)
    (hguess : e.Guesses s.host.authToken) :
    ∃ frames s', s.step fmt kv closeStore e = .ok (frames, s') ∧ s'.host = s.host
      ∧ s'.mask low phase = s.mask low phase ∧ Outside s' low
      ∧ ∀ f ∈ frames, low f.1 = true ∧ f.2 = authFailed := by
  cases e with
  | shutdown => cases he
  | conn i e =>
      have hi : low i = true := he
      obtain ⟨frames, ph', hhandle, hph', hframes⟩ :=
        handleConn_low fmt kv htoken (fun c => hout i c hi) hguess
      refine ⟨frames.map (i, ·), ⟨s.host, Function.update s.phase i ph'⟩, ?_, rfl, ?_,
        fun j c hj => ?_, fun f hf => ?_⟩
      · rw [Net.step, hhandle]
        rfl
      · rw [mask_update, hi]
        rfl
      · dsimp only
        rw [Function.update_apply]
        split
        · exact hph' c
        · exact hout j c hj
      · obtain ⟨b, hb, rfl⟩ := List.mem_map.mp hf
        exact ⟨hi, hframes b hb⟩

theorem run_low (htoken : s.host.authToken ≠ []) (hout : Outside s low)
    (hguess : ∀ e ∈ events, e.low low = true → e.Guesses s.host.authToken) :
    (s.mask low phase).run fmt kv closeStore (events.filter fun e => !e.low low)
      = (s.run fmt kv closeStore events).map
        fun r => (r.1.filter fun f => !low f.1, r.2.mask low phase) := by
  induction events generalizing s with
  | nil => rfl
  | cons e events ih =>
      have hrest := fun e' he' => hguess e' (List.mem_cons_of_mem e he')
      cases he : e.low low with
      | true =>
          obtain ⟨frames, mid, hstep, hhost, hmask, hout', hframes⟩ :=
            step_low fmt kv closeStore phase htoken hout he (hguess e (List.mem_cons_self ..) he)
          have hdrop : frames.filter (fun f => !low f.1) = [] := by
            rw [List.filter_eq_nil_iff]
            intro f hf
            simp [(hframes f hf).1]
          rw [List.filter_cons_of_neg (by simp [he]), ← hmask,
            ih (by rwa [hhost]) hout' (by rwa [hhost]), Net.run, hstep, ok_bind]
          dsimp only
          cases mid.run fmt kv closeStore events with
          | error f => rfl
          | ok r =>
              show Except.ok (_, _) = Except.ok ((frames ++ r.1).filter _, _)
              rw [List.filter_append, hdrop, List.nil_append]
      | false =>
          rw [List.filter_cons_of_pos (by simp [he]), Net.run, Net.run, step_mask he]
          cases hstep : s.step fmt kv closeStore e with
          | error f => rfl
          | ok r =>
              obtain ⟨frames, mid⟩ := r
              obtain ⟨htoken', hout', hkeep⟩ := step_high he hout hstep
              have hall : frames.filter (fun f => !low f.1) = frames := by
                rw [List.filter_eq_self]
                intro f hf
                simp [hkeep f hf]
              show (Except.ok (frames, mid.mask low phase) >>= _) = _
              simp only [ok_bind]
              rw [ih (by rwa [htoken']) hout' (by rwa [htoken'])]
              cases mid.run fmt kv closeStore events with
              | error f => rfl
              | ok r =>
                  show Except.ok (_, _) = Except.ok ((frames ++ r.1).filter _, _)
                  rw [List.filter_append, hall]

theorem run_guesses (low : Nat → Bool) (htoken : s.host.authToken ≠ []) (hout : Outside s low)
    (hguess : ∀ e ∈ events, e.low low = true → e.Guesses s.host.authToken)
    (hrun : s.run fmt kv closeStore events = .ok (all, s')) :
    Outside s' low ∧ ∀ f ∈ all, low f.1 = true → f.2 = authFailed := by
  have hrule := run_rule (I := fun t => Outside t low ∧ t.host.authToken = s.host.authToken)
    (P := fun f => low f.1 = true → f.2 = authFailed) ?_ ⟨hout, rfl⟩ hrun
  · exact ⟨hrule.1.1, hrule.2⟩
  rintro t e frames t' he ⟨hout, hsame⟩ hstep
  cases hlow : e.low low with
  | true =>
      obtain ⟨frames', mid, hstep', hhost, -, hout', hframes⟩ := step_low fmt kv closeStore
        s.phase (hsame ▸ htoken) hout hlow (hsame ▸ hguess e he hlow)
      cases hstep'.symm.trans hstep
      exact ⟨⟨hout', hhost ▸ hsame⟩, fun f hf _ => (hframes f hf).2⟩
  | false =>
      obtain ⟨htoken', hout', hkeep⟩ := step_high hlow hout hstep
      refine ⟨⟨hout', htoken'.trans hsame⟩, fun f hf hbad => ?_⟩
      rw [hkeep f hf] at hbad
      cases hbad

end

/-- The events of clients that never send the token: without them, the run
is the same for all others, and all they are sent is the refusal. -/
theorem unauthenticated_no_effect (fmt : Formats) (kv : Storage σ) (closeStore : σ → σ)
    (s : Net σ) (low : Nat → Bool) (events : List NetEvent) (htoken : s.host.authToken ≠ [])
    (hout : Outside s low)
    (hguess : ∀ e ∈ events, e.low low = true → e.Guesses s.host.authToken) :
    s.run fmt kv closeStore (events.filter fun e => !e.low low)
        = (s.run fmt kv closeStore events).map
          (fun r => (r.1.filter fun f => !low f.1, r.2.mask low s.phase))
      ∧ ∀ r, s.run fmt kv closeStore events = .ok r →
        ∀ f ∈ r.1, low f.1 = true → f.2 = authFailed := by
  have hself : s.mask low s.phase = s := by
    unfold Net.mask
    simp
  have hrun : (s.mask low s.phase).run fmt kv closeStore _ = _ := run_low htoken hout hguess
  rw [hself] at hrun
  exact ⟨hrun, fun _ hr => (run_guesses low htoken hout hguess hr).2⟩

/-- A client with a wrong token comes between the two events of another. -/
def guessRun : List NetEvent :=
  let env := fun now => { clock := ⟨now, now, now⟩ }
  [.conn 1 (.accept ⟨0, 0, 0⟩), .conn 2 (.accept ⟨0, 0, 0⟩), .conn 2 (.read [8, 10] (env 1)),
    .conn 1 (.read [7, 10] (env 2))]

theorem unauthenticated_no_effect_guess :
    let s := newNet memory Memory.empty [7] 5 fun _ => (0, 0)
    (s.run plainFormats memory id guessRun).map Prod.fst
        = .ok [(2, authFailed), (1, authenticated)]
      ∧ (s.run plainFormats memory id (guessRun.filter fun e => !e.low (· = 2))).map Prod.fst
        = .ok [(1, authenticated)] := by
  intro s
  refine ⟨rfl, ?_⟩
  rw [(unauthenticated_no_effect plainFormats memory id s (· = 2) guessRun
    (List.cons_ne_nil _ _) (fun i c _ => Phase.noConfusion) ?_).1]
  · rfl
  · intro e he hlow
    simp only [guessRun, List.mem_cons, List.not_mem_nil, or_false] at he
    rcases he with rfl | rfl | rfl | rfl
    · cases hlow
    · trivial
    · show tokenOf [8, 10] ≠ [7]
      decide
    · cases hlow

/-- What a client can send as a token. -/
def Fits (token : Bytes) : Prop := token.length < authSize ∧ ∀ b ∈ token, isBreak b = false

theorem tokenOf_fits {data token : Bytes} (hne : token ≠ [])
    (h : tokenOf (data.take authSize) = token) : Fits token := by
  unfold tokenOf at h
  split at h
  · next i hi =>
      obtain ⟨hlt, -, hbefore⟩ := List.findIdx?_eq_some_iff_getElem.mp hi
      subst h
      refine ⟨?_, fun b hb => ?_⟩
      · have := List.length_take_le authSize data
        rw [List.length_take]
        omega
      · obtain ⟨j, hj, rfl⟩ := List.getElem_of_mem hb
        rw [List.length_take] at hj
        rw [List.getElem_take]
        exact Bool.eq_false_of_not_eq_true (hbefore j (by omega))
  · exact absurd h.symm hne

theorem tokenOf_line {token : Bytes} (h : Fits token) :
    tokenOf ((token ++ [10]).take authSize) = token := by
  rw [List.take_of_length_le (by simpa using Nat.succ_le_of_lt h.1), tokenOf,
    List.findIdx?_append, List.findIdx?_eq_none_iff.mpr h.2]
  simp [isBreak]

section

variable (store : σ) {token : Bytes} (maxConns : Int) (readings : Nat → Time × Time)

/-- A new server lets the first in who sends its token. -/
theorem newNet_authenticate (kv : Storage σ) (hfits : Fits token) :
    let s := newNet kv store token maxConns readings
    ∃ host, s.host.authenticate (token ++ [10]) ⟨(readings 0).1, 0, 0⟩
      = .ok ([authenticated], .serving 0, host) := by
  intro s
  have hexpired : decide (hour < sub (readings 0).1 (readings 0).1) = false := by
    simp [sub, hour, minute]
  have hloop := acquireLoop_inTime (p := s.host.pool) 4 rfl rfl (Bool.and_false _) hexpired
  obtain ⟨host, henter⟩ : ∃ host, s.host.enter ⟨(readings 0).1, 0, 0⟩
      = .ok ([], .serving 0, host) := ⟨_, congrArg (fun r => (r >>= _) >>= _) hloop⟩
  exact ⟨host, (if_neg (not_not.mpr (tokenOf_line hfits))).trans (congrArg (· >>= _) henter)⟩

/-- With a token set, somebody can be served iff it is one that can be
sent. -/
theorem served_iff_fits (fmt : Formats) (kv : Storage σ) (closeStore : σ → σ)
    (htoken : token ≠ []) :
    (∃ events all s i c, (newNet kv store token maxConns readings).run fmt kv closeStore events
      = .ok (all, s) ∧ s.phase i = .serving c) ↔ Fits token := by
  constructor
  · rintro ⟨events, all, s, i, c, hrun, hi⟩
    by_contra hnot
    refine (run_guesses (fun _ => true) htoken (fun i c _ => Phase.noConfusion) (fun e _ _ => ?_)
      hrun).1 i c rfl hi
    rcases e with ⟨i, clock | ⟨data, env⟩ | now⟩ | -
    · trivial
    · exact fun hread => hnot (tokenOf_fits htoken hread)
    · trivial
    · trivial
  · intro hfits
    let s := newNet kv store token maxConns readings
    obtain ⟨host, hauth⟩ := newNet_authenticate store maxConns readings kv hfits
    have haccept : s.step fmt kv closeStore (.conn 0 (.accept ⟨0, 0, 0⟩))
        = .ok ([], ⟨s.host, Function.update s.phase 0 .greeting⟩) :=
      congrArg (· >>= _) (if_neg htoken)
    have hread : Net.step fmt kv closeStore ⟨s.host, Function.update s.phase 0 .greeting⟩
        (.conn 0 (.read (token ++ [10]) { clock := ⟨(readings 0).1, 0, 0⟩ })) = .ok (_, _) :=
      congrArg (· >>= _) hauth
    exact ⟨[_, _], _, _, 0, 0, bind_eq_ok.mpr ⟨_, haccept, bind_eq_ok.mpr
      ⟨_, bind_eq_ok.mpr ⟨_, hread, rfl⟩, rfl⟩⟩, rfl⟩

end

theorem served_iff_fits_short : ∃ events all s i c,
    (newNet memory Memory.empty [7] 5 fun _ => (0, 0)).run plainFormats memory id events
      = .ok (all, s) ∧ s.phase i = .serving c :=
  (served_iff_fits _ _ _ plainFormats memory id (by simp)).mpr ⟨by decide, by simp [isBreak]⟩

-- =================================================== who is served

/-- The clients in the loop are the holders of their connections. -/
structure Seats (s : Net σ) (held : List (Nat × Nat)) : Prop where
  holder : OneHolder ⟨s.host.pool, held⟩
  iff_held : ∀ i c, s.phase i = .serving c ↔ (i, c) ∈ held

/-- A message changes the transaction of its own connection only. -/
theorem handleMessage_conns {srv srv' : Server σ} {c : Nat} {msg : Message} {reply : Bytes}
    (hmsg : handleMessage fmt kv srv c msg = .ok (reply, srv')) (d : Nat) :
    (srv'.conns d).inUse = (srv.conns d).inUse ∧ (d ≠ c → srv'.conns d = srv.conns d) := by
  have hafter : ∀ (conn : Conn) (m : Transaction.Manager) (call : ConnCall),
      conn = ((srv.conns c).call (srv.manager kv) call).2.1 →
      ((srv.after c conn m).conns d).inUse = (srv.conns d).inUse
        ∧ (d ≠ c → (srv.after c conn m).conns d = srv.conns d) := by
    intro conn m call hconn
    obtain ⟨tx, htx⟩ := call_conn (srv.conns c) (srv.manager kv) call
    by_cases hd : d = c
    · subst hd
      simp [Server.after, hconn, htx]
    · simp [Server.after, hd]
  cases handleMessage_cases hmsg with
  | query => exact ⟨rfl, fun _ => rfl⟩
  | begin => exact hafter _ _ (.begin 0) rfl
  | commit => exact hafter _ _ (.commit msg.ranges msg.writes msg.fails) rfl
  | abort => exact hafter _ _ .abort rfl
  | unknown => exact ⟨rfl, fun _ => rfl⟩

section

variable {held : List (Nat × Nat)} {i : Nat}

/-- A connection goes to a place outside the loop. -/
theorem Seats.move (hs : Seats s held) (hout : ∀ c, s.phase i ≠ .serving c)
    (hph : ∀ c, ph' ≠ .serving c) : Seats ⟨s.host, Function.update s.phase i ph'⟩ held where
  holder := hs.holder
  iff_held j c := by
    rw [← hs.iff_held]
    by_cases hj : j = i
    · subst hj
      simp [hph c, hout c]
    · simp [hj]

theorem Seats.enter (hs : Seats s held) (hout : ∀ c, s.phase i ≠ .serving c) {c : Nat} {p : Pool}
    (hacq : Acquired s.host.pool clock (.ok c) p) :
    Seats ⟨{ s.host with pool := p }, Function.update s.phase i (.serving c)⟩
      ((i, c) :: held) where
  holder := hs.holder.acquire i hacq
  iff_held j d := by
    rw [List.mem_cons, ← hs.iff_held]
    by_cases hj : j = i
    · subst hj
      simp [hout d, eq_comm]
    · simp [hj]

theorem Seats.release (hs : Seats s held) {c : Nat} (hph : s.phase i = .serving c)
    (now : Time) :
    Seats ⟨{ s.host with pool := s.host.pool.release c now }, Function.update s.phase i .gone⟩
      (held.erase (i, c)) := by
  have hheld := (hs.iff_held i c).mp hph
  obtain ⟨m, hrelease⟩ := release_eq now (hs.holder.held_inUse i c hheld)
  refine ⟨?_, fun j d => ?_⟩
  · rw [hrelease]
    exact hs.holder.release hheld now m
  · rw [hs.holder.mem_erase hheld, ← hs.iff_held]
    by_cases hj : j = i
    · subst hj
      simp [hph, eq_comm]
    · have hne : s.phase j = .serving d → d ≠ c := by
        rintro hd rfl
        exact hj (hs.holder.unique ((hs.iff_held j d).mp hd) hheld)
      simpa [hj] using hne

theorem Seats.answer (hs : Seats s held) {c : Nat} {msg : Message} {reply : Bytes}
    {srv : Server σ} (hmsg : handleMessage fmt kv s.host.server c msg = .ok (reply, srv)) :
    Seats ⟨s.host.put srv, s.phase⟩ held where
  holder := by
    have huse := fun d => (handleMessage_conns hmsg d).1
    refine ⟨hs.holder.free_nodup, fun d hd => ?_, hs.holder.free_lt, hs.holder.held_nodup,
      fun a d hd => ?_, hs.holder.held_lt⟩
    · exact (huse d).trans (hs.holder.free_idle d hd)
    · exact (huse d).trans (hs.holder.held_inUse a d hd)
  iff_held := hs.iff_held

theorem Admits.outside (hway : Admits h clock ph e greet) (c : Nat) : ph ≠ .serving c := by
  cases hway <;> exact Phase.noConfusion

/-- An `Acquire` leaves the connections of others alone. -/
theorem acquired_heap {p p' : Pool} {c d : Nat} (h : Acquired p clock (.ok c) p') (hd : d ≠ c) :
    p'.heap d = p.heap d := by
  cases h with
  | reused => exact Function.update_of_ne hd ..
  | created => exact Function.update_of_ne hd ..

/-- What happens to one connection keeps the seats, and the connections
of the others are as before. -/
theorem Seats.handles (hs : Seats s held)
    (hstep : Handles fmt kv s.host (s.phase i) e frames ph' h') :
    (∃ held', Seats ⟨h', Function.update s.phase i ph'⟩ held')
      ∧ ∀ j d, j ≠ i → s.phase j = .serving d → h'.pool.heap d = s.host.pool.heap d := by
  have hother : ∀ {j c d}, j ≠ i → s.phase i = .serving c → s.phase j = .serving d → d ≠ c := by
    rintro j c d hj hi hd rfl
    exact hj (hs.holder.unique ((hs.iff_held j d).mp hd) ((hs.iff_held i d).mp hi))
  have hself : Function.update s.phase i (s.phase i) = s.phase := Function.update_eq_self ..
  obtain ⟨ph, hph⟩ : ∃ ph, s.phase i = ph := ⟨_, rfl⟩
  rw [hph] at hstep hself
  cases hstep with
  | greeted | refused | left =>
      exact ⟨⟨held, hs.move (by simp [hph]) (by simp)⟩, fun _ _ _ _ => rfl⟩
  | nothing | invalid => exact ⟨⟨held, hself.symm ▸ hs⟩, fun _ _ _ _ => rfl⟩
  | entered clock _ _ _ hway c p hacq =>
      have hacq := acquire_cases hs.holder.free_idle hacq
      refine ⟨⟨_, hs.enter (hph ▸ hway.outside) hacq⟩, fun j d _ hd => acquired_heap hacq ?_⟩
      rintro rfl
      exact hs.holder.not_held_of_acquired hacq j ((hs.iff_held j d).mp hd)
  | turned clock _ _ _ hway err p hacq =>
      obtain rfl : p = s.host.pool := by
        cases acquire_cases hs.holder.free_idle hacq <;> rfl
      exact ⟨⟨held, hs.move (hph ▸ hway.outside) (by simp)⟩, fun _ _ _ _ => rfl⟩
  | answered c _ _ msg reply srv hmsg =>
      refine ⟨⟨held, hself.symm ▸ hs.answer hmsg⟩, fun j d hj hd => ?_⟩
      exact (handleMessage_conns hmsg d).2 (hother hj hph hd)
  | released c now =>
      refine ⟨⟨_, hs.release hph now⟩, fun j d hj hd => ?_⟩
      obtain ⟨m, hrelease⟩ := release_eq now
        (hs.holder.held_inUse i c ((hs.iff_held i c).mp hph))
      dsimp only
      rw [hrelease]
      exact Function.update_of_ne (hother hj hph hd) ..

end

/-- In a run of a new server, no two clients are served on one
connection, and what happens to one client leaves the connections of the
others, with their transactions, as they were. -/
theorem sessions_apart (fmt : Formats) (kv : Storage σ) (closeStore : σ → σ) (store : σ)
    (authToken : Bytes) (maxConns : Int) (readings : Nat → Time × Time)
    (events : List NetEvent) (all : List (Nat × Bytes)) (s : Net σ)
    (hrun : (newNet kv store authToken maxConns readings).run fmt kv closeStore events
      = .ok (all, s)) :
    (∀ i j c, s.phase i = .serving c → s.phase j = .serving c → i = j)
      ∧ ∀ i e frames s', s.step fmt kv closeStore (.conn i e) = .ok (frames, s') →
        ∀ j d, j ≠ i → s.phase j = .serving d →
          s'.phase j = .serving d ∧ s'.host.pool.heap d = s.host.pool.heap d := by
  have hseats : ∃ held, Seats s held := by
    refine (run_rule (I := fun s => ∃ held, Seats s held) (P := fun _ => True)
      (fun s e frames s' _ hs hstep => ⟨?_, fun _ _ => trivial⟩) ?_ hrun).1
    · obtain ⟨held, hs⟩ := hs
      cases e with
      | shutdown =>
          cases hstep
          rw [Host.shut]
          split
          · exact ⟨held, hs⟩
          · exact ⟨held, hs.holder.close, hs.iff_held⟩
      | conn i e =>
          obtain ⟨frames, ph', hhandle, hphase, -⟩ := step_conn hstep
          have hnext := (hs.handles hhandle).1
          rwa [← hphase] at hnext
    · exact ⟨[], oneHolder_init _ _ readings, by simp [newNet]⟩
  obtain ⟨held, hs⟩ := hseats
  refine ⟨fun i j c hi hj => ?_, fun i e frames s' hstep j d hj hd => ?_⟩
  · exact hs.holder.unique ((hs.iff_held i c).mp hi) ((hs.iff_held j c).mp hj)
  · obtain ⟨frames, ph', hhandle, hphase, -⟩ := step_conn hstep
    refine ⟨?_, (hs.handles hhandle).2 j d hj hd⟩
    rw [hphase, Function.update_of_ne hj, hd]

theorem sessions_apart_guess :
    ∃ all s, (newNet memory Memory.empty [7] 5 fun _ => (0, 0)).run plainFormats memory id guessRun
        = .ok (all, s) ∧ s.phase 1 = .serving 0 ∧ ∀ j, s.phase j = .serving 0 → j = 1 := by
  have hapart := sessions_apart plainFormats memory id Memory.empty [7] 5 (fun _ => (0, 0)) guessRun
  exact ⟨_, _, rfl, rfl, fun j hj => (hapart _ _ rfl).1 j 1 0 hj rfl⟩

-- ======================================================== Shutdown

theorem release_closed (p : Pool) (c : Nat) (now : Time) : (p.release c now).closed = p.closed := by
  rw [Pool.release]
  split
  · rfl
  · dsimp only
    split <;> rfl

/-- With the pool closed nobody comes into the loop. -/
theorem Handles.closed (hstep : Handles fmt kv h ph e frames ph' h')
    (hclosed : h.pool.closed = true) :
    h'.pool.closed = true ∧ ∀ c, ph' = .serving c → ph = .serving c := by
  have hacquire : ∀ clock, h.pool.acquire clock = .ok (.error "pool is closed", h.pool) :=
    fun clock => if_pos hclosed
  cases hstep with
  | entered clock _ _ _ _ c p hacq =>
      rw [hacquire] at hacq
      cases hacq
  | turned clock _ _ _ _ err p hacq =>
      rw [hacquire] at hacq
      cases hacq
      exact ⟨hclosed, by simp⟩
  | released c now => exact ⟨(release_closed ..).trans hclosed, by simp⟩
  | greeted | refused | left => exact ⟨hclosed, by simp⟩
  | invalid | answered | nothing => exact ⟨hclosed, fun _ => id⟩

end Svacara.Serving
