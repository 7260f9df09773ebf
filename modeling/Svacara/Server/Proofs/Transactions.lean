/-
Queries and the transactions they are sent in.

`handleQuery` runs on the server's own database, so the transaction of
the connection it came from plays no part in it. What a query writes is
in the store at once. Queries that only read leave everything as it was;
where the queries sent in a transaction are of this kind, a run is the
same with or without them, but for the answers to their own connection
(`serve_without`).
-/
import Svacara.Server.Server
import Svacara.Pool.Proofs.Session
import Svacara.Sql.Proofs.Texts
import Svacara.Lib.Outcome

namespace Svacara.Serving

open Protocol Pooling Sql Relational Outcome
open Svacara.Kvstore

/-- The text is not that of a statement that writes: it is a SELECT, an
EXPLAIN, one of the words BEGIN, COMMIT and ABORT, or no statement. -/
def readOnly (text : Bytes) : Bool :=
  match parse text with
  | .ok (.ok (.createTable _)) => false
  | .ok (.ok (.createIndex _)) => false
  | .ok (.ok (.insert _)) => false
  | .ok (.ok (.update _)) => false
  | .ok (.ok (.delete _)) => false
  | _ => true

/-- A query of client `c`. -/
def isQueryOf (c : Nat) (m : Nat × Message) : Bool :=
  m.1 = c && m.2.msgType = msgQuery

/-- The messages without the queries of client `c`. -/
def without (c : Nat) (msgs : List (Nat × Message)) : List (Nat × Message) :=
  msgs.filter fun m => !isQueryOf c m

/-- The answers to the other clients. -/
def others (c : Nat) (replies : List (Nat × Bytes)) : List (Nat × Bytes) :=
  replies.filter fun r => r.1 ≠ c

section

variable {σ : Type} (fmt : Formats) (kv : Storage σ)

/-- Every query that a connection sends while it has an open transaction
only reads. -/
def AllQuiet : Server σ → List (Nat × Message) → Prop
  | _, [] => True
  | srv, (i, msg) :: msgs =>
      (msg.msgType = msgQuery → (srv.conns i).live = true → readOnly msg.payload = true) ∧
        ∀ next ∈ (handleMessage fmt kv srv i msg).toOption, AllQuiet next.2 msgs

instance : (srv : Server σ) → (msgs : List (Nat × Message)) →
    Decidable (AllQuiet fmt kv srv msgs)
  | _, [] => inferInstanceAs (Decidable True)
  | srv, (i, msg) :: msgs =>
      have (next : Bytes × Server σ) := instDecidableAllQuiet next.2 msgs
      inferInstanceAs
        (Decidable (_ ∧ ∀ next ∈ (handleMessage fmt kv srv i msg).toOption, _))

end

variable {σ : Type} {fmt : Formats} {kv : Storage σ} {srv srv' : Server σ}
  {i c : Nat} {msg : Message} {reply : Bytes}

-- ========================================================= queries

/-- A text that does not write leaves the database as it is. -/
theorem executeRaw_readOnly {text : Bytes} (h : readOnly text = true) (db : DB σ) :
    (executeRaw kv text db).2 = db := by
  rw [executeRaw]
  rw [readOnly] at h
  cases hparse : parse text with
  | error f => rfl
  | ok r =>
      cases r with
      | error rest => rfl
      | ok ast =>
          rw [hparse] at h
          cases ast with
          | createTable stmt => simp at h
          | createIndex stmt => simp at h
          | insert stmt => simp at h
          | update stmt => simp at h
          | delete stmt => simp at h
          | select stmt => rfl
          | text s => rfl
          | explain stmt => rfl
          | unknown rest => rfl

-- ======================================================== messages

/-- The outcomes of a message that was answered. -/
inductive Handled (fmt : Formats) (kv : Storage σ) (srv : Server σ) (i : Nat) (msg : Message) :
    Bytes → Server σ → Prop where
  | query (htype : msg.msgType = msgQuery) (reply : Bytes) :
      Handled fmt kv srv i msg reply
        { srv with db := (executeRaw kv msg.payload srv.db).2 }
  | begin (htype : msg.msgType = msgBegin) :
      Handled fmt kv srv i msg
        (sendOutcome fmt ((srv.conns i).begin (srv.manager kv) 0).1)
        (srv.after i ((srv.conns i).begin (srv.manager kv) 0).2.1
          ((srv.conns i).begin (srv.manager kv) 0).2.2)
  | commit (htype : msg.msgType = msgCommit) :
      Handled fmt kv srv i msg
        (sendOutcome fmt
          ((srv.conns i).commit (srv.manager kv) msg.ranges msg.writes msg.fails).1)
        (srv.after i
          ((srv.conns i).commit (srv.manager kv) msg.ranges msg.writes msg.fails).2.1
          ((srv.conns i).commit (srv.manager kv) msg.ranges msg.writes msg.fails).2.2)
  | abort (htype : msg.msgType = msgAbort) :
      Handled fmt kv srv i msg sendReady
        (srv.after i ((srv.conns i).abort (srv.manager kv)).1
          ((srv.conns i).abort (srv.manager kv)).2)
  | unknown (htype : msg.msgType ≠ msgQuery) (reply : Bytes) :
      Handled fmt kv srv i msg reply srv

theorem handleMessage_cases (h : handleMessage fmt kv srv i msg = .ok (reply, srv')) :
    Handled fmt kv srv i msg reply srv' := by
  rw [handleMessage] at h
  by_cases hquery : msg.msgType = msgQuery
  · rw [if_pos hquery] at h
    obtain ⟨result, -, h⟩ := bind_eq_ok.mp h
    obtain ⟨r, -, h⟩ := bind_eq_ok.mp h
    obtain ⟨rfl, rfl⟩ := Prod.mk.inj (Except.ok.inj h)
    exact .query hquery r
  · rw [if_neg hquery] at h
    by_cases hbegin : msg.msgType = msgBegin
    · rw [if_pos hbegin] at h
      obtain ⟨rfl, rfl⟩ := Prod.mk.inj (Except.ok.inj h)
      exact .begin hbegin
    · rw [if_neg hbegin] at h
      by_cases hcommit : msg.msgType = msgCommit
      · rw [if_pos hcommit] at h
        obtain ⟨rfl, rfl⟩ := Prod.mk.inj (Except.ok.inj h)
        exact .commit hcommit
      · rw [if_neg hcommit] at h
        by_cases habort : msg.msgType = msgAbort
        · rw [if_pos habort] at h
          obtain ⟨rfl, rfl⟩ := Prod.mk.inj (Except.ok.inj h)
          exact .abort habort
        · rw [if_neg habort] at h
          obtain ⟨rfl, rfl⟩ := Prod.mk.inj (Except.ok.inj h)
          exact .unknown hquery _

/-- A query that does not write changes nothing. -/
theorem query_readOnly (htype : msg.msgType = msgQuery) (hread : readOnly msg.payload = true)
    (h : handleMessage fmt kv srv i msg = .ok (reply, srv')) : srv' = srv := by
  cases handleMessage_cases h with
  | query _ _ => rw [executeRaw_readOnly hread]
  | begin hbegin => exact absurd (htype.symm.trans hbegin) (by decide)
  | commit hcommit => exact absurd (htype.symm.trans hcommit) (by decide)
  | abort habort => exact absurd (htype.symm.trans habort) (by decide)
  | unknown hne _ => exact absurd htype hne

/-- An open transaction stays open until a Commit or an Abort of its own
connection. -/
theorem live_of_handleMessage (hlive : (srv.conns c).live = true)
    (hends : i = c → msg.msgType ≠ msgCommit ∧ msg.msgType ≠ msgAbort)
    (h : handleMessage fmt kv srv i msg = .ok (reply, srv')) :
    (srv'.conns c).live = true := by
  cases handleMessage_cases h with
  | query _ _ => exact hlive
  | begin _ =>
      by_cases hi : c = i
      · -- a Begin on a connection that has a transaction is refused
        subst hi
        cases htx : (srv.conns c).tx with
        | none => simp [Conn.live, htx] at hlive
        | some tx => simpa [Server.after, Conn.begin, htx] using hlive
      · simpa [Server.after, hi] using hlive
  | commit hcommit =>
      have hi : c ≠ i := fun heq => (hends heq.symm).1 hcommit
      simpa [Server.after, hi] using hlive
  | abort habort =>
      have hi : c ≠ i := fun heq => (hends heq.symm).2 habort
      simpa [Server.after, hi] using hlive
  | unknown _ _ => exact hlive

theorem sendOutcome_ready {err : Option ConnError} (h : sendOutcome fmt err = sendReady) :
    err = none := by
  cases err with
  | none => rfl
  | some e =>
      have hhead := congrArg (fun f => f.headD 0) h
      simp [sendOutcome, sendError, sendReady, encodeMessage, msgError, msgReady] at hhead

/-- An accepted Begin opens a transaction. -/
theorem live_of_accepted (hbegin : msg.msgType = msgBegin)
    (h : handleMessage fmt kv srv c msg = .ok (sendReady, srv')) :
    (srv'.conns c).live = true := by
  have hquery : ¬ msg.msgType = msgQuery := by
    rw [hbegin]
    decide
  rw [handleMessage, if_neg hquery, if_pos hbegin] at h
  obtain ⟨hreply, hsrv⟩ := Prod.mk.inj (Except.ok.inj h)
  have hnone : ((srv.conns c).begin (srv.manager kv) 0).1 = none := sendOutcome_ready hreply
  have hopen : ((srv.conns c).begin (srv.manager kv) 0).2.1.live = true := by
    rw [Conn.begin] at hnone ⊢
    cases htx : (srv.conns c).tx with
    | none => simp [Conn.live, Transaction.begin, Transaction.Tx.finished]
    | some tx => simp [htx] at hnone
  have hconn : srv'.conns c = ((srv.conns c).begin (srv.manager kv) 0).2.1 := by
    rw [← hsrv]
    exact if_pos rfl
  rw [hconn]
  exact hopen

-- ======================================================= the store

/-- No transaction has writes of its own. -/
def Unbuffered (srv : Server σ) : Prop :=
  ∀ i tx, (srv.conns i).tx = some tx → tx.pending.entries = []

theorem Unbuffered.after {conn : Conn} {m : Transaction.Manager} (h : Unbuffered srv)
    (hconn : ∀ tx, conn.tx = some tx → tx.pending.entries = []) :
    Unbuffered (srv.after i conn m) := by
  intro j tx htx
  by_cases hj : j = i
  · subst hj
    exact hconn tx (by simpa [Server.after] using htx)
  · exact h j tx (by simpa [Server.after, hj] using htx)

/-- A Commit without writes leaves the store and the transaction's writes
as they are. -/
theorem commit_unbuffered {m : Transaction.Manager} {tx : Transaction.Tx}
    (h : tx.pending.entries = []) (ranges writes : Visit Transaction.Write)
    (fails : Nat → Bool) :
    (Transaction.commit true m tx ranges writes fails).2.2.kv = m.kv ∧
      (Transaction.commit true m tx ranges writes fails).2.1.pending.entries = [] := by
  refine ⟨?_, by rw [Transaction.commit_pending, h]⟩
  have hnone : tx.pending.entries.length = 0 := by rw [h, List.length_nil]
  rcases hres : Transaction.commit true m tx ranges writes fails with ⟨err, tx', m'⟩
  cases Transaction.change_of_commit hres 0 with
  | finished => rfl
  | conflict => rfl
  | empty => rfl
  | failed _ _ _ _ _ _ hsome => exact absurd hnone hsome
  | done _ _ _ _ _ _ hsome => exact absurd hnone hsome

/-- Nothing is ever buffered, so the manager's calls write nothing: it
leaves them with the store they were given. -/
theorem manager_leaves_store (hun : Unbuffered srv)
    (h : handleMessage fmt kv srv i msg = .ok (reply, srv')) :
    Unbuffered srv' ∧ (srv'.mgr.kv = srv.mgr.kv ∨ srv'.mgr.kv = kv.get srv.db.kv) := by
  cases handleMessage_cases h with
  | query _ _ => exact ⟨hun, .inl rfl⟩
  | begin _ =>
      cases htx : (srv.conns i).tx with
      | none =>
          simp only [Conn.begin, htx]
          refine ⟨hun.after ?_, .inr rfl⟩
          intro tx htx
          obtain rfl := Option.some.inj htx
          rfl
      | some tx =>
          simp only [Conn.begin, htx]
          exact ⟨hun.after (hun i), .inr rfl⟩
  | commit _ =>
      cases htx : (srv.conns i).tx with
      | none =>
          simp only [Conn.commit, htx]
          exact ⟨hun.after (hun i), .inr rfl⟩
      | some tx =>
          simp only [Conn.commit, htx]
          obtain ⟨hkv, hpending⟩ := commit_unbuffered (m := srv.manager kv) (hun i tx htx)
            msg.ranges msg.writes msg.fails
          refine ⟨hun.after ?_, .inr hkv⟩
          intro tx' htx'
          obtain rfl := Option.some.inj htx'
          exact hpending
  | abort _ =>
      cases htx : (srv.conns i).tx with
      | none =>
          simp only [Conn.abort, htx]
          exact ⟨hun.after (hun i), .inr rfl⟩
      | some tx =>
          simp only [Conn.abort, htx]
          refine ⟨hun.after (fun tx h => by cases h), .inr ?_⟩
          rw [Transaction.abort]
          split <;> rfl
  | unknown _ _ => exact ⟨hun, .inl rfl⟩

-- ============================================================ runs

theorem serve_cons {msgs : List (Nat × Message)} {replies : List (Nat × Bytes)} :
    serve fmt kv srv ((i, msg) :: msgs) = .ok (replies, srv') ↔
      ∃ reply mid rest, handleMessage fmt kv srv i msg = .ok (reply, mid) ∧
        serve fmt kv mid msgs = .ok (rest, srv') ∧ replies = (i, reply) :: rest := by
  constructor
  · intro h
    obtain ⟨⟨reply, mid⟩, hmsg, h⟩ := bind_eq_ok.mp h
    obtain ⟨⟨rest, last⟩, hserve, h⟩ := bind_eq_ok.mp h
    obtain ⟨rfl, rfl⟩ := Prod.mk.inj (Except.ok.inj h)
    exact ⟨reply, mid, rest, hmsg, hserve, rfl⟩
  · intro h
    obtain ⟨reply, mid, rest, hmsg, hserve, rfl⟩ := h
    simp [serve, hmsg, hserve]

theorem AllQuiet.next {msgs : List (Nat × Message)}
    (hquiet : AllQuiet fmt kv srv ((i, msg) :: msgs))
    (h : handleMessage fmt kv srv i msg = .ok (reply, srv')) : AllQuiet fmt kv srv' msgs := by
  apply hquiet.2 (reply, srv')
  rw [h]
  rfl

theorem allQuiet_append {before msgs : List (Nat × Message)}
    {replies : List (Nat × Bytes)} (hquiet : AllQuiet fmt kv srv (before ++ msgs))
    (h : serve fmt kv srv before = .ok (replies, srv')) : AllQuiet fmt kv srv' msgs := by
  induction before generalizing srv replies with
  | nil =>
      obtain ⟨-, rfl⟩ := Prod.mk.inj (Except.ok.inj h)
      exact hquiet
  | cons m before ih =>
      obtain ⟨i, msg⟩ := m
      obtain ⟨reply, mid, rest, hmsg, hserve, -⟩ := serve_cons.mp h
      exact ih (hquiet.next hmsg) hserve

/-- While a connection is in a transaction, and until it ends it, its
queries make no difference to anyone else. -/
theorem serve_without {mid msgs : List (Nat × Message)} {replies : List (Nat × Bytes)}
    (hlive : (srv.conns c).live = true)
    (hends : ∀ m ∈ mid, m.1 = c → m.2.msgType ≠ msgCommit ∧ m.2.msgType ≠ msgAbort)
    (hquiet : AllQuiet fmt kv srv (mid ++ msgs))
    (h : serve fmt kv srv (mid ++ msgs) = .ok (replies, srv')) :
    ∃ replies', serve fmt kv srv (without c mid ++ msgs) = .ok (replies', srv') ∧
      others c replies = others c replies' := by
  induction mid generalizing srv replies with
  | nil => exact ⟨replies, h, rfl⟩
  | cons m mid ih =>
      obtain ⟨i, msg⟩ := m
      obtain ⟨reply, next, rest, hmsg, hserve, rfl⟩ := serve_cons.mp h
      have hnext := live_of_handleMessage hlive (hends (i, msg) (by simp)) hmsg
      obtain ⟨replies', hwithout, hothers⟩ := ih hnext
        (fun m hm => hends m (by simp [hm])) (hquiet.next hmsg) hserve
      by_cases hq : isQueryOf c (i, msg) = true
      · -- the query is dropped: it has changed nothing
        obtain ⟨rfl, htype⟩ : i = c ∧ msg.msgType = msgQuery := by
          simpa [isQueryOf] using hq
        obtain rfl := query_readOnly htype (hquiet.1 htype hlive) hmsg
        refine ⟨replies', ?_, ?_⟩
        · simpa [without, hq] using hwithout
        · simpa [others] using hothers
      · refine ⟨(i, reply) :: replies', ?_, ?_⟩
        · have hkeep : without c ((i, msg) :: mid) = (i, msg) :: without c mid := by
            simp [without, hq]
          rw [hkeep, List.cons_append]
          exact serve_cons.mpr ⟨reply, next, replies', hmsg, hwithout, rfl⟩
        · simp only [others, List.filter_cons] at hothers ⊢
          rw [hothers]

/-- In a run in which connections only read while they are in a
transaction, what a connection's queries do between an accepted Begin and
the Abort or Commit that ends it shows nowhere: the server is left as it
would be without them, and the other connections get the same answers. -/
theorem queries_in_transaction_unseen (fmt : Formats) (kv : Storage σ)
    (srv s₀ s₁ s₂ : Server σ) (before mid : List (Nat × Message)) (c : Nat) (b e : Message)
    (r₀ replies : List (Nat × Bytes))
    (hquiet : AllQuiet fmt kv srv (before ++ (c, b) :: (mid ++ [(c, e)])))
    (hbefore : serve fmt kv srv before = .ok (r₀, s₀)) (hbegin : b.msgType = msgBegin)
    (haccept : handleMessage fmt kv s₀ c b = .ok (sendReady, s₁))
    (hmid : ∀ m ∈ mid, m.1 = c → m.2.msgType ≠ msgCommit ∧ m.2.msgType ≠ msgAbort)
    (hrun : serve fmt kv s₁ (mid ++ [(c, e)]) = .ok (replies, s₂)) :
    ∃ replies', serve fmt kv s₁ (without c mid ++ [(c, e)]) = .ok (replies', s₂) ∧
      others c replies = others c replies' := by
  have hwindow := (allQuiet_append hquiet hbefore).next haccept
  exact serve_without (live_of_accepted hbegin haccept) hmid hwindow hrun

/-- A server on an empty database in memory, with its connections new. -/
def newServer : Server Memory where
  db := openDB Memory.empty
  mgr := Transaction.newManager fun _ => none
  conns i := { id := UInt64.ofNat i, tx := none, createdAt := 0, lastUsed := 0, inUse := true }

def plainFormats : Formats where
  quote text := text
  float _ := []
  cause := []

def query (text : String) : Message := { msgType := msgQuery, payload := lit text }

/-- The entries of the store after some messages, if all are answered. -/
def entriesAfter (msgs : List (Nat × Message)) : Option (List (Bytes × Bytes)) :=
  match serve plainFormats memory newServer msgs with
  | .ok (_, srv) => some srv.db.kv.1
  | .error _ => none

/-- The new server after a Begin of client 0. -/
def begun : Server Memory :=
  newServer.after 0 ((newServer.conns 0).begin (newServer.manager memory) 0).2.1
    ((newServer.conns 0).begin (newServer.manager memory) 0).2.2

/-- A SELECT in a transaction, while another client makes a table. -/
theorem queries_in_transaction_unseen_select :
    ∃ replies s₂ replies',
      serve plainFormats memory begun ([(0, query "SELECT * FROM t"), (1, query createT)]
          ++ [(0, { msgType := msgAbort })]) = .ok (replies, s₂) ∧
        serve plainFormats memory begun (without 0 [(0, query "SELECT * FROM t"),
          (1, query createT)] ++ [(0, { msgType := msgAbort })]) = .ok (replies', s₂) ∧
        others 0 replies = others 0 replies' := by
  have hok : (serve plainFormats memory begun ([(0, query "SELECT * FROM t"),
      (1, query createT)] ++ [(0, { msgType := msgAbort })])).isOk = true := by
    decide +kernel
  cases hrun : serve plainFormats memory begun ([(0, query "SELECT * FROM t"),
      (1, query createT)] ++ [(0, { msgType := msgAbort })]) with
  | error f =>
      rw [hrun] at hok
      cases hok
  | ok p =>
      obtain ⟨replies, s₂⟩ := p
      obtain ⟨replies', hwithout, hothers⟩ :=
        queries_in_transaction_unseen plainFormats memory newServer newServer begun s₂ []
          [(0, query "SELECT * FROM t"), (1, query createT)] 0 { msgType := msgBegin }
          { msgType := msgAbort } [] replies (by decide +kernel) rfl rfl rfl
          (by decide +kernel) hrun
      exact ⟨replies, s₂, replies', rfl, hwithout, hothers⟩

/-- An INSERT in a transaction, then its Abort: the row stays. -/
theorem abort_undoes_nothing :
    entriesAfter [(0, query createT), (0, { msgType := msgBegin }),
        (0, query "INSERT INTO t (a, b) VALUES (1, 2)"), (0, { msgType := msgAbort })]
      = some [([0, 2, 182, 25, 1, 128, 0, 0, 0, 0, 0, 0, 1], [1, 128, 0, 0, 0, 0, 0, 0, 2])]
    ∧ entriesAfter [(0, query createT), (0, { msgType := msgBegin }), (0, { msgType := msgAbort })]
      = some [] := by
  decide +kernel

end Svacara.Serving
