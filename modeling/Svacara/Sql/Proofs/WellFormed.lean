/-
What `Parse` accepts, against the grammar.

Every sentence of the grammar is accepted, with the statement that the
grammar gives it (`parse_of_sentence`), so the grammar is unambiguous.
The converse fails: the errors of `pExpect` are dropped, keywords are
matched as beginnings of longer words, an empty name or operand is taken,
and a number out of range becomes the nearest one in range. Among the
accepted inputs those on which the parser's calls are all sound are just
the sentences.
-/
import Svacara.Sql.Proofs.Complete

namespace Svacara.Sql

open Grammar

theorem parse_eq_ok {input : Bytes} {stmt : Stmt} :
    parse input = .ok (.ok stmt) ↔ ∃ t, pStmt input = .ok (stmt, t) ∧ skipWS t = [] := by
  rw [parse]
  constructor
  · intro h
    obtain ⟨⟨result, t⟩, hrun, h⟩ := Outcome.bind_eq_ok.mp h
    dsimp only at h
    split at h
    · cases Except.ok.inj h
    · next hdone =>
        obtain rfl := Except.ok.inj (Except.ok.inj h)
        exact ⟨t, hrun, not_not.mp hdone⟩
  · intro h
    obtain ⟨t, hrun, hdone⟩ := h
    rw [hrun, Outcome.ok_bind]
    exact if_neg (not_not.mpr hdone)

/-- A sentence is accepted as what it is. -/
theorem parse_of_sentence {input : Bytes} {stmt : Stmt} (h : Sentence input stmt) :
    parse input = .ok (.ok stmt) := by
  obtain ⟨t, hstmt, hdone⟩ := h
  have hrun := (Traced.reads_pStmt hstmt hdone).erase_eq
  rw [Traced.erase_pStmt] at hrun
  exact parse_eq_ok.mpr ⟨t, hrun, hdone⟩

/-- No text is a sentence for two statements. -/
theorem sentence_unique {input : Bytes} {stmt stmt' : Stmt} (h : Sentence input stmt)
    (h' : Sentence input stmt') : stmt = stmt' := by
  have hparse := parse_of_sentence h
  rw [parse_of_sentence h'] at hparse
  exact (Except.ok.inj (Except.ok.inj hparse)).symm

theorem events_of_run {input t : Bytes} {stmt : Stmt} {log : List Event}
    (h : traced.pStmt input = .ok ((stmt, t), log)) : events input = log := by
  rw [events, h]

theorem traced_of_run {input t : Bytes} {stmt : Stmt} (h : pStmt input = .ok (stmt, t)) :
    traced.pStmt input = .ok ((stmt, t), events input) := by
  rw [← Traced.erase_pStmt, Logged.erase] at h
  cases hrun : traced.pStmt input with
  | error f =>
      rw [hrun] at h
      cases h
  | ok r =>
      obtain ⟨r, log⟩ := r
      rw [hrun] at h
      obtain rfl := Except.ok.inj h
      rw [events_of_run hrun]

/-- The result is an error, as a value. -/
def Stmt.isError : Stmt → Bool
  | .unknown _ => true
  | _ => false

/-- The input is accepted as a statement: no error is returned, neither as
the error nor as the result. -/
structure Accepted (input : Bytes) (stmt : Stmt) : Prop where
  parsed : parse input = .ok (.ok stmt)
  no_error : stmt.isError = false

/-- Whether the input is accepted as some statement. -/
def accepts (input : Bytes) : Bool :=
  match parse input with
  | .ok (.ok stmt) => !stmt.isError
  | _ => false

theorem accepts_iff {input : Bytes} : accepts input = true ↔ ∃ stmt, Accepted input stmt := by
  rw [accepts]
  constructor
  · intro h
    split at h
    · next stmt hparse => exact ⟨stmt, hparse, by simpa using h⟩
    · cases h
  · intro h
    obtain ⟨stmt, hparse, hstmt⟩ := h
    rw [hparse]
    simp [hstmt]

/-- On an input that is accepted, every call of the parser finds what it
asks for if and only if the input is a sentence of the grammar. -/
theorem events_sound_iff (input : Bytes) (stmt : Stmt) (haccept : Accepted input stmt) :
    (∀ e ∈ events input, e.Sound) ↔ ∃ stmt', Sentence input stmt' := by
  obtain ⟨t, hrun, hdone⟩ := parse_eq_ok.mp haccept.parsed
  constructor
  · intro hsound
    have hread : Reads traced.pStmt input stmt t := ⟨_, traced_of_run hrun, hsound⟩
    rcases Traced.sound_pStmt hread with hstatement | ⟨rest, rfl⟩
    · exact ⟨stmt, t, hstatement, hdone⟩
    · cases haccept.no_error
  · intro h
    obtain ⟨stmt', t', hstatement, hdone'⟩ := h
    obtain ⟨log, hlog, hsound⟩ := Traced.reads_pStmt hstatement hdone'
    rw [events_of_run hlog]
    exact hsound

theorem events_sound_iff_update :
    (∀ e ∈ events (lit "update t set a = -1, b = f(a) where filter not b"), e.Sound) ∧
      ∃ stmt, Sentence (lit "update t set a = -1, b = f(a) where filter not b") stmt := by
  have haccept :
      accepts (lit "update t set a = -1, b = f(a) where filter not b") = true ∧
        ∀ e ∈ events (lit "update t set a = -1, b = f(a) where filter not b"), e.Sound := by
    decide +kernel
  obtain ⟨stmt, hstmt⟩ := accepts_iff.mp haccept.1
  exact ⟨haccept.2, (events_sound_iff _ stmt hstmt).mp haccept.2⟩

/-- Texts that are accepted and not well formed: tokens that are asked for
are missing, a keyword is the beginning of a longer word, an operand is
empty, and a number is not the one that is shown. -/
theorem accepts_malformed :
    (accepts (lit "update t") = true ∧ ¬ ∀ e ∈ events (lit "update t"), e.Sound)
      ∧ (accepts (lit "selecta from t") = true
        ∧ ¬ ∀ e ∈ events (lit "selecta from t"), e.Sound)
      ∧ (accepts (lit "insert into t values ()") = true
        ∧ ¬ ∀ e ∈ events (lit "insert into t values ()"), e.Sound)
      ∧ accepts (lit "select a from t limit 9223372036854775808") = true
        ∧ ¬ ∀ e ∈ events (lit "select a from t limit 9223372036854775808"), e.Sound := by
  decide +kernel

end Svacara.Sql
