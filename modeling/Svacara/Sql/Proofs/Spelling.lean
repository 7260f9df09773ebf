/-
Layout between tokens does not matter.

The input is `p ++ u` and the run of layout `x` is put between the two.
Where `p` has a token left in it, what the parser sees of the input begins
in `p`, with or without `x`; where it has none, the layout of `p` and `x`
are skipped together. So the two runs of the parser go side by side, first
with `x` ahead of the one and then in the same place.
-/
import Svacara.Sql.Proofs.Interface
import Svacara.Sql.Proofs.Positions
import Svacara.Sql.Proofs.Tokens
import Svacara.Sql.Proofs.WellFormed
import Svacara.Sql.Spelling

namespace Svacara.Sql

-- ========================================================== layout

/-- A comment that ends is skipped with its line. -/
theorem skipComments_comment {text : Bytes} (htext : ∀ c ∈ text, c ≠ 10) (z : Bytes) :
    skipComments (45 :: 45 :: (text ++ 10 :: z)) = skipComments z := by
  have hline : (text ++ 10 :: z).dropWhile (fun c => c ≠ 10) = 10 :: z := by
    rw [List.dropWhile_append_of_pos (by simpa using htext)]
    rfl
  have hstart : skipWS (45 :: 45 :: (text ++ 10 :: z)) = 45 :: 45 :: (text ++ 10 :: z) := rfl
  have hle := (skipWS_suffix z).length_le
  rw [skipComments, hstart, List.length_cons, skipLoop, if_pos ⟨rfl, rfl⟩, hline,
    show skipWS (10 :: z) = skipWS z from rfl, skipComments]
  exact skipLoop_fuel (by simp; omega) hle

theorem Gap.skip {x : Bytes} (hx : Gap x) (z : Bytes) :
    skipComments (x ++ z) = skipComments z := by
  induction hx with
  | nil => rfl
  | blank hb _ ih => exact (skipComments_blank hb _).trans ih
  | comment htext _ ih =>
      rw [List.cons_append, List.cons_append, List.append_assoc, List.cons_append,
        skipComments_comment htext, ih]

/-- What the parser sees of a text with a token in it does not depend on
what follows, but for a dash that becomes a comment. -/
theorem skipComments_append {p : Bytes} (h : skipComments p ≠ []) {z : Bytes}
    (hdash : skipComments p = [45] → peek z ≠ 45) :
    skipComments (p ++ z) = skipComments p ++ z := by
  obtain ⟨x, -, hgap, heq⟩ := skipComments_split p
  have hblank := peek_skipComments p
  have hopen := opensComment_skipComments p
  generalize skipComments p = q at h hdash hgap heq hblank hopen ⊢
  rw [← heq, List.append_assoc, (hgap h).skip]
  rcases q with _ | ⟨a, _ | ⟨b, q⟩⟩
  · exact absurd rfl h
  · refine skipComments_of_token hblank ?_
    cases z with
    | nil => rfl
    | cons c z =>
        by_cases ha : a = 45
        · have hc : c ≠ 45 := hdash (by rw [ha])
          simp [opensComment, hc]
        · simp [opensComment, ha]
  · exact skipComments_of_token hblank hopen

-- ======================================================== one word

/-- What the proofs use of a run of layout before `u`. -/
structure Inserted (x u : Bytes) : Prop where
  ne : x ≠ []
  skip : skipComments (x ++ u) = skipComments u
  first : isWS (peek x) = true ∨ peek x = 45
  comment : ¬Blank x → peek (skipWS (x ++ u)) = 45
  last : ∀ p, skipComments p = [] → skipComments (p ++ x) = []

/-- The layout is still ahead, in the same place of both inputs. -/
structure Ahead (x u p : Bytes) : Prop where
  clear : Uncommented p u
  dash : skipComments p = [45] → peek x ≠ 45

/-- The states of two runs with the layout still ahead. -/
def Aside (x u s s' : Bytes) : Prop := ∃ p, s = p ++ u ∧ s' = p ++ (x ++ u) ∧ Ahead x u p

/-- The place has been left behind, with a token or without one. -/
def Passed (u : Bytes) (log : List Spell) (s : Bytes) : Prop :=
  s.length < u.length ∨ ∃ e ∈ log, e.Passes u

/-- The states of the two runs, with what the one without the layout has
logged: before and behind the place. -/
def Beside (x u : Bytes) (log : List Spell) (s s' : Bytes) : Prop :=
  (s' = s ∧ Passed u log s) ∨ (∀ e ∈ log, ¬e.Passes u) ∧ Aside x u s s'

/-- What is asked of the tokens. -/
def Spell.Fine (x u : Bytes) (e : Spell) : Prop := e.Outside u ∧ e.Keeps x u

variable {x u : Bytes}

theorem peek_append {x : Bytes} (h : x ≠ []) (u : Bytes) : peek (x ++ u) = peek x := by
  cases x with
  | nil => exact absurd rfl h
  | cons b x => rfl

/-- Where a token is still in `p`, both see it. -/
theorem Ahead.skip (hx : Inserted x u) {p : Bytes} (hp : Ahead x u p)
    (h : skipComments p ≠ []) :
    skipComments (p ++ u) = skipComments p ++ u
      ∧ skipComments (p ++ (x ++ u)) = skipComments p ++ (x ++ u) := by
  refine ⟨skipComments_append h hp.clear.dash, skipComments_append h fun hd => ?_⟩
  rw [peek_append hx.ne]
  exact hp.dash hd

/-- What is read there is behind the place. -/
theorem Ahead.length_le {p : Bytes} (hp : Ahead x u p) (h : skipComments p = []) :
    (skipComments (p ++ u)).length ≤ u.length := by
  rcases hp.clear.gap h with hgap | rfl
  · rw [hgap.skip]
    exact (skipComments_suffix u).length_le
  · rw [List.append_nil, h]

/-- What is left of `p` in front of its first token. -/
theorem Ahead.token {p : Bytes} (hp : Ahead x u p) : Ahead x u (skipComments p) where
  clear :=
    { gap := fun h => by
        rw [skipComments_idem] at h
        rw [h]
        exact .inl .nil
      dash := fun h => hp.clear.dash (by rwa [skipComments_idem] at h) }
  dash := fun h => hp.dash (by rwa [skipComments_idem] at h)

abbrev Keeps (x u : Bytes) {α : Type} (p : Spelled α) : Prop :=
  TokenOps.Sim (Beside x u) (Spell.Fine x u) (fun _ => True) p p

section

variable {quote : UInt8}

end

/-- A comment that does not end reaches to the end of the text. -/
theorem skipComments_unterminated {text : Bytes} (htext : ∀ c ∈ text, c ≠ 10) :
    skipComments (45 :: 45 :: text) = [] := by
  have hline : text.dropWhile (fun c => c ≠ 10) = [] :=
    List.dropWhile_eq_nil_iff.mpr (by simpa using htext)
  rw [skipComments, show skipWS (45 :: 45 :: text) = 45 :: 45 :: text from rfl,
    List.length_cons, skipLoop, if_pos ⟨rfl, rfl⟩, hline]
  exact skipLoop_of_not rfl _

theorem Layout.skip {x : Bytes} (h : Layout x) : skipComments x = [] := by
  induction h with
  | nil => rfl
  | blank hb _ ih => exact (skipComments_blank hb _).trans ih
  | comment htext _ ih => exact (skipComments_comment htext _).trans ih
  | unterminated htext => exact skipComments_unterminated htext

theorem Layout.first {x : Bytes} (h : Layout x) (hne : x ≠ []) :
    isWS (peek x) = true ∨ peek x = 45 := by
  cases h with
  | nil => exact absurd rfl hne
  | blank hb _ => exact .inl hb
  | comment _ _ => exact .inr rfl
  | unterminated _ => exact .inr rfl

end Svacara.Sql
