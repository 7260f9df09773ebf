/-
Layout: blanks and comments.

A comment is two dashes and the rest of its line; one without an end of
line reaches to the end of the text. What `skipComments` takes off a text
is layout.
-/
import Svacara.Sql.Parser

namespace Svacara.Sql

/-- Blanks, tabs, newlines and comments. -/
inductive Layout : Bytes → Prop where
  | nil : Layout []
  | blank {b : UInt8} {x : Bytes} (hb : isWS b = true) (hx : Layout x) : Layout (b :: x)
  | comment {text x : Bytes} (htext : ∀ c ∈ text, c ≠ 10) (hx : Layout x) :
      Layout (45 :: 45 :: (text ++ 10 :: x))
  /-- without a newline there is nothing behind it -/
  | unterminated {text : Bytes} (htext : ∀ c ∈ text, c ≠ 10) : Layout (45 :: 45 :: text)

/-- Layout in which every comment ends. -/
inductive Gap : Bytes → Prop where
  | nil : Gap []
  | blank {b : UInt8} {x : Bytes} (hb : isWS b = true) (hx : Gap x) : Gap (b :: x)
  | comment {text x : Bytes} (htext : ∀ c ∈ text, c ≠ 10) (hx : Gap x) :
      Gap (45 :: 45 :: (text ++ 10 :: x))

theorem Gap.blanks {w x : Bytes} (hx : Gap x) (hw : ∀ b ∈ w, isWS b = true) :
    Gap (w ++ x) := by
  induction w with
  | nil => exact hx
  | cons b w ih =>
      obtain ⟨hb, hw⟩ := List.forall_mem_cons.mp hw
      exact .blank hb (ih hw)

theorem Layout.blanks {w x : Bytes} (hx : Layout x) (hw : ∀ b ∈ w, isWS b = true) :
    Layout (w ++ x) := by
  induction w with
  | nil => exact hx
  | cons b w ih =>
      obtain ⟨hb, hw⟩ := List.forall_mem_cons.mp hw
      exact .blank hb (ih hw)

theorem takeWhile_all (p : UInt8 → Bool) (s : Bytes) : ∀ b ∈ s.takeWhile p, p b = true :=
  List.all_eq_true.mp List.all_takeWhile

theorem skipWS_split (s : Bytes) : s.takeWhile isWS ++ skipWS s = s :=
  List.takeWhile_append_dropWhile

/-- What the loop takes off is layout, and a comment that does not end is
the end of the text. -/
theorem skipLoop_layout (n : Nat) (s : Bytes) :
    ∃ x, Layout x ∧ (skipLoop n s ≠ [] → Gap x) ∧ x ++ skipLoop n s = s := by
  induction n generalizing s with
  | zero => exact ⟨[], .nil, fun _ => .nil, by rw [skipLoop]; rfl; simp⟩
  | succ n ih =>
      rcases s with _ | ⟨a, _ | ⟨b, s⟩⟩
      · exact ⟨[], .nil, fun _ => .nil, rfl⟩
      · exact ⟨[], .nil, fun _ => .nil, rfl⟩
      rw [skipLoop]
      by_cases h : a = 45 ∧ b = 45
      · obtain ⟨rfl, rfl⟩ := h
        rw [if_pos ⟨rfl, rfl⟩]
        have htext : ∀ c ∈ s.takeWhile (fun c => c ≠ 10), c ≠ 10 := fun c hc => by
          simpa using takeWhile_all _ s c hc
        have hsplit : s.takeWhile (fun c => c ≠ 10) ++ s.dropWhile (fun c => c ≠ 10) = s :=
          List.takeWhile_append_dropWhile
        cases hd : s.dropWhile (fun c => c ≠ 10) with
        | nil =>
            rw [hd, List.append_nil] at hsplit
            rw [hsplit] at htext
            obtain ⟨y, -, -, hy⟩ := ih (skipWS [])
            obtain ⟨-, hend⟩ := List.append_eq_nil_iff.mp (hy.trans (by rfl : skipWS [] = []))
            exact ⟨45 :: 45 :: s, .unterminated htext, fun hne => absurd hend hne,
              by rw [hend, List.append_nil]⟩
        | cons c d =>
            -- the loop stopped at a newline, which is a blank
            have hc : c = 10 := by
              have hhead := List.head?_dropWhile_not (p := fun c : UInt8 => c ≠ 10) s
              rw [hd] at hhead
              simpa using hhead
            subst hc
            rw [hd] at hsplit
            have hws : skipWS (10 :: d) = skipWS d := rfl
            have hblank := takeWhile_all isWS d
            obtain ⟨y, hy, hgap, hyeq⟩ := ih (skipWS d)
            refine ⟨45 :: 45 :: (s.takeWhile (fun c => c ≠ 10) ++ 10 :: (d.takeWhile isWS ++ y)),
              .comment htext (hy.blanks hblank),
              fun hne => .comment htext ((hgap hne).blanks hblank), ?_⟩
            rw [hws]
            calc _ = 45 :: 45 :: (s.takeWhile (fun c => c ≠ 10)
                    ++ 10 :: (d.takeWhile isWS ++ (y ++ skipLoop n (skipWS d)))) := by simp
              _ = 45 :: 45 :: s := by rw [hyeq, skipWS_split, hsplit]
      · rw [if_neg h]
        exact ⟨[], .nil, fun _ => .nil, rfl⟩

theorem skipComments_split (s : Bytes) :
    ∃ x, Layout x ∧ (skipComments s ≠ [] → Gap x) ∧ x ++ skipComments s = s := by
  obtain ⟨x, hx, hgap, heq⟩ := skipLoop_layout s.length (skipWS s)
  have hblank := takeWhile_all isWS s
  refine ⟨s.takeWhile isWS ++ x, hx.blanks hblank, fun hne => (hgap hne).blanks hblank, ?_⟩
  rw [List.append_assoc, skipComments, heq, skipWS_split]

theorem skipComments_layout (s : Bytes) : ∃ x, Layout x ∧ x ++ skipComments s = s := by
  obtain ⟨x, hx, -, heq⟩ := skipComments_split s
  exact ⟨x, hx, heq⟩

end Svacara.Sql
