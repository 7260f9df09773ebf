/-
What the token functions of the parser find.

# Layout

Blanks and comments before a token are passed over by `skipComments`,
which is idempotent: what it leaves begins neither with a blank nor with
a comment. Every token function looks at the text only through it.

# Keywords

A keyword that is matched excludes those that differ from it in a byte
(`pKeyword_apart`), and at the end of the input none is matched. With
the tokens that can follow a phrase known (`Next`), this decides which
keywords the parser will not find there (`declines_of_next`); which
keywords differ is checked by computing.

# Names, numbers and strings

Each scanner is maximal, and finds just what the grammar's rule for the
token says.
-/
import Svacara.Sql.Proofs.Returns
import Svacara.Sql.Trace
import Mathlib.Data.List.TakeWhile

namespace Svacara.Sql

open Grammar

-- ============================================================ runs

section

variable {p : UInt8 → Bool}

/-- A run ends at a byte that does not belong to it, or at the end. -/
theorem peek_dropWhile (hp : p 0 = false) (s : Bytes) : p (peek (s.dropWhile p)) = false := by
  induction s with
  | nil => exact hp
  | cons b s ih =>
      rw [List.dropWhile_cons]
      split
      · exact ih
      · next hb => simpa [peek] using hb

theorem dropWhile_of_peek {s : Bytes} (h : p (peek s) = false) : s.dropWhile p = s := by
  cases s with
  | nil => rfl
  | cons b s => exact List.dropWhile_cons_of_neg (by simpa [peek] using h)

theorem takeWhile_of_peek {s : Bytes} (h : p (peek s) = false) : s.takeWhile p = [] := by
  cases s with
  | nil => rfl
  | cons b s => exact List.takeWhile_cons_of_neg (by simpa [peek] using h)

/-- The run at the beginning is the whole of it. -/
theorem takeWhile_run {run t : Bytes} (hrun : ∀ b ∈ run, p b = true)
    (ht : p (peek t) = false) : (run ++ t).takeWhile p = run := by
  rw [List.takeWhile_append_of_pos hrun, takeWhile_of_peek ht, List.append_nil]

theorem dropWhile_run {run t : Bytes} (hrun : ∀ b ∈ run, p b = true)
    (ht : p (peek t) = false) : (run ++ t).dropWhile p = t := by
  rw [List.dropWhile_append_of_pos hrun, dropWhile_of_peek ht]

end

-- ========================================================== layout

theorem peek_skipWS (s : Bytes) : isWS (peek (skipWS s)) = false := peek_dropWhile rfl s

theorem skipWS_of_peek {s : Bytes} (h : isWS (peek s) = false) : skipWS s = s :=
  dropWhile_of_peek h

/-- Two dashes. -/
def opensComment : Bytes → Bool
  | a :: b :: _ => a = 45 && b = 45
  | _ => false

theorem skipLoop_of_not {s : Bytes} (h : opensComment s = false) (n : Nat) :
    skipLoop n s = s := by
  cases n with
  | zero => rw [skipLoop]; simp
  | succ n =>
      rcases s with _ | ⟨a, _ | ⟨b, s⟩⟩
      · rfl
      · rfl
      · rw [skipLoop, if_neg]
        simpa [opensComment] using h

/-- With enough fuel the loop ends where no comment opens. -/
theorem opensComment_skipLoop {n : Nat} {s : Bytes} (hn : s.length ≤ n) :
    opensComment (skipLoop n s) = false := by
  induction n generalizing s with
  | zero =>
      rw [List.length_eq_zero_iff.mp (Nat.le_zero.mp hn)]
      rfl
  | succ n ih =>
      match s with
      | [] => rfl
      | [_] => rfl
      | a :: b :: s =>
          rw [skipLoop]
          split
          · apply ih
            have hline := ((skipWS_suffix _).trans (List.dropWhile_suffix
              (l := s) fun c => c ≠ 10)).length_le
            simp at hn
            omega
          · next hab => simpa [opensComment] using hab

theorem peek_skipLoop {n : Nat} {s : Bytes} (hs : isWS (peek s) = false) :
    isWS (peek (skipLoop n s)) = false := by
  induction n generalizing s with
  | zero =>
      rw [skipLoop]
      · exact hs
      · simp
  | succ n ih =>
      rcases s with _ | ⟨a, _ | ⟨b, s⟩⟩
      · exact hs
      · exact hs
      · rw [skipLoop]
        split
        · exact ih (peek_skipWS _)
        · exact hs

/-- The fuel makes no difference once there is enough. -/
theorem skipLoop_fuel {n m : Nat} {s : Bytes} (hn : s.length ≤ n) (hm : s.length ≤ m) :
    skipLoop n s = skipLoop m s := by
  induction n generalizing m s with
  | zero =>
      rw [List.length_eq_zero_iff.mp (Nat.le_zero.mp hn)]
      exact (skipLoop_of_not rfl _).trans (skipLoop_of_not rfl _).symm
  | succ n ih =>
      match s, m with
      | [], _ => exact (skipLoop_of_not rfl _).trans (skipLoop_of_not rfl _).symm
      | [_], _ => exact (skipLoop_of_not rfl _).trans (skipLoop_of_not rfl _).symm
      | a :: b :: s, 0 => simp at hm
      | a :: b :: s, m + 1 =>
          rw [skipLoop, skipLoop]
          have hline := ((skipWS_suffix _).trans (List.dropWhile_suffix
            (l := s) fun c => c ≠ 10)).length_le
          simp at hn hm
          rw [ih (m := m) (by omega) (by omega)]

theorem opensComment_skipComments (s : Bytes) : opensComment (skipComments s) = false :=
  opensComment_skipLoop (skipWS_suffix s).length_le

theorem peek_skipComments (s : Bytes) : isWS (peek (skipComments s)) = false :=
  peek_skipLoop (peek_skipWS s)

theorem skipWS_skipComments (s : Bytes) : skipWS (skipComments s) = skipComments s :=
  skipWS_of_peek (peek_skipComments s)

/-- A text that begins with a token is left as it is. -/
theorem skipComments_of_token {s : Bytes} (hblank : isWS (peek s) = false)
    (hcomment : opensComment s = false) : skipComments s = s := by
  rw [skipComments, skipWS_of_peek hblank, skipLoop_of_not hcomment]

@[simp] theorem skipComments_idem (s : Bytes) : skipComments (skipComments s) = skipComments s :=
  skipComments_of_token (peek_skipComments s) (opensComment_skipComments s)

theorem skipComments_blank {b : UInt8} (hb : isWS b = true) (s : Bytes) :
    skipComments (b :: s) = skipComments s := by
  have hskip : skipWS (b :: s) = skipWS s := List.dropWhile_cons_of_pos hb
  have hle := (skipWS_suffix s).length_le
  rw [skipComments, skipComments, hskip]
  exact skipLoop_fuel (by simp; omega) hle

theorem skipComments_done {t : Bytes} (h : skipWS t = []) : skipComments t = [] := by
  rw [skipComments, h]
  exact skipLoop_of_not rfl _

-- ======================================================== keywords

/-- A byte in which two words differ. -/
def clash : Bytes → Bytes → Bool
  | c :: cs, d :: ds => c ≠ d || clash cs ds
  | _, _ => false

/-- The keywords differ in their first words. -/
def Apart : List String → List String → Bool
  | kw :: _, kw' :: _ => clash (lit kw) (lit kw')
  | _, _ => false

theorem matchWord_clash {kw kw' s t : Bytes} (h : matchWord kw s = some t)
    (hclash : clash kw' kw = true) : matchWord kw' s = none := by
  induction kw generalizing kw' s with
  | nil => cases kw' <;> cases hclash
  | cons d kw ih =>
      cases kw' with
      | nil => cases hclash
      | cons c kw' =>
          rw [matchWord] at h ⊢
          by_cases hd : lower (peek s) = d
          · rw [if_pos hd] at h
            by_cases hc : lower (peek s) = c
            · rw [if_pos hc]
              apply ih h
              simpa [clash, ← hc, ← hd] using hclash
            · rw [if_neg hc]
          · rw [if_neg hd] at h
            cases h

theorem pKeyword_apart {kws kws' : List String} {s t : Bytes} (h : pKeyword kws s = some t)
    (hapart : Apart kws' kws = true) : pKeyword kws' s = none := by
  match kws, kws' with
  | [], [] => cases hapart
  | [], _ :: _ => cases hapart
  | _ :: _, [] => cases hapart
  | kw :: kws, kw' :: kws' =>
      obtain ⟨r, hr, -⟩ := Option.bind_eq_some_iff.mp h
      have hnone := matchWord_clash hr hapart
      rw [pKeyword, matchWords, hnone]
      rfl

/-- At the end of the input there is no keyword. -/
theorem pKeyword_done {kws : List String} {t : Bytes} (hopens : Opens kws)
    (h : skipWS t = []) : pKeyword kws t = none := by
  cases kws with
  | nil => exact absurd hopens id
  | cons kw kws =>
      rw [pKeyword, skipComments_done h, matchWords]
      cases hword : matchWord (lit kw) (skipWS []) with
      | none => rfl
      | some r => exact absurd (matchWord_lt hopens hword) (Nat.not_lt_zero _)

theorem pKeyword_skipComments (kws : List String) (s : Bytes) :
    pKeyword kws (skipComments s) = pKeyword kws s := by
  rw [pKeyword, pKeyword, skipComments_idem]

/-- One of the keywords is not there. -/
def Declines (stops : List (List String)) (t : Bytes) : Prop :=
  ∀ kws ∈ stops, pKeyword kws t = none

/-- What follows is the end of the input or one of the keywords. -/
def Next (starts : List (List String)) (t : Bytes) : Prop :=
  skipWS t = [] ∨ ∃ kws ∈ starts, ∃ u, pKeyword kws t = some u

/-- Each of the first keywords differs from each of the second. -/
def Clear (stops starts : List (List String)) : Prop :=
  ∀ kws ∈ stops, Opens kws ∧ ∀ kws' ∈ starts, Apart kws kws' = true

instance (stops starts : List (List String)) : Decidable (Clear stops starts) :=
  inferInstanceAs (Decidable (∀ kws ∈ stops, _))

theorem Clear.mono {stops starts starts' : List (List String)} (h : Clear stops starts)
    (hsub : ∀ kws ∈ starts', kws ∈ starts) : Clear stops starts' :=
  fun kws hkws => ⟨(h kws hkws).1, fun kws' hmem => (h kws hkws).2 kws' (hsub kws' hmem)⟩

theorem declines_of_next {stops starts : List (List String)} {t : Bytes}
    (hclear : Clear stops starts) (h : Next starts t) : Declines stops t := by
  intro kws hkws
  obtain ⟨hopens, hapart⟩ := hclear kws hkws
  rcases h with hdone | ⟨kws', hmem, u, hu⟩
  · exact pKeyword_done hopens hdone
  · exact pKeyword_apart hu (hapart kws' hmem)

theorem Declines.mono {stops stops' : List (List String)} {t : Bytes} (h : Declines stops' t)
    (hsub : ∀ kws ∈ stops, kws ∈ stops') : Declines stops t :=
  fun kws hkws => h kws (hsub kws hkws)

theorem Declines.firstKeyword {α : Type} {cases : List (List String × α)} {t : Bytes}
    (h : Declines (cases.map Prod.fst) t) : Sql.firstKeyword cases t = none := by
  induction cases with
  | nil => rfl
  | cons c cases ih =>
      obtain ⟨kws, a⟩ := c
      rw [Sql.firstKeyword, h kws (by simp)]
      exact ih fun kws hkws => h kws (List.mem_cons_of_mem _ hkws)

theorem Grammar.Word.next {kws : List String} {starts : List (List String)} {t u : Bytes}
    (h : Word kws t u) (hmem : kws ∈ starts) : Next starts t :=
  .inr ⟨kws, hmem, u, h.1⟩

theorem none_of_next {kws : List String} {starts : List (List String)} {t : Bytes}
    (hclear : Clear [kws] starts) (h : Next starts t) : pKeyword kws t = none :=
  declines_of_next hclear h kws (List.mem_singleton_self _)

theorem declines_of_word {stops starts : List (List String)} {kws : List String} {t u : Bytes}
    (hclear : Clear stops starts) (h : Word kws t u) (hmem : kws ∈ starts) :
    Declines stops t :=
  declines_of_next hclear (h.next hmem)

theorem none_of_word {kws kws' : List String} {starts : List (List String)} {t u : Bytes}
    (hclear : Clear [kws] starts) (h : Word kws' t u) (hmem : kws' ∈ starts) :
    pKeyword kws t = none :=
  none_of_next hclear (h.next hmem)

theorem Grammar.First.next {α : Type} {cases : List (List String × α)} {s t : Bytes} {a : α}
    (h : First cases s a t) : Next (cases.map Prod.fst) s := by
  induction h with
  | here hword => exact hword.next (by simp)
  | there _ _ ih =>
      rcases ih with hdone | ⟨kws, hmem, u, hu⟩
      · exact .inl hdone
      · exact .inr ⟨kws, List.mem_cons_of_mem _ hmem, u, hu⟩

theorem Grammar.Optional.next {α : Type} {kws : List String} {R : Phrase α} {a b : α}
    {s t : Bytes}
    {starts : List (List String)} (h : Optional kws R a s b t) (hnext : Next starts t) :
    Next (kws :: starts) s := by
  cases h with
  | given hword _ => exact hword.next (by simp)
  | absent =>
      rcases hnext with hdone | ⟨kws, hmem, u, hu⟩
      · exact .inl hdone
      · exact .inr ⟨kws, List.mem_cons_of_mem _ hmem, u, hu⟩

theorem Grammar.First.length_lt {α : Type} {cases : List (List String × α)} {s t : Bytes}
    {a : α} (h : First cases s a t) (hopens : ∀ c ∈ cases, Opens c.1) :
    t.length < s.length := by
  induction h with
  | here hword => exact pKeyword_lt (hopens _ List.mem_cons_self) hword.1
  | there _ _ ih => exact ih fun c hc => hopens c (List.mem_cons_of_mem _ hc)

/-- The byte that a keyword was matched at. -/
theorem peek_of_pKeyword {kw : String} {kws : List String} {s t : Bytes} (hkw : lit kw ≠ [])
    (h : pKeyword (kw :: kws) s = some t) : lower (peek (skipComments s)) = peek (lit kw) := by
  obtain ⟨r, hr, -⟩ := Option.bind_eq_some_iff.mp h
  rw [skipWS_skipComments] at hr
  cases hlit : lit kw with
  | nil => exact absurd hlit hkw
  | cons c cs =>
      rw [hlit, matchWord] at hr
      split at hr
      · next hc => exact hc
      · cases hr

-- =========================================================== names

theorem name_iff {s name t : Bytes} :
    Name s name t ↔ pMustSym s = (name, t) ∧ name ≠ [] := by
  constructor
  · intro h
    obtain ⟨hs, hne, hall, ht⟩ := h
    refine ⟨?_, hne⟩
    rw [pMustSym, hs, takeWhile_run hall ht, dropWhile_run hall ht]
  · intro h
    obtain ⟨hs, hne⟩ := h
    obtain ⟨rfl, rfl⟩ := Prod.mk.inj hs
    refine ⟨(List.takeWhile_append_dropWhile).symm, hne, ?_, peek_dropWhile rfl _⟩
    exact fun b hb => List.mem_takeWhile_imp hb

-- ========================================================= numbers

theorem isDigit_minus : isDigit 45 = false := by decide

/-- A digit is no minus sign. -/
theorem peek_digits {digits t : Bytes} (hne : digits ≠ [])
    (hall : ∀ b ∈ digits, isDigit b = true) : isDigit (peek (digits ++ t)) = true := by
  cases digits with
  | nil => exact absurd rfl hne
  | cons b digits => exact hall b (by simp)

theorem parseInt_of_shown {neg : Bool} {digits : Bytes} {i : Int64}
    (h : i.toInt = signed neg (numeral digits)) : parseInt neg digits = i := by
  have hlow := Int64.le_toInt i
  have hhigh := Int64.toInt_lt i
  cases neg with
  | true =>
      have hval : i.toInt = -numeral digits := h
      have hmax : max (-numeral digits) (-2 ^ 63) = i.toInt := by omega
      show Int64.ofInt (max (-numeral digits) (-2 ^ 63)) = i
      rw [hmax, Int64.ofInt_toInt]
  | false =>
      have hval : i.toInt = numeral digits := h
      have hmin : min (numeral digits) (2 ^ 63 - 1) = i.toInt := by omega
      show Int64.ofInt (min (numeral digits) (2 ^ 63 - 1)) = i
      rw [hmin, Int64.ofInt_toInt]

/-- The text behind a minus sign, or all of it. -/
def unsigned (s : Bytes) : Bytes := if peek s = 45 then s.tail else s

theorem pNum_eq (s : Bytes) :
    pNum s = if (unsigned (skipComments s)).takeWhile isDigit = [] then (none, skipComments s)
      else (some (parseInt (peek (skipComments s) = 45)
          ((unsigned (skipComments s)).takeWhile isDigit)),
        (unsigned (skipComments s)).dropWhile isDigit) := rfl

theorem shown_eq (s : Bytes) :
    shown s = signed (peek s = 45) (numeral ((unsigned s).takeWhile isDigit)) := rfl

theorem peek_sign (neg : Bool) (t : Bytes) {digits : Bytes} (hne : digits ≠ [])
    (hall : ∀ b ∈ digits, isDigit b = true) :
    decide (peek ((if neg then [45] else []) ++ digits ++ t) = 45) = neg ∧
      unsigned ((if neg then [45] else []) ++ digits ++ t) = digits ++ t := by
  cases neg with
  | true => exact ⟨rfl, rfl⟩
  | false =>
      have hpeek : peek (digits ++ t) ≠ 45 := by
        intro h
        have hdigit := peek_digits (t := t) hne hall
        rw [h, isDigit_minus] at hdigit
        cases hdigit
      exact ⟨decide_eq_false hpeek, if_neg hpeek⟩

theorem unsigned_split (s : Bytes) :
    s = (if decide (peek s = 45) then [45] else []) ++ unsigned s := by
  cases s with
  | nil => rfl
  | cons b s =>
      by_cases hb : b = 45
      · subst hb
        rfl
      · simp [unsigned, peek, hb]

theorem number_iff {s t : Bytes} {i : Int64} :
    Number s i t ↔ pNum s = (some i, t) ∧ i.toInt = shown (skipComments s) := by
  rw [pNum_eq, shown_eq]
  constructor
  · intro h
    obtain ⟨neg, digits, hs, hne, hall, ht, hi⟩ := h
    obtain ⟨hneg, hbody⟩ := peek_sign neg t hne hall
    rw [hs, hneg, hbody, takeWhile_run hall ht, dropWhile_run hall ht, if_neg hne,
      parseInt_of_shown hi]
    exact ⟨rfl, hi⟩
  · intro h
    obtain ⟨hnum, hi⟩ := h
    split at hnum
    · cases hnum
    · next hne =>
        obtain ⟨-, rfl⟩ := Prod.mk.inj hnum
        refine ⟨peek (skipComments s) = 45, _, ?_, hne, fun b hb => List.mem_takeWhile_imp hb,
          peek_dropWhile rfl _, hi⟩
        rw [List.append_assoc, List.takeWhile_append_dropWhile]
        exact unsigned_split _

theorem pNum_none {s t : Bytes} (h : pNum s = (none, t)) : t = skipComments s := by
  rw [pNum_eq] at h
  split at h
  · exact (Prod.mk.inj h).2.symm
  · cases h

/-- A name that does not begin with a digit is not taken for a number. -/
theorem pNum_of_peek {s : Bytes} (hdigit : isDigit (peek (skipComments s)) = false)
    (hminus : peek (skipComments s) ≠ 45) : pNum s = (none, skipComments s) := by
  have hbody : unsigned (skipComments s) = skipComments s := if_neg hminus
  rw [pNum_eq, hbody, takeWhile_of_peek hdigit, if_pos rfl]

theorem isDigit_peek_of_pNum {s t : Bytes} (h : pNum s = (none, t)) :
    isDigit (peek (skipComments s)) = false := by
  cases hdigit : isDigit (peek (skipComments s)) with
  | false => rfl
  | true =>
      have hminus : peek (skipComments s) ≠ 45 := by
        intro heq
        rw [heq, isDigit_minus] at hdigit
        cases hdigit
      have hbody : unsigned (skipComments s) = skipComments s := if_neg hminus
      rw [pNum_eq, hbody] at h
      cases hs : skipComments s with
      | nil =>
          rw [hs] at hdigit
          cases hdigit
      | cons b rest =>
          have hb : isDigit b = true := by simpa [hs, peek] using hdigit
          rw [hs, List.takeWhile_cons_of_pos hb, if_neg (List.cons_ne_nil _ _)] at h
          cases h

-- ========================================================= strings

theorem strLoop_close (quote : UInt8) (t out : Bytes) :
    strLoop quote (quote :: t) out = (some out, t) := by
  cases t with
  | nil => rw [strLoop, if_pos rfl]
  | cons c t => rw [strLoop, if_pos rfl]

theorem chars_of_strLoop {quote : UInt8} {s out str t : Bytes}
    (h : strLoop quote s out = (some str, t)) :
    ∃ body, Chars quote s body t ∧ str = out ++ body := by
  fun_induction strLoop quote s out with
  | case1 => cases h
  | case2 out =>
      cases h
      exact ⟨[], .close, (List.append_nil _).symm⟩
  | case3 => cases h
  | case4 c s out =>
      cases h
      exact ⟨[], .close, (List.append_nil _).symm⟩
  | case5 c s out _ ih =>
      obtain ⟨body, hbody, rfl⟩ := ih h
      exact ⟨c :: body, .escape hbody, List.append_assoc _ _ _⟩
  | case6 b c s out hquote hslash ih =>
      obtain ⟨body, hbody, rfl⟩ := ih h
      exact ⟨b :: body, .plain hquote hslash hbody, List.append_assoc _ _ _⟩

theorem strLoop_of_chars {quote : UInt8} (hquote : quote ≠ 92) {s body t : Bytes}
    (h : Chars quote s body t) (out : Bytes) :
    strLoop quote s out = (some (out ++ body), t) := by
  induction h generalizing out with
  | close => rw [strLoop_close, List.append_nil]
  | escape _ ih =>
      rw [strLoop, if_neg hquote.symm, if_pos rfl, ih, List.append_assoc]
      rfl
  | @plain b s str t hb hslash hrest ih =>
      cases s with
      | nil => cases hrest
      | cons c s =>
          rw [strLoop, if_neg hb, if_neg hslash, ih, List.append_assoc]
          rfl

theorem str_iff {s str t : Bytes} : Str s str t ↔ pStr s = (some str, t) := by
  rw [pStr]
  constructor
  · intro h
    obtain ⟨quote, body, hquote, hs, hchars⟩ := h
    rw [hs]
    have hslash : quote ≠ 92 := by
      rcases hquote with rfl | rfl <;> decide
    exact (if_pos hquote).trans (strLoop_of_chars hslash hchars [])
  · intro h
    split at h
    · next hquote =>
        obtain ⟨body, hbody, hstr⟩ := chars_of_strLoop h
        cases hs : skipComments s with
        | nil =>
            rw [hs] at hquote
            rcases hquote with hquote | hquote <;> cases hquote
        | cons b tail =>
            rw [hs] at hquote hbody
            rw [List.nil_append] at hstr
            subst hstr
            exact ⟨b, tail, hquote, hs, hbody⟩
    · cases h

theorem strLoop_none {quote : UInt8} {s out t : Bytes} (h : strLoop quote s out = (none, t)) :
    t = [] := by
  fun_induction strLoop quote s out with
  | case1 => exact (Prod.mk.inj h).2.symm
  | case2 => cases h
  | case3 => exact (Prod.mk.inj h).2.symm
  | case4 => cases h
  | case5 _ _ _ _ ih => exact ih h
  | case6 _ _ _ _ _ _ ih => exact ih h

/-- Without a string, the text is at its beginning still or used up. -/
theorem pStr_none {s t : Bytes} (h : pStr s = (none, t)) : t = skipComments s ∨ t = [] := by
  rw [pStr] at h
  split at h
  · exact .inr (strLoop_none h)
  · exact .inl (Prod.mk.inj h).2.symm

theorem pStr_of_peek {s : Bytes} (h : ¬ (peek (skipComments s) = 39 ∨ peek (skipComments s) = 34)) :
    pStr s = (none, skipComments s) := if_neg h

-- ===================================================== first bytes

theorem lower_eq {b c : UInt8} (hc : c < 97) (h : lower b = c) : b = c := by
  rw [lower] at h
  split at h
  · next hb =>
      have h₁ := UInt8.le_iff_toNat_le.mp hb.1
      have h₂ := UInt8.le_iff_toNat_le.mp hb.2
      have h₃ := UInt8.lt_iff_toNat_lt.mp hc
      have h₄ := congrArg UInt8.toNat h
      rw [UInt8.toNat_add] at h₄
      simp at h₁ h₂ h₃ h₄
      omega
  · exact h

/-- The bytes that numbers and strings begin with. -/
def isMark (b : UInt8) : Bool := isDigit b || b = 45 || b = 39 || b = 34

theorem lower_of_isMark {b : UInt8} (h : isMark b = true) : lower b = b := by
  rw [lower, if_neg]
  intro hb
  have h₁ := UInt8.le_iff_toNat_le.mp hb.1
  simp [isMark, isDigit, UInt8.le_iff_toNat_le, ← UInt8.toNat_inj] at h h₁
  omega

theorem pKeyword_of_peek {kw : String} {kws : List String} {s : Bytes} (hkw : lit kw ≠ [])
    (h : lower (peek (skipComments s)) ≠ peek (lit kw)) : pKeyword (kw :: kws) s = none := by
  cases hmatch : pKeyword (kw :: kws) s with
  | none => rfl
  | some t => exact absurd (peek_of_pKeyword hkw hmatch) h

/-- The keyword begins differently from numbers and strings. -/
def Unmarked (kw : String) : Prop := lit kw ≠ [] ∧ isMark (peek (lit kw)) = false

instance (kw : String) : Decidable (Unmarked kw) := inferInstanceAs (Decidable (_ ∧ _))

/-- Where a number or a string begins there is no keyword. -/
theorem pKeyword_of_isMark {kw : String} {kws : List String} {s : Bytes} (hkw : Unmarked kw)
    (h : isMark (peek (skipComments s)) = true) : pKeyword (kw :: kws) s = none := by
  apply pKeyword_of_peek hkw.1
  intro heq
  rw [lower_of_isMark h] at heq
  rw [heq, hkw.2] at h
  cases h

theorem pNum_of_isMark {s : Bytes} (h : isMark (peek (skipComments s)) = false) :
    pNum s = (none, skipComments s) := by
  simp only [isMark, Bool.or_eq_false_iff, decide_eq_false_iff_not] at h
  exact pNum_of_peek h.1.1.1 h.1.1.2

/-- The keyword is a bracket or a star, or the like. -/
def Punctuation (kw : String) : Prop :=
  lit kw ≠ [] ∧ peek (lit kw) < 97 ∧ isSym (peek (lit kw)) = false

instance (kw : String) : Decidable (Punctuation kw) := inferInstanceAs (Decidable (_ ∧ _ ∧ _))

/-- Where a name begins there is no punctuation. -/
theorem pKeyword_of_isSym {kw : String} {kws : List String} {s : Bytes} (hkw : Punctuation kw)
    (h : isSym (peek (skipComments s)) = true) : pKeyword (kw :: kws) s = none := by
  apply pKeyword_of_peek hkw.1
  intro heq
  rw [lower_eq hkw.2.1 heq, hkw.2.2] at h
  cases h

theorem Grammar.Name.peek {s name t : Bytes} (h : Name s name t) :
    isSym (peek (skipComments s)) = true := by
  obtain ⟨hs, hne, hall, -⟩ := h
  rw [hs]
  cases name with
  | nil => exact absurd rfl hne
  | cons b name => exact hall b (by simp)

theorem Grammar.Name.length_le {s name t : Bytes} (h : Name s name t) :
    t.length ≤ s.length := by
  have hsuffix := pMustSym_suffix s
  rw [(name_iff.mp h).1] at hsuffix
  exact hsuffix.length_le

theorem Grammar.Number.peek {s t : Bytes} {i : Int64} (h : Number s i t) :
    isMark (peek (skipComments s)) = true := by
  obtain ⟨neg, digits, hs, hne, hall, -, -⟩ := h
  rw [hs]
  cases neg with
  | true => rfl
  | false =>
      have hdigit := peek_digits (t := t) hne hall
      simp only [Bool.false_eq_true, if_false, List.nil_append, isMark, hdigit, Bool.true_or]

theorem Grammar.Str.peek {s str t : Bytes} (h : Str s str t) :
    isMark (peek (skipComments s)) = true := by
  obtain ⟨quote, body, hquote, hs, -⟩ := h
  rw [hs]
  rcases hquote with rfl | rfl
  · rfl
  · rfl

end Svacara.Sql
