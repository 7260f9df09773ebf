/-
The parser stays inside of its input.

`Reaches input p pos a t` says that `p`, started at `pos`, returns `a`,
has touched nothing outside of the input, and stands behind or at `pos`
where the input that is left is `t`. Sequencing keeps it. The tokens reach
what the functions of `Parser.lean` leave, and so does every production
(`Follows`): the parser on positions refines the one on what is left,
which always returns.
-/
import Svacara.Sql.Layout
import Svacara.Sql.Positions
import Svacara.Sql.Proofs.Interface
import Svacara.Sql.Proofs.Trace
import Svacara.Sql.Proofs.Returns
import Svacara.Sql.Proofs.Tokens

namespace Svacara.Sql.Located

open Logged Outcome

variable {α β : Type} {input : Bytes}

-- ======================================================== reaching

/-- From `pos` the computation returns `a` with `t` left, and stays inside
of the input. -/
def Reaches (input : Bytes) (p : Located α) (pos : Nat) (a : α) (t : Bytes) : Prop :=
  ∃ pos', Clean (Access.Inside input) p pos a pos' ∧ pos ≤ pos' ∧ pos' ≤ input.length
    ∧ input.drop pos' = t

theorem Reaches.bind {p : Located α} {f : α → Located β} {pos : Nat} {a : α} {b : β}
    {t u : Bytes} (hp : Reaches input p pos a t)
    (hf : ∀ pos', pos ≤ pos' → pos' ≤ input.length → input.drop pos' = t →
      Reaches input (f a) pos' b u) : Reaches input (p >>= f) pos b u := by
  obtain ⟨pos₁, hp, hle, hlen, ht⟩ := hp
  obtain ⟨pos₂, hf, hle₂, hlen₂, hu⟩ := hf pos₁ hle hlen ht
  exact ⟨pos₂, clean_bind.mpr ⟨a, pos₁, hp, hf⟩, Nat.le_trans hle hle₂, hlen₂, hu⟩

theorem reaches_pure {pos : Nat} {t : Bytes} (hpos : pos ≤ input.length)
    (ht : input.drop pos = t) (a : α) : Reaches input (pure a) pos a t :=
  ⟨pos, clean_pure.mpr ⟨rfl, rfl⟩, Nat.le_refl _, hpos, ht⟩

/-- The position is known where it is asked for. -/
theorem reaches_get {f : Nat → Located α} {pos : Nat} {a : α} {t : Bytes}
    (h : Reaches input (f pos) pos a t) : Reaches input (Logged.get >>= f) pos a t := by
  obtain ⟨pos', hf, hrest⟩ := h
  exact ⟨pos', clean_bind.mpr ⟨pos, pos, clean_get.mpr ⟨rfl, rfl⟩, hf⟩, hrest⟩

theorem reaches_readAt {i pos : Nat} {b : UInt8} {s : Bytes} (hpos : pos ≤ input.length)
    (hi : input.drop i = b :: s) : Reaches input (readAt input i) pos b (input.drop pos) := by
  have hget : input[i]? = some b := by
    rw [← List.head?_drop, hi]
    rfl
  refine ⟨pos, ⟨[.read i], ?_, ?_⟩, Nat.le_refl _, hpos, rfl⟩
  · rw [readAt, hget]
  · intro e he
    rw [List.mem_singleton.mp he]
    exact (List.getElem?_eq_some_iff.mp hget).1

theorem reaches_move {pos pos' : Nat} (hle : pos ≤ pos') (hlen : pos' ≤ input.length) :
    Reaches input (move pos') pos () (input.drop pos') := by
  refine ⟨pos', ⟨[.moved pos'], rfl, ?_⟩, hle, hlen, rfl⟩
  intro e he
  rw [List.mem_singleton.mp he]
  exact hlen

theorem reaches_slice {lo hi pos : Nat} (hlo : lo ≤ hi) (hhi : hi ≤ input.length)
    (hpos : pos ≤ input.length) :
    Reaches input (slice input lo hi) pos ((input.drop lo).take (hi - lo)) (input.drop pos) := by
  refine ⟨pos, ⟨[.slice lo hi], ?_, ?_⟩, Nat.le_refl _, hpos, rfl⟩
  · rw [slice, if_pos ⟨hlo, hhi⟩]
  · intro e he
    rw [List.mem_singleton.mp he]
    exact ⟨hlo, hhi⟩

-- ======================================================= the input

theorem lt_of_drop_cons {pos : Nat} {b : UInt8} {s : Bytes} (h : input.drop pos = b :: s) :
    pos < input.length := by
  have hlen := congrArg List.length h
  rw [List.length_drop, List.length_cons] at hlen
  omega

theorem drop_succ_of_cons {pos : Nat} {b : UInt8} {s : Bytes} (h : input.drop pos = b :: s) :
    input.drop (pos + 1) = s := by
  rw [← List.tail_drop, h]
  rfl

theorem le_of_drop_nil {pos : Nat} (h : input.drop pos = []) : input.length ≤ pos :=
  List.drop_eq_nil_iff.mp h

/-- Inside of the input, the position is determined by what is left. -/
theorem pos_eq_of_drop_eq {pos pos' : Nat} (hpos : pos ≤ input.length)
    (hpos' : pos' ≤ input.length) (h : input.drop pos' = input.drop pos) : pos' = pos := by
  have hlen := congrArg List.length h
  rw [List.length_drop, List.length_drop] at hlen
  omega

/-- A step whose end is known. -/
theorem Reaches.bind_at {p : Located α} {f : α → Located β} {pos e : Nat} {a : α} {b : β}
    {u : Bytes} (hp : Reaches input p pos a (input.drop e)) (he : e ≤ input.length)
    (hf : Reaches input (f a) e b u) : Reaches input (p >>= f) pos b u :=
  hp.bind fun _ _ hlen h => pos_eq_of_drop_eq he hlen h ▸ hf

theorem reaches_peek {pos : Nat} (hpos : pos ≤ input.length) :
    Reaches input (peek input) pos (Sql.peek (input.drop pos)) (input.drop pos) := by
  apply reaches_get
  cases hs : input.drop pos with
  | nil =>
      rw [if_pos (le_of_drop_nil hs)]
      exact reaches_pure hpos hs 0
  | cons b s =>
      have hread := reaches_readAt hpos hs
      rw [hs] at hread
      rw [if_neg (Nat.not_le.mpr (lt_of_drop_cons hs))]
      exact hread

theorem reaches_next {pos : Nat} {b : UInt8} {s : Bytes} (hs : input.drop pos = b :: s) :
    Reaches input (next input) pos b s := by
  have hlt := lt_of_drop_cons hs
  apply reaches_get
  rw [if_neg (Nat.not_le.mpr hlt)]
  refine (reaches_readAt (Nat.le_of_lt hlt) hs).bind_at (Nat.le_of_lt hlt) ?_
  refine (reaches_move (Nat.le_succ _) hlt).bind_at hlt ?_
  exact reaches_pure hlt (drop_succ_of_cons hs) b

theorem reaches_skipWhile (f : UInt8 → Bool) (n pos : Nat) (hpos : pos ≤ input.length)
    (hn : input.length - pos < n) :
    Reaches input (skipWhile input f n) pos () ((input.drop pos).dropWhile f) := by
  induction n generalizing pos with
  | zero => omega
  | succ n ih =>
      apply reaches_get
      cases hs : input.drop pos with
      | nil =>
          rw [if_neg (Nat.not_lt.mpr (le_of_drop_nil hs)), List.dropWhile_nil]
          exact reaches_pure hpos hs ()
      | cons b s =>
          have hlt := lt_of_drop_cons hs
          rw [if_pos hlt]
          refine (reaches_readAt hpos hs).bind_at hpos ?_
          cases hb : f b with
          | false =>
              rw [List.dropWhile_cons_of_neg (by simp [hb])]
              exact reaches_pure hpos hs ()
          | true =>
              rw [List.dropWhile_cons_of_pos hb, ← drop_succ_of_cons hs]
              exact (reaches_move (Nat.le_succ _) hlt).bind_at hlt (ih _ hlt (by omega))

theorem reaches_skipWS {pos : Nat} (hpos : pos ≤ input.length) :
    Reaches input (skipWS input) pos () (Sql.skipWS (input.drop pos)) :=
  reaches_skipWhile isWS _ pos hpos (by omega)

/-- At the end of the input nothing is taken. -/
theorem reaches_next' {pos : Nat} (hpos : pos ≤ input.length) :
    Reaches input (next input) pos (Sql.peek (input.drop pos)) (input.drop pos).tail := by
  cases hs : input.drop pos with
  | cons b s => exact reaches_next hs
  | nil =>
      apply reaches_get
      rw [if_pos (le_of_drop_nil hs)]
      exact reaches_pure hpos hs 0

-- ======================================================== comments

theorem length_skipWS_le (s : Bytes) : (Sql.skipWS s).length ≤ s.length :=
  (skipWS_suffix s).length_le

/-- Any fuel that is enough for the one loop and for the other. -/
theorem reaches_skipLoop (n m pos : Nat) (hpos : pos ≤ input.length)
    (hn : input.length - pos < n) (hm : input.length - pos ≤ m) :
    Reaches input (skipLoop input n) pos () (Sql.skipLoop m (input.drop pos)) := by
  induction n generalizing m pos with
  | zero => omega
  | succ n ih =>
      apply reaches_get
      have hlen : (input.drop pos).length = input.length - pos := List.length_drop
      rcases hs : input.drop pos with _ | ⟨a, _ | ⟨b, s⟩⟩
      · rw [hs, List.length_nil] at hlen
        rw [if_neg (by omega), Sql.skipLoop]
        · exact reaches_pure hpos hs ()
        · simp
      · rw [hs, List.length_singleton] at hlen
        rw [if_neg (by omega), Sql.skipLoop]
        · exact reaches_pure hpos hs ()
        · simp
      · rw [hs, List.length_cons, List.length_cons] at hlen
        obtain ⟨m, rfl⟩ : ∃ k, m = k + 1 := ⟨m - 1, by omega⟩
        have hs' : input.drop (pos + 1) = b :: s := drop_succ_of_cons hs
        rw [if_pos (by omega), Sql.skipLoop]
        refine (reaches_readAt hpos hs).bind_at hpos ?_
        by_cases ha : a = 45
        · rw [if_pos ha]
          refine (reaches_readAt hpos hs').bind_at hpos ?_
          by_cases hb : b = 45
          · rw [if_pos hb, if_pos ⟨ha, hb⟩]
            -- the two dashes are no newlines
            have hline : (input.drop pos).dropWhile (fun c => c ≠ 10)
                = s.dropWhile fun c => c ≠ 10 := by
              rw [hs, ha, hb]
              rfl
            refine (reaches_skipWhile _ _ pos hpos (by omega)).bind fun p₁ _ hl₁ hp₁ => ?_
            rw [hline] at hp₁
            refine (reaches_skipWS hl₁).bind fun p₂ _ hl₂ hp₂ => ?_
            rw [hp₁] at hp₂
            have hshort : input.length - p₂ ≤ s.length := by
              have h₁ := congrArg List.length hp₂
              have h₂ := length_skipWS_le (s.dropWhile fun c => c ≠ 10)
              have h₃ := (List.dropWhile_suffix (l := s) fun c => decide (c ≠ 10)).length_le
              rw [List.length_drop] at h₁
              omega
            rw [← hp₂]
            exact ih m p₂ hl₂ (by omega) (by omega)
          · rw [if_neg hb, if_neg (fun h => hb h.2)]
            exact reaches_pure hpos hs ()
        · rw [if_neg ha, if_neg (fun h => ha h.1)]
          exact reaches_pure hpos hs ()

theorem reaches_skipComments {pos : Nat} (hpos : pos ≤ input.length) :
    Reaches input (skipComments input) pos () (Sql.skipComments (input.drop pos)) := by
  refine (reaches_skipWS hpos).bind fun pos' hle hlen hpos' => ?_
  rw [Sql.skipComments, ← hpos', List.length_drop]
  exact reaches_skipLoop _ _ pos' hlen (by omega) (by omega)

-- ======================================================== keywords

/-- What is left behind a word that is there; nothing is known of where a
word that is not there was given up. -/
def Matches (input : Bytes) (p : Located Bool) (pos : Nat) (r : Option Bytes) : Prop :=
  match r with
  | some t => Reaches input p pos true t
  | none => ∃ t, Reaches input p pos false t

theorem Matches.of_bind {p : Located α} {f : α → Located Bool} {pos : Nat} {a : α} {t : Bytes}
    {r : Option Bytes} (hp : Reaches input p pos a t)
    (hf : ∀ pos', pos ≤ pos' → pos' ≤ input.length → input.drop pos' = t →
      Matches input (f a) pos' r) : Matches input (p >>= f) pos r := by
  obtain ⟨pos₁, hp₁, hle, hlen, ht⟩ := hp
  have hp : Reaches input p pos a t := ⟨pos₁, hp₁, hle, hlen, ht⟩
  have huniq : ∀ pos', pos' ≤ input.length → input.drop pos' = t → pos' = pos₁ :=
    fun pos' hl h => pos_eq_of_drop_eq hlen hl (h.trans ht.symm)
  have hm := hf pos₁ hle hlen ht
  cases r with
  | some u => exact hp.bind fun pos' _ hl h => huniq pos' hl h ▸ hm
  | none =>
      obtain ⟨u, hm⟩ := hm
      exact ⟨u, hp.bind fun pos' _ hl h => huniq pos' hl h ▸ hm⟩

theorem matches_matchWord (kw : Bytes) (pos : Nat) (hpos : pos ≤ input.length) :
    Matches input (matchWord input kw) pos (Sql.matchWord kw (input.drop pos)) := by
  induction kw generalizing pos with
  | nil => exact reaches_pure hpos rfl true
  | cons c kw ih =>
      refine Matches.of_bind (reaches_peek hpos) fun pos' _ hlen hpos' => ?_
      obtain rfl := pos_eq_of_drop_eq hpos hlen hpos'
      rw [Sql.matchWord]
      by_cases hc : lower (Sql.peek (input.drop pos')) = c
      · rw [if_pos hc, if_pos hc]
        refine Matches.of_bind (reaches_next' hpos) fun pos'' _ hlen'' hpos'' => ?_
        rw [← hpos'']
        exact ih pos'' hlen''
      · rw [if_neg hc, if_neg hc]
        exact ⟨_, reaches_pure hpos rfl false⟩

theorem matches_matchWords (kws : List String) (pos : Nat) (hpos : pos ≤ input.length) :
    Matches input (matchWords input kws) pos (Sql.matchWords kws (input.drop pos)) := by
  induction kws generalizing pos with
  | nil => exact reaches_pure hpos rfl true
  | cons kw kws ih =>
      refine Matches.of_bind (reaches_skipWS hpos) fun pos₁ _ hlen₁ hpos₁ => ?_
      have hword := matches_matchWord (lit kw) pos₁ hlen₁
      rw [hpos₁] at hword
      rw [Sql.matchWords]
      cases hr : Sql.matchWord (lit kw) (Sql.skipWS (input.drop pos)) with
      | some t =>
          rw [hr] at hword
          refine Matches.of_bind hword fun pos₂ _ hlen₂ hpos₂ => ?_
          rw [Option.bind_some, ← hpos₂]
          exact ih pos₂ hlen₂
      | none =>
          rw [hr] at hword
          obtain ⟨t, hword⟩ := hword
          refine Matches.of_bind hword fun pos₂ _ hlen₂ hpos₂ => ?_
          exact ⟨_, reaches_pure hlen₂ rfl false⟩

/-- A keyword that is there is taken; one that is not leaves the position
exactly where it was. -/
theorem pKeyword_some {kws : List String} {pos : Nat} {t : Bytes} (hpos : pos ≤ input.length)
    (h : Sql.pKeyword kws (input.drop pos) = some t) :
    Reaches input (pKeyword input kws) pos true t := by
  apply reaches_get
  refine (reaches_skipComments hpos).bind fun pos₁ _ hlen₁ hpos₁ => ?_
  have hwords := matches_matchWords kws pos₁ hlen₁
  rw [hpos₁, ← Sql.pKeyword, h] at hwords
  refine Reaches.bind hwords fun pos₂ _ hlen₂ hpos₂ => ?_
  exact reaches_pure hlen₂ hpos₂ true

theorem pKeyword_none {kws : List String} {pos : Nat} (hpos : pos ≤ input.length)
    (h : Sql.pKeyword kws (input.drop pos) = none) :
    Clean (Access.Inside input) (pKeyword input kws) pos false pos := by
  obtain ⟨pos₁, hskip, -, hlen₁, hpos₁⟩ := reaches_skipComments hpos
  have hwords := matches_matchWords kws pos₁ hlen₁
  rw [hpos₁, ← Sql.pKeyword, h] at hwords
  obtain ⟨t, pos₂, hwords, -⟩ := hwords
  refine clean_bind.mpr ⟨pos, pos, clean_get.mpr ⟨rfl, rfl⟩, clean_bind.mpr ⟨(), pos₁, hskip, ?_⟩⟩
  refine clean_bind.mpr ⟨false, pos₂, hwords, clean_bind.mpr ⟨(), pos, ?_, ?_⟩⟩
  · refine ⟨[.moved pos], rfl, fun e he => ?_⟩
    rw [List.mem_singleton.mp he]
    exact hpos
  · exact clean_pure.mpr ⟨rfl, rfl⟩

-- ================================================ names and values

/-- Where the loop ends the byte 0 is not taken, so the end of the input
stops it. -/
theorem reaches_nextWhile (f : UInt8 → Bool) (hf : f 0 = false) (n pos : Nat)
    (hpos : pos ≤ input.length) (hn : input.length - pos < n) :
    Reaches input (nextWhile input f n) pos () ((input.drop pos).dropWhile f) := by
  induction n generalizing pos with
  | zero => omega
  | succ n ih =>
      refine (reaches_peek hpos).bind_at hpos ?_
      cases hs : input.drop pos with
      | nil =>
          rw [if_neg (by simp [Sql.peek, hf]), List.dropWhile_nil]
          exact reaches_pure hpos hs ()
      | cons b s =>
          have hlt := lt_of_drop_cons hs
          cases hb : f b with
          | false =>
              rw [if_neg (by simp [Sql.peek, hb]), List.dropWhile_cons_of_neg (by simp [hb])]
              exact reaches_pure hpos hs ()
          | true =>
              have hnext := reaches_next hs
              rw [if_pos (by simp [Sql.peek, hb]), List.dropWhile_cons_of_pos hb]
              rw [← drop_succ_of_cons hs] at hnext ⊢
              exact hnext.bind_at hlt (ih _ hlt (by omega))

/-- The slice between two positions is what was taken between them. -/
theorem take_of_drop_eq {lo hi : Nat} {taken left : Bytes} (hlo : lo ≤ hi)
    (hhi : hi ≤ input.length) (h : input.drop lo = taken ++ left)
    (hleft : input.drop hi = left) : (input.drop lo).take (hi - lo) = taken := by
  have hlen := congrArg List.length h
  have hlen' := congrArg List.length hleft
  rw [List.length_append, List.length_drop] at hlen
  rw [List.length_drop] at hlen'
  rw [h, show hi - lo = taken.length by omega, List.take_left]

theorem reaches_pMustSym {pos : Nat} (hpos : pos ≤ input.length) :
    Reaches input (pMustSym input) pos (Sql.pMustSym (input.drop pos)).1
      (Sql.pMustSym (input.drop pos)).2 := by
  refine (reaches_skipComments hpos).bind fun start _ hstart hs => ?_
  apply reaches_get
  rw [Sql.pMustSym, ← hs]
  refine (reaches_nextWhile isSym rfl _ start hstart (by omega)).bind fun e hle he hleft => ?_
  apply reaches_get
  have hsplit := (List.takeWhile_append_dropWhile (p := isSym) (l := input.drop start)).symm
  have htake := take_of_drop_eq hle he hsplit hleft
  rw [← hleft, ← htake]
  by_cases heq : e = start
  · rw [if_pos heq, heq, Nat.sub_self, List.take_zero]
    exact reaches_pure hstart rfl []
  · rw [if_neg heq]
    exact reaches_slice hle he he

theorem reaches_strLoop (quote : UInt8) (n pos : Nat) (out : Bytes)
    (hpos : pos ≤ input.length) (hn : input.length - pos < n) :
    Reaches input (strLoop input quote n out) pos (Sql.strLoop quote (input.drop pos) out).1
      (Sql.strLoop quote (input.drop pos) out).2 := by
  induction n generalizing pos out with
  | zero => omega
  | succ n ih =>
      apply reaches_get
      rcases hs : input.drop pos with _ | ⟨b, s⟩
      · rw [if_neg (Nat.not_lt.mpr (le_of_drop_nil hs))]
        exact reaches_pure hpos hs none
      · have hlt := lt_of_drop_cons hs
        rw [if_pos hlt]
        refine (reaches_next hs).bind fun p₁ _ hl₁ hp₁ => ?_
        have hlen₁ : input.length - p₁ = s.length := by rw [← hp₁, List.length_drop]
        have hlen : input.length - pos = s.length + 1 := by
          rw [← List.length_drop, hs, List.length_cons]
        by_cases hq : b = quote
        · have hret := reaches_pure hl₁ hp₁ (some out)
          rw [if_pos hq]
          cases s with
          | nil => simpa [Sql.strLoop, hq] using hret
          | cons c s => simpa [Sql.strLoop, hq] using hret
        · rw [if_neg hq]
          apply reaches_get
          cases s with
          | nil =>
              -- the last byte, also where it is a backslash
              rw [List.length_nil] at hlen₁
              rw [if_neg (fun h => by omega)]
              have hrec := ih p₁ (out ++ [b]) hl₁ (by omega)
              rw [hp₁] at hrec
              simpa [Sql.strLoop, hq] using hrec
          | cons c s =>
              rw [List.length_cons] at hlen₁ hlen
              by_cases hb : b = 92
              · rw [if_pos ⟨hb, by omega⟩]
                refine (reaches_next hp₁).bind fun p₂ _ hl₂ hp₂ => ?_
                have hlen₂ : input.length - p₂ = s.length := by rw [← hp₂, List.length_drop]
                have hrec := ih p₂ (out ++ [c]) hl₂ (by omega)
                rw [hp₂] at hrec
                rw [Sql.strLoop, if_neg hq, if_pos hb]
                exact hrec
              · rw [if_neg (fun h => hb h.1)]
                have hrec := ih p₁ (out ++ [b]) hl₁ (by omega)
                rw [hp₁] at hrec
                rw [Sql.strLoop, if_neg hq, if_neg hb]
                exact hrec

theorem reaches_pStr {pos : Nat} (hpos : pos ≤ input.length) :
    Reaches input (pStr input) pos (Sql.pStr (input.drop pos)).1
      (Sql.pStr (input.drop pos)).2 := by
  refine (reaches_skipComments hpos).bind fun start _ hstart hs => ?_
  rw [Sql.pStr, ← hs]
  refine (reaches_peek hstart).bind_at hstart ?_
  by_cases hq : Sql.peek (input.drop start) = 39 ∨ Sql.peek (input.drop start) = 34
  · simp only [if_pos hq]
    refine (reaches_next' hstart).bind fun p₂ _ hl₂ hp₂ => ?_
    rw [← hp₂]
    exact reaches_strLoop _ _ p₂ [] hl₂ (by omega)
  · simp only [if_neg hq]
    exact reaches_pure hstart rfl none

theorem reaches_rest {pos : Nat} (hpos : pos ≤ input.length) :
    Reaches input (rest input) pos (restText (input.drop pos)) (input.drop pos) := by
  apply reaches_get
  by_cases hend : input.length ≤ pos
  · rw [if_pos hend, restText, if_pos (List.drop_eq_nil_of_le hend)]
    exact reaches_pure hpos rfl _
  · have hne : input.drop pos ≠ [] := fun h => hend (le_of_drop_nil h)
    rw [if_neg hend, restText, if_neg hne]
    have hslice := reaches_slice (Nat.le_of_not_le hend) (Nat.le_refl _) hpos
    rw [List.take_of_length_le (Nat.le_of_eq List.length_drop)] at hslice
    exact hslice.bind_at hpos (reaches_pure hpos rfl _)

-- ========================================================= numbers

/-- Behind `taken`, with digits to come: they are the number, and without
any the position is the start again. -/
theorem pDigits_spec {start pos : Nat} {neg : Bool} {taken : Bytes} (hpos : pos ≤ input.length)
    (hstart : input.drop start = taken ++ input.drop pos)
    (htaken : taken = if neg then [45] else []) (hle : start ≤ pos) :
    let digits := (input.drop pos).takeWhile isDigit
    if digits = [] then Clean (Access.Inside input) (pDigits input start neg) pos none start
    else Reaches input (pDigits input start neg) pos (some (parseSlice (taken ++ digits)))
      ((input.drop pos).dropWhile isDigit) := by
  intro digits
  have hloop := reaches_nextWhile isDigit rfl (input.length + 1) pos hpos (by omega)
  have hsplit : input.drop pos = digits ++ (input.drop pos).dropWhile isDigit :=
    List.takeWhile_append_dropWhile.symm
  have hlen : pos = start + taken.length := by
    have h := congrArg List.length hstart
    rw [List.length_append, List.length_drop, List.length_drop] at h
    omega
  have hsign : taken.length = if neg then 1 else 0 := by
    rw [htaken]
    cases neg with
    | false => rfl
    | true => rfl
  by_cases hd : digits = []
  · rw [if_pos hd]
    obtain ⟨e, hclean, -, he, hleft⟩ := hloop
    rw [hd, List.nil_append] at hsplit
    obtain rfl := pos_eq_of_drop_eq hpos he (hleft.trans hsplit.symm)
    have hback : e = start ∨ (neg ∧ e = start + 1) := by
      cases neg with
      | false => exact .inl (by simpa [hsign] using hlen)
      | true => exact .inr ⟨rfl, by simpa [hsign] using hlen⟩
    refine clean_bind.mpr ⟨(), e, hclean, clean_bind.mpr ⟨e, e, clean_get.mpr ⟨rfl, rfl⟩, ?_⟩⟩
    rw [if_pos hback]
    refine clean_bind.mpr ⟨(), start, ⟨[.moved start], rfl, fun a ha => ?_⟩,
      clean_pure.mpr ⟨rfl, rfl⟩⟩
    rw [List.mem_singleton.mp ha]
    exact Nat.le_trans hle he
  · rw [if_neg hd]
    refine hloop.bind fun e hle' he hleft => ?_
    apply reaches_get
    have hpass : pos < e := by
      have h := congrArg List.length hsplit
      have h' := congrArg List.length hleft
      have hpositive := List.length_pos_iff.mpr hd
      rw [List.length_append, List.length_drop] at h
      rw [List.length_drop] at h'
      omega
    have hgo : ¬(e = start ∨ (neg ∧ e = start + 1)) := by
      cases neg with
      | false =>
          simp only [Bool.false_eq_true, if_false] at hsign
          simp only [Bool.false_eq_true, false_and, or_false]
          omega
      | true =>
          simp only [if_true] at hsign
          simp only [true_and]
          omega
    rw [if_neg hgo]
    have hall : input.drop start
        = (taken ++ digits) ++ (input.drop pos).dropWhile isDigit := by
      rw [List.append_assoc, ← hsplit, hstart]
    have htext := take_of_drop_eq (Nat.le_trans hle hle') he hall hleft
    refine (reaches_slice (Nat.le_trans hle hle') he he).bind_at he ?_
    rw [htext]
    exact reaches_pure he hleft _

theorem parseSlice_digits {digits : Bytes} (hne : digits ≠ [])
    (hall : ∀ b ∈ digits, isDigit b = true) : parseSlice digits = parseInt false digits := by
  cases digits with
  | nil => exact absurd rfl hne
  | cons b bs =>
      have hb : b ≠ 45 := by
        intro h
        have := hall b List.mem_cons_self
        rw [h] at this
        exact absurd this (by decide)
      rw [parseSlice, Sql.peek, if_neg hb]

/-- The number at the beginning of a text without comments before it. -/
def numberAt (s : Bytes) : Option Int64 × Bytes :=
  let neg := Sql.peek s = 45
  let t := if neg then s.tail else s
  if t.takeWhile isDigit = [] then (none, s)
  else (some (parseInt neg (t.takeWhile isDigit)), t.dropWhile isDigit)

theorem pNum_eq (s : Bytes) : Sql.pNum s = numberAt (Sql.skipComments s) := rfl

theorem numberAt_negative (s : Bytes) :
    numberAt (45 :: s) = if s.takeWhile isDigit = [] then (none, 45 :: s)
      else (some (parseInt true (s.takeWhile isDigit)), s.dropWhile isDigit) := by
  simp [numberAt, Sql.peek]

theorem numberAt_positive {s : Bytes} (h : Sql.peek s ≠ 45) :
    numberAt s = if s.takeWhile isDigit = [] then (none, s)
      else (some (parseInt false (s.takeWhile isDigit)), s.dropWhile isDigit) := by
  simp [numberAt, h]

theorem reaches_negative {start : Nat} {s : Bytes} (hs : input.drop start = 45 :: s) :
    Reaches input (next input >>= fun _ => pDigits input start true) start
      (numberAt (45 :: s)).1 (numberAt (45 :: s)).2 := by
  have hlt := lt_of_drop_cons hs
  have hnext : input.drop (start + 1) = s := drop_succ_of_cons hs
  have htaken : input.drop start = [45] ++ input.drop (start + 1) := by
    rw [hs, hnext]
    rfl
  have hspec := @pDigits_spec input start (start + 1) true [45] hlt htaken rfl (Nat.le_succ start)
  rw [hnext] at hspec
  rw [numberAt_negative]
  by_cases hd : s.takeWhile isDigit = []
  · simp only [if_pos hd] at hspec ⊢
    rw [← hs]
    obtain ⟨e, hclean, -, he, heq⟩ := reaches_next hs
    obtain rfl := pos_eq_of_drop_eq hlt he (heq.trans hnext.symm)
    exact ⟨start, clean_bind.mpr ⟨45, _, hclean, hspec⟩, Nat.le_refl _, Nat.le_of_lt hlt, rfl⟩
  · simp only [if_neg hd] at hspec ⊢
    have htake := reaches_next hs
    rw [← hnext] at htake
    exact htake.bind_at hlt hspec

theorem reaches_positive {start : Nat} (hstart : start ≤ input.length)
    (hneg : Sql.peek (input.drop start) ≠ 45) :
    Reaches input (pDigits input start false) start (numberAt (input.drop start)).1
      (numberAt (input.drop start)).2 := by
  have hspec := @pDigits_spec input start start false [] hstart rfl rfl (Nat.le_refl start)
  rw [numberAt_positive hneg]
  by_cases hd : (input.drop start).takeWhile isDigit = []
  · simp only [if_pos hd] at hspec ⊢
    exact ⟨start, hspec, Nat.le_refl _, hstart, rfl⟩
  · simp only [if_neg hd, List.nil_append] at hspec ⊢
    have hall : ∀ b ∈ (input.drop start).takeWhile isDigit, isDigit b = true := by
      have h := List.all_takeWhile (p := isDigit) (l := input.drop start)
      exact List.all_eq_true.mp h
    rw [parseSlice_digits hd hall] at hspec
    exact hspec

theorem reaches_pNum {pos : Nat} (hpos : pos ≤ input.length) :
    Reaches input (pNum input) pos (Sql.pNum (input.drop pos)).1
      (Sql.pNum (input.drop pos)).2 := by
  refine (reaches_skipComments hpos).bind fun start _ hstart hs => ?_
  apply reaches_get
  rw [pNum_eq, ← hs]
  refine (reaches_peek hstart).bind_at hstart ?_
  by_cases hneg : Sql.peek (input.drop start) = 45
  · rw [if_pos hneg]
    cases hd : input.drop start with
    | nil =>
        rw [hd] at hneg
        exact absurd hneg (by decide)
    | cons b s =>
        rw [hd] at hneg
        obtain rfl : b = 45 := hneg
        exact reaches_negative hd
  · rw [if_neg hneg]
    exact reaches_positive hstart hneg

-- ====================================================== refinement

/-- The position at which `s` is what is left. -/
def LeftAt (input : Bytes) (s : Bytes) (pos : Nat) : Prop :=
  pos ≤ input.length ∧ input.drop pos = s

/-- Nothing is asked of the log of the traced parser, and that of the
positions is inside of the input. -/
abbrev Follows (input : Bytes) (p : Traced α) (q : Located α) : Prop :=
  TokenOps.Sim (fun _ => LeftAt input) (fun _ => True) (Access.Inside input) p q

theorem Follows.of_reaches {p : Traced α} {q : Located α}
    (h : ∀ pos, pos ≤ input.length → ∀ a t, erase p (input.drop pos) = .ok (a, t) →
      Reaches input q pos a t) : Follows input p q := by
  refine TokenOps.sim_iff.mpr fun s pos hs a t hrun => ?_
  obtain ⟨hpos, rfl⟩ := hs
  obtain ⟨pos', hclean, -, hlen, ht⟩ := h pos hpos a t hrun.erase_eq
  exact ⟨pos', hclean, hlen, ht⟩

/-- A keyword is read as on what is left. -/
theorem reaches_keyword {kws : List String} {pos : Nat} {b : Bool} {t : Bytes}
    (hpos : pos ≤ input.length)
    (h : erase (traced.keyword kws) (input.drop pos) = .ok (b, t)) :
    Reaches input (pKeyword input kws) pos b t := by
  simp only [erase, traced] at h
  cases hk : Sql.pKeyword kws (input.drop pos) with
  | some u =>
      rw [hk] at h
      obtain ⟨rfl, rfl⟩ := Prod.mk.inj (Except.ok.inj h)
      exact pKeyword_some hpos hk
  | none =>
      rw [hk] at h
      obtain ⟨rfl, rfl⟩ := Prod.mk.inj (Except.ok.inj h)
      exact ⟨pos, pKeyword_none hpos hk, Nat.le_refl _, hpos, rfl⟩

theorem follows_keyword (kws : List String) :
    Follows input (traced.keyword kws) (pKeyword input kws) :=
  Follows.of_reaches fun _ hpos _ _ => reaches_keyword hpos

theorem follows_expect (kw : String) :
    Follows input (traced.expect kw) (pExpect input kw) := by
  refine Follows.of_reaches fun pos hpos b t h => ?_
  rw [Traced.erase_pExpect] at h
  refine (reaches_keyword hpos h).bind fun e _ he ht => ?_
  cases b with
  | true => exact reaches_pure he ht true
  | false => exact (reaches_rest he).bind_at he (reaches_pure he ht false)

/-- A token that always returns. -/
theorem follows_token {f : Bytes → α × Bytes} {log : Bytes → List Event} {q : Located α}
    (h : ∀ {pos}, pos ≤ input.length →
      Reaches input q pos (f (input.drop pos)).1 (f (input.drop pos)).2) :
    Follows input (fun s => .ok (f s, log s)) q := by
  refine Follows.of_reaches fun pos hpos a t hrun => ?_
  have heq : f (input.drop pos) = (a, t) := Except.ok.inj hrun
  have hreach := h hpos
  rw [heq] at hreach
  exact hreach

theorem follows_rest : Follows input traced.rest (rest input) :=
  @follows_token _ input (fun s => (restText s, s)) (fun _ => []) _ reaches_rest

theorem related_positions (input : Bytes) :
    TokenOps.Related (fun _ => LeftAt input) (fun _ => True) (Access.Inside input) traced
      (positions input) where
  keyword kws _ := follows_keyword kws
  expect kw _ := follows_expect kw
  name := follows_token reaches_pMustSym
  num := follows_token reaches_pNum
  str := follows_token reaches_pStr
  noOperand := follows_token fun hpos => reaches_pure hpos rfl ({} : QLNode)
  room _ s pos hs := by
    show s.length ≤ input.length - pos
    rw [← hs.2, List.length_drop]

-- ====================================================== whole runs

/-- From every position the production returns, inside of the input and
not before where it started. -/
def Advances (input : Bytes) (p : Located α) : Prop :=
  ∀ pos, pos ≤ input.length → ∃ a pos', Clean (Access.Inside input) p pos a pos'
    ∧ pos ≤ pos' ∧ pos' ≤ input.length

/-- What is left afterwards is a suffix, so the position has not gone
back. -/
theorem Follows.advances {p : Traced α} {q : Located α} (h : Follows input p q)
    (hp : ∀ s, Leaves s (erase p s)) : Advances input q := by
  intro pos hpos
  obtain ⟨a, t, hrun, hsuffix⟩ := (hp (input.drop pos)).returns
  obtain ⟨pos', hclean, hlen, ht⟩ := TokenOps.sim_iff.mp h _ pos ⟨hpos, rfl⟩ a t
    (clean_of_erase hrun)
  refine ⟨a, pos', hclean, ?_, hlen⟩
  have hle := hsuffix.length_le
  rw [← ht, List.length_drop, List.length_drop] at hle
  omega

/-- The same for a production of the interface and the one of the parser. -/
theorem Follows.advances_of {p : Traced α} {q : Located α} {r : Production α}
    (h : Follows input p q) (he : ∀ s, erase p s = r s) (hr : ∀ s, Leaves s (r s)) :
    Advances input q :=
  h.advances fun s => by
    rw [he]
    exact hr s

/-- Every function of the source that moves the position. -/
structure ProductionsAdvance (input : Bytes) : Prop where
  keyword : ∀ kws, Advances input (pKeyword input kws)
  expect : ∀ kw, Advances input (pExpect input kw)
  mustSym : Advances input (pMustSym input)
  num : Advances input (pNum input)
  str : Advances input (pStr input)
  stmt : Advances input (positions input).pStmt
  createTable : Advances input (positions input).pCreateTable
  type : Advances input (positions input).pType
  createIndex : Advances input (positions input).pCreateIndex
  select : Advances input (positions input).pSelect
  selectExprList : Advances input ((positions input).commaList (positions input).pSelectExpr)
  selectExpr : Advances input (positions input).pSelectExpr
  scan : ∀ node, Advances input ((positions input).pScan node)
  indexBy : ∀ node, Advances input ((positions input).pIndexBy node)
  limit : ∀ node, Advances input ((positions input).pLimit node)
  insert : Advances input (positions input).pInsert
  update : Advances input (positions input).pUpdate
  delete : Advances input (positions input).pDelete
  exprOr : Advances input (positions input).pExprOr
  exprAnd : Advances input (positions input).pExprAnd
  exprCmp : Advances input (positions input).pExprCmp
  exprAdd : Advances input (positions input).pExprAdd
  exprMul : Advances input (positions input).pExprMul
  exprAtom : Advances input (positions input).pAtom

theorem leaves_keyword (kws : List String) (s : Bytes) :
    Leaves s (erase (traced.keyword kws) s) := by
  simp only [erase, traced]
  cases hk : Sql.pKeyword kws s with
  | some t => exact Meets.ok (pKeyword_suffix hk)
  | none => exact Meets.ok (List.suffix_refl s)

theorem leaves_expect (kw : String) (s : Bytes) : Leaves s (erase (traced.expect kw) s) := by
  rw [Traced.erase_pExpect]
  exact leaves_keyword [kw] s

section

open TokenOps

/-- An expression level, with the fuel of what is left. -/
theorem level_advances {f : Nat → Traced QLNode} {g : Nat → Located QLNode}
    {r : Nat → Production QLNode}
    (h : ∀ n n', n ≤ n' → Follows input (f n) (g n')) (he : ∀ n s, erase (f n) s = r n s)
    (hr : ∀ n, LeavesBelow n (r n)) :
    Advances input (Logged.get >>= fun pos => g ((positions input).room pos + 1)) := by
  refine Follows.advances (sim_get (related_positions input) h) fun s => ?_
  rw [erase_bind, erase_get, ok_bind, he]
  exact hr _ s (Nat.lt_succ_self _)

theorem and_opens : ∀ c ∈ [(["and"], QLType.and)], Opens c.1 := by decide +kernel

theorem mulOps_open : ∀ c ∈ mulOps, Opens c.1 := by decide +kernel

theorem exprAnd_advances : Advances input (positions input).pExprAnd := by
  have hT := related_positions input
  refine level_advances (fun n n' hn => sim_exprAnd hT (sim_pExprAtom hT n n' hn))
    (fun n s => ?_) fun n => chain_leaves and_opens (exprCmp_leaves (pExprAtom_leaves n))
  exact Traced.erase_chain (Traced.erase_exprCmp (Traced.erase_pExprAtom n)) s

theorem exprAdd_advances : Advances input (positions input).pExprAdd := by
  have hT := related_positions input
  refine level_advances (fun n n' hn => sim_exprAdd hT (sim_pExprAtom hT n n' hn))
    (fun n s => ?_) fun n => exprAdd_leaves (pExprAtom_leaves n)
  exact Traced.erase_exprAdd (Traced.erase_pExprAtom n) s

theorem exprMul_advances : Advances input (positions input).pExprMul := by
  have hT := related_positions input
  refine level_advances (fun n n' hn => sim_chain hT (sim_pExprAtom hT n n' hn) mulOps
      (by simp [keywords, mulOps]))
    (fun n s => ?_) fun n => chain_leaves mulOps_open (pExprAtom_leaves n)
  exact Traced.erase_chain (Traced.erase_pExprAtom n) s

theorem pAtom_advances : Advances input (positions input).pAtom :=
  level_advances (sim_pExprAtom (related_positions input)) Traced.erase_pExprAtom
    pExprAtom_leaves

theorem productionsAdvance (input : Bytes) : ProductionsAdvance input :=
  have hT := related_positions input
  { keyword := fun kws => (follows_keyword kws).advances (leaves_keyword kws)
    expect := fun kw => (follows_expect kw).advances (leaves_expect kw)
    mustSym := Follows.advances hT.name fun s => Meets.ok (pMustSym_suffix s)
    num := Follows.advances hT.num fun s => Meets.ok (pNum_suffix s)
    str := Follows.advances hT.str fun s => Meets.ok (pStr_suffix s)
    stmt := Follows.advances_of (sim_pStmt hT follows_rest) Traced.erase_pStmt pStmt_leaves
    createTable := Follows.advances_of (sim_pCreateTable hT) Traced.erase_pCreateTable
      pCreateTable_leaves
    type := Follows.advances_of (sim_pType hT) Traced.erase_pType
      fun s => Meets.ok (pType_suffix s)
    createIndex := Follows.advances_of (sim_pCreateIndex hT) Traced.erase_pCreateIndex
      pCreateIndex_leaves
    select := Follows.advances_of (sim_pSelect hT) Traced.erase_pSelect pSelect_leaves
    selectExprList := Follows.advances_of (sim_commaList hT (sim_pSelectExpr hT))
      (Traced.erase_commaList Traced.erase_pSelectExpr) (list_leaves pSelectExpr_leaves)
    selectExpr := Follows.advances_of (sim_pSelectExpr hT) Traced.erase_pSelectExpr
      pSelectExpr_leaves
    scan := fun node => Follows.advances_of (sim_pScan hT node) (Traced.erase_pScan node)
      (pScan_leaves node)
    indexBy := fun node => Follows.advances_of (sim_pIndexBy hT node)
      (Traced.erase_pIndexBy node) (pIndexBy_leaves node)
    limit := fun node => Follows.advances_of (sim_pLimit hT node) (Traced.erase_pLimit node)
      (pLimit_leaves node)
    insert := Follows.advances_of (sim_pInsert hT) Traced.erase_pInsert pInsert_leaves
    update := Follows.advances_of (sim_pUpdate hT) Traced.erase_pUpdate pUpdate_leaves
    delete := Follows.advances_of (sim_pDelete hT) Traced.erase_pDelete pDelete_leaves
    exprOr := Follows.advances_of (sim_pExprOr hT) Traced.erase_pExprOr pExprOr_leaves
    exprCmp := Follows.advances_of (sim_pExprCmp hT) Traced.erase_pExprCmp pExprCmp_leaves
    exprAnd := exprAnd_advances
    exprAdd := exprAdd_advances
    exprMul := exprMul_advances
    exprAtom := pAtom_advances }

end

/-- Nothing but layout stands between the two positions. -/
def OnlyLayout (input : Bytes) (pos pos' : Nat) : Prop :=
  pos ≤ pos' ∧ pos' ≤ input.length ∧ ∃ x, Layout x ∧ x ++ input.drop pos' = input.drop pos

/-- The calls that do not find their opening token. The opening token of a
string is its quote: one that does not end is a different failure. -/
structure FailuresRestore (input : Bytes) : Prop where
  keyword : ∀ kws pos pos', pos ≤ input.length →
    erase (pKeyword input kws) pos = .ok (false, pos') → pos' = pos
  num : ∀ pos pos', pos ≤ input.length →
    erase (pNum input) pos = .ok (none, pos') → OnlyLayout input pos pos'
  str : ∀ pos r pos', pos ≤ input.length → erase (pStr input) pos = .ok (r, pos') →
    ¬(Sql.peek (Sql.skipComments (input.drop pos)) = 39
      ∨ Sql.peek (Sql.skipComments (input.drop pos)) = 34) →
    r = none ∧ OnlyLayout input pos pos'

/-- A run is what it reaches. -/
theorem Reaches.unique {p : Located α} {pos pos' : Nat} {a b : α} {t : Bytes}
    (h : Reaches input p pos a t) (hrun : erase p pos = .ok (b, pos')) :
    b = a ∧ pos ≤ pos' ∧ pos' ≤ input.length ∧ input.drop pos' = t := by
  obtain ⟨e, hclean, hle, hlen, ht⟩ := h
  obtain ⟨rfl, rfl⟩ := Prod.mk.inj (Except.ok.inj (hclean.erase_eq.symm.trans hrun))
  exact ⟨rfl, hle, hlen, ht⟩

theorem failuresRestore (input : Bytes) : FailuresRestore input where
  keyword kws pos pos' hpos hrun := by
    cases hk : Sql.pKeyword kws (input.drop pos) with
    | some t => exact absurd ((pKeyword_some hpos hk).unique hrun).1 (by decide)
    | none =>
        have hclean := (pKeyword_none hpos hk).erase_eq
        exact (Prod.mk.inj (Except.ok.inj (hrun.symm.trans hclean))).2
  num pos pos' hpos hrun := by
    obtain ⟨hnone, hle, hlen, ht⟩ := (reaches_pNum hpos).unique hrun
    have hfail : Sql.pNum (input.drop pos) = (none, input.drop pos') :=
      Prod.ext hnone.symm ht.symm
    obtain ⟨x, hx, heq⟩ := skipComments_layout (input.drop pos)
    exact ⟨hle, hlen, x, hx, by rw [pNum_none hfail, heq]⟩
  str pos r pos' hpos hrun hquote := by
    obtain ⟨hr, hle, hlen, ht⟩ := (reaches_pStr hpos).unique hrun
    simp only [Sql.pStr, if_neg hquote] at hr ht
    obtain ⟨x, hx, heq⟩ := skipComments_layout (input.drop pos)
    exact ⟨hr, hle, hlen, x, hx, by rw [ht, heq]⟩

theorem reaches_parse (input : Bytes) :
    ∃ r t, Reaches input (parse input) 0 r t ∧ Sql.parse input = .ok r := by
  obtain ⟨result, t, hrun, -⟩ := (pStmt_leaves input).returns
  have hstmt : Reaches input (positions input).pStmt 0 result t := by
    have herase : erase (TokenOps.pStmt traced) input = .ok (result, t) := by
      rw [Traced.erase_pStmt]
      exact hrun
    have hsim := TokenOps.sim_pStmt (related_positions input) follows_rest
    obtain ⟨pos, hclean, hlen, ht⟩ := TokenOps.sim_iff.mp hsim input 0 ⟨Nat.zero_le _, rfl⟩
      result t (clean_of_erase herase)
    exact ⟨pos, hclean, Nat.zero_le _, hlen, ht⟩
  rw [Sql.parse, hrun, ok_bind]
  dsimp only
  by_cases hend : Sql.skipWS t = []
  · refine ⟨.ok result, [], ?_, by rw [if_neg (by simp [hend])]; rfl⟩
    refine hstmt.bind fun p₁ _ hl₁ hp₁ => (reaches_skipWS hl₁).bind fun p₂ _ hl₂ hp₂ => ?_
    rw [hp₁, hend] at hp₂
    apply reaches_get
    rw [if_neg (Nat.not_lt.mpr (le_of_drop_nil hp₂))]
    exact reaches_pure hl₂ hp₂ _
  · refine ⟨.error (restText (Sql.skipWS t)), Sql.skipWS t, ?_, by rw [if_pos hend]; rfl⟩
    refine hstmt.bind fun p₁ _ hl₁ hp₁ => (reaches_skipWS hl₁).bind fun p₂ _ hl₂ hp₂ => ?_
    rw [hp₁] at hp₂
    apply reaches_get
    have hlt : p₂ < input.length := by
      refine Nat.lt_of_not_le fun hle => hend ?_
      rw [← hp₂, List.drop_eq_nil_of_le hle]
    rw [if_pos hlt, ← hp₂]
    exact (reaches_rest hl₂).bind_at hl₂ (reaches_pure hl₂ rfl _)

/-- `Parse` terminates on every input and is the parser on what is left;
all it touches is inside of the input; from every position every
production returns at or behind it; and a token that is not found takes
nothing but layout. -/
theorem parser_stays_inside (input : Bytes) :
    (∃ r pos, Clean (Access.Inside input) (parse input) 0 r pos ∧ pos ≤ input.length
      ∧ Sql.parse input = .ok r)
      ∧ ProductionsAdvance input ∧ FailuresRestore input := by
  obtain ⟨r, t, ⟨pos, hclean, -, hlen, -⟩, hparse⟩ := reaches_parse input
  exact ⟨⟨r, pos, hclean, hlen, hparse⟩, productionsAdvance input, failuresRestore input⟩

end Svacara.Sql.Located
