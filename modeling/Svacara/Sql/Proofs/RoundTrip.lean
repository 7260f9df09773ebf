/-
Parsing undoes rendering.

An INSERT as `renderInsert` writes it is a sentence of the grammar for
that statement, and a sentence is parsed as what it is. The derivation
follows the text from token to token: each is passed over as it was
written, since it begins with no blank and opens no comment (`Token`),
and a minus sign is never followed by another one.

# Depth

The rules for operands are indexed by the depth that they may have. Each
expression is read at every depth that is great enough, so the depths of
its operands need not be compared.

# Operands and expressions

An operand is read by the rule for atoms, with its brackets if it has
them, and an expression without brackets by the rule for all levels.
What is not compound is read by both in the same way, and what is
compound is an atom once it is in brackets.
-/
import Svacara.Sql.Render
import Svacara.Sql.Proofs.WellFormed
import Mathlib.Data.Set.Finite.Basic
import Mathlib.Order.Filter.AtTopBot.Basic
import Mathlib.Order.Filter.Finite
import Mathlib.Tactic.IntervalCases

namespace Svacara.Sql

open Grammar Filter

variable {α : Type} {s t : Bytes}

-- ========================================================== tokens

/-- Bytes that begin with no blank, and open no comment whatever follows
them. -/
@[mk_iff] structure Token (w : Bytes) : Prop where
  nonempty : w ≠ []
  no_blank : isWS (peek w) = false
  no_comment : opensComment (w ++ [45]) = false

instance (w : Bytes) : Decidable (Token w) := decidable_of_iff' _ (token_iff w)

/-- A token is passed over as it was written. -/
theorem Token.skip {w : Bytes} (h : Token w) (t : Bytes) : skipComments (w ++ t) = w ++ t := by
  obtain ⟨hne, hblank, hcomment⟩ := h
  match w with
  | [] => exact absurd rfl hne
  | [a] =>
      have ha : a ≠ 45 := by simpa [opensComment] using hcomment
      refine skipComments_of_token (s := [a] ++ t) hblank ?_
      cases t with
      | nil => rfl
      | cons b t => simp [opensComment, ha]
  | a :: b :: w => exact skipComments_of_token hblank hcomment

theorem Token.skipWS {w : Bytes} (h : Token w) (t : Bytes) : skipWS (w ++ t) = w ++ t := by
  rw [← h.skip t, skipWS_skipComments]

/-- The bytes are the keyword, in upper or lower case. -/
@[mk_iff] structure Spells (w : Bytes) (kw : String) : Prop where
  token : Token w
  letters : w.map lower = lit kw

instance (w : Bytes) (kw : String) : Decidable (Spells w kw) :=
  decidable_of_iff' _ (spells_iff w kw)

/-- A word is matched by its own letters. -/
theorem matchWord_text (w t : Bytes) : matchWord (w.map lower) (w ++ t) = some t := by
  induction w with
  | nil => rfl
  | cons b w ih => exact (if_pos rfl).trans ih

/-- A keyword ends where no symbol follows. -/
theorem endsWord_of_peek (kw : String) (h : isSym (peek t) = false) : endsWord kw t = true := by
  rw [endsWord, h, Bool.not_false, Bool.or_true]

/-- The letters of a keyword, and its end. -/
theorem word_of_letters {w : Bytes} {kw : String} (hskip : skipComments (w ++ t) = w ++ t)
    (hw : w.map lower = lit kw) (hends : endsWord kw t = true) : Word [kw] (w ++ t) t := by
  have hmatch : matchWord (lit kw) (skipWS (skipComments (w ++ t))) = some t := by
    rw [skipWS_skipComments, hskip, ← hw, matchWord_text]
  constructor
  · rw [pKeyword, matchWords, hmatch]
    rfl
  · rw [wholeWords, hmatch]
    simp [hends, wholeWords]

/-- A keyword that is written is read. -/
theorem Spells.word {w : Bytes} {kw : String} (h : Spells w kw)
    (hends : endsWord kw t = true) : Word [kw] (w ++ t) t :=
  word_of_letters (h.token.skip t) h.letters hends

-- ======================================================== spelling

/-- Written behind a blank and before another, the first case that matches
is the one with this value. -/
def picks (a : QLType) (w : Bytes) : List (List String × QLType) → Bool
  | ([kw], b) :: cases =>
      if w.map lower = lit kw then b = a
      else clash (lit kw) ((w ++ [32]).map lower) && picks a w cases
  | _ => false

/-- The cases of each level of expressions with two operands. -/
def levels : List (List (List String × QLType)) :=
  [mulOps, addOps, cmpOps, [(["and"], .and)], [(["or"], .or)]]

/-- What the bytes of the written texts are. -/
structure Spelling : Prop where
  blank : lit " " = [32]
  opening : lit "(" = [40]
  closing : lit ")" = [41]
  comma : lit "," = [44]
  comma_blank : lit ", " = [44, 32]
  not_blank : lit "NOT " = lit "NOT" ++ [32]
  blank_opening : lit " (" = [32, 40]
  insert_into : lit "INSERT INTO " = lit "INSERT" ++ 32 :: (lit "INTO" ++ [32])
  closing_values : lit ") VALUES (" = 41 :: 32 :: (lit "VALUES" ++ [32, 40])
  words : ∀ kw ∈ [("NOT", "not"), ("INSERT", "insert"), ("INTO", "into"), ("VALUES", "values")],
    Spells (lit kw.1) kw.2
  not_length : (lit "not").length = 3
  not_symbols : (lit "not").all isSym = true
  first : Clear [["create", "table"], ["create", "index"], ["select"]] [["insert", "into"]]
  operators : ∀ o ∈ operators, Token (lit o.2 ++ [32]) ∧
    ∃ level ∈ levels, picks o.1 (lit o.2) level = true

/-- Checked by computing. -/
theorem spelling : Spelling := by
  constructor <;> decide +kernel

/-- A keyword of one byte that is no symbol. -/
theorem word_mark {kw : String} {b : UInt8} (hkw : lit kw = [b]) (htoken : Token [b])
    (hsym : isSym b = false) (hlower : lower b = b) (t : Bytes) : Word [kw] (b :: t) t := by
  have hends : endsWord kw t = true := by
    rw [endsWord, hkw]
    simp [hsym]
  have hspells : Spells [b] kw := ⟨htoken, by rw [List.map_singleton, hlower, hkw]⟩
  exact hspells.word hends

theorem word_opening (t : Bytes) : Word ["("] (40 :: t) t :=
  word_mark spelling.opening (by decide) rfl rfl t

theorem word_closing (t : Bytes) : Word [")"] (41 :: t) t :=
  word_mark spelling.closing (by decide) rfl rfl t

theorem word_comma (t : Bytes) : Word [","] (44 :: t) t :=
  word_mark spelling.comma (by decide) rfl rfl t

/-- The operator that `picks` finds is the one that is read. -/
theorem first_of_picks {a : QLType} {w : Bytes} (htoken : Token (w ++ [32]))
    {cases : List (List String × QLType)} (h : picks a w cases = true) :
    First cases (w ++ 32 :: t) a (32 :: t) := by
  have happend : w ++ 32 :: t = (w ++ [32]) ++ t := List.append_cons w 32 t
  have hskip : skipComments (w ++ 32 :: t) = w ++ 32 :: t := by
    rw [happend]
    exact htoken.skip t
  fun_induction picks a w cases with
  | case1 kw b cases hkw =>
      obtain rfl := of_decide_eq_true h
      exact .here (word_of_letters hskip hkw (endsWord_of_peek kw rfl))
  | case2 kw b cases hkw ih =>
      obtain ⟨hclash, hpicks⟩ := Bool.and_eq_true_iff.mp h
      refine .there ?_ (ih hpicks)
      have hnone := matchWord_clash (matchWord_text (w ++ [32]) t) hclash
      rw [pKeyword, matchWords, skipWS_skipComments, hskip, happend, hnone]
      rfl
  | case3 => cases h

-- ========================================================== blanks

/-- A blank may stand before the phrase. -/
structure Spaced (R : Phrase α) : Prop where
  space : ∀ {s a t}, R s a t → R (32 :: s) a t

theorem skipComments_space (s : Bytes) : skipComments (32 :: s) = skipComments s :=
  skipComments_blank rfl s

/-- A keyword behind a blank. -/
theorem word_spaced {kws : List String} (h : Word kws s t) : Word kws (32 :: s) t := by
  rw [Word, pKeyword, skipComments_space]
  exact h

/-- The keyword of a table behind a blank. -/
theorem first_spaced {cases : List (List String × α)} {a : α} (h : First cases s a t) :
    First cases (32 :: s) a t := by
  induction h with
  | here hword => exact .here (word_spaced hword)
  | there hnone _ ih =>
      refine .there ?_ ih
      rw [pKeyword, skipComments_space]
      exact hnone

theorem name_spaced : Spaced Name := by
  constructor
  intro s name t h
  rw [Name, skipComments_space]
  exact h

/-- The blank makes no keyword of a name. -/
theorem operandName_spaced : Spaced OperandName := by
  constructor
  intro s name t h
  obtain ⟨hname, hdigit, hnot⟩ := h
  refine ⟨name_spaced.space hname, hdigit, ?_⟩
  rw [pKeyword, skipComments_space]
  exact hnot

theorem number_spaced : Spaced Number := by
  constructor
  intro s i t h
  rw [Number, skipComments_space]
  exact h

theorem str_spaced : Spaced Str := by
  constructor
  intro s str t h
  rw [Str, skipComments_space]
  exact h

/-- The first token of an operand takes the blank. -/
theorem atom_spaced (depth : Nat) : Spaced (Atom depth) := by
  constructor
  intro s e t h
  cases depth with
  | zero => exact h
  | succ depth =>
      cases h with
      | not hword hkid => exact .not (word_spaced hword) hkid
      | group hopen hexpr hclose => exact .group (word_spaced hopen) hexpr hclose
      | number hnum => exact .number (number_spaced.space hnum)
      | str hstr => exact .str (str_spaced.space hstr)
      | ident hname => exact .ident (operandName_spaced.space hname)
      | call hname hopen hargs => exact .call (operandName_spaced.space hname) hopen hargs

/-- So does the first operand of a level. -/
theorem Spaced.chain {ops : List (List String × QLType)} {R : Phrase QLNode} (h : Spaced R) :
    Spaced (Chain ops R) := by
  constructor
  intro s e t hchain
  obtain ⟨left, u, hleft, htail⟩ := hchain
  exact ⟨left, u, h.space hleft, htail⟩

theorem exprCmp_spaced {atom : Phrase QLNode} (h : Spaced atom) : Spaced (ExprCmp atom) := by
  constructor
  intro s e t hexpr
  cases hexpr with
  | one hadd => exact .one (h.chain.chain.space hadd)
  | two hleft hop hright => exact .two (h.chain.chain.space hleft) hop hright

/-- And an expression. -/
theorem expr_spaced : Spaced Expr := by
  constructor
  intro s e t h
  obtain ⟨depth, hexpr⟩ := h
  exact ⟨depth, (exprCmp_spaced (atom_spaced depth)).chain.chain.space hexpr⟩

/-- And the first item of a list. -/
theorem Spaced.items {R : Phrase α} (h : Spaced R) : Spaced (Items R) := by
  constructor
  intro s as t hitems
  cases hitems with
  | last hitem => exact .last (h.space hitem)
  | more hitem hcomma hrest => exact .more (h.space hitem) hcomma hrest

-- ======================================================== literals

/-- Digits are symbols. -/
theorem isSym_of_isDigit {b : UInt8} (h : isDigit b = true) : isSym b = true := by
  rw [isDigit] at h
  simp [isSym, h]

/-- What begins with a symbol is a token. -/
theorem token_of_isSym {w : Bytes} (h : isSym (peek w) = true) : Token w := by
  cases w with
  | nil => cases h
  | cons b w =>
      have hb : isSym b = true := h
      have hblank : isWS b = false := by
        cases hws : isWS b with
        | false => rfl
        | true =>
            simp only [isWS, Bool.or_eq_true, decide_eq_true_eq] at hws
            rcases hws with ((rfl | rfl) | rfl) | rfl <;> cases hb
      have hdash : b ≠ 45 := by
        rintro rfl
        cases hb
      refine ⟨List.cons_ne_nil _ _, hblank, ?_⟩
      cases w with
      | nil => simp [opensComment, hdash]
      | cons c w => simp [opensComment, hdash]

/-- The byte of a digit. -/
theorem digit_of_lt {d : Nat} (h : d < 10) :
    isDigit (48 + d).toUInt8 = true ∧ (48 + d).toUInt8.toNat - 48 = d := by
  interval_cases d <;> decide

/-- A decimal has digits only. -/
theorem isDigit_of_mem_decimal {n : Nat} {b : UInt8} (h : b ∈ decimal n) : isDigit b = true := by
  rw [decimal] at h
  split at h
  · obtain rfl := List.mem_singleton.mp h
    rfl
  · obtain ⟨d, hd, rfl⟩ := List.mem_map.mp h
    exact (digit_of_lt (Nat.digits_lt_base (by decide) (List.mem_reverse.mp hd))).1

/-- And at least one. -/
theorem decimal_ne_nil (n : Nat) : decimal n ≠ [] := by
  rw [decimal]
  split
  · exact List.cons_ne_nil _ _
  · next hn =>
      simpa [Nat.digits_ne_nil_iff_ne_zero] using hn

/-- The digits from the last to the first. -/
theorem numeral_reverse {ds : List Nat} (h : ∀ d ∈ ds, d < 10) :
    numeral (ds.reverse.map fun d => (48 + d).toUInt8) = (Nat.ofDigits 10 ds : Nat) := by
  rw [numeral, List.foldl_map, List.foldl_reverse]
  induction ds with
  | nil => rfl
  | cons d ds ih =>
      have hd := (digit_of_lt (h d List.mem_cons_self)).2
      rw [List.foldr_cons, ih fun d hd => h d (List.mem_cons_of_mem _ hd), hd,
        Nat.ofDigits_cons]
      push_cast
      ring

/-- The value of a decimal is its number. -/
theorem numeral_decimal (n : Nat) : numeral (decimal n) = n := by
  rw [decimal]
  split
  · next hn =>
      rw [hn]
      rfl
  · rw [numeral_reverse fun d hd => Nat.digits_lt_base (by decide) hd, Nat.ofDigits_digits]

/-- A sign is followed by a digit, so it opens no comment. -/
theorem token_renderInt (i : Int64) : Token (renderInt i) := by
  have hdigits := peek_digits (t := []) (decimal_ne_nil i.toInt.natAbs)
    fun b hb => isDigit_of_mem_decimal hb
  rw [List.append_nil] at hdigits
  rw [renderInt]
  split
  · cases hn : decimal i.toInt.natAbs with
    | nil => exact absurd hn (decimal_ne_nil _)
    | cons d ds =>
        rw [hn] at hdigits
        have hd : d ≠ 45 := by
          rintro rfl
          cases hdigits
        exact ⟨List.cons_ne_nil _ _, rfl, by simp [opensComment, hd]⟩
  · exact token_of_isSym (isSym_of_isDigit hdigits)

/-- An integer is read back. -/
theorem number_renderInt (i : Int64) (ht : isDigit (peek t) = false) :
    Number (renderInt i ++ t) i t := by
  refine ⟨i.toInt < 0, decimal i.toInt.natAbs, ?_, decimal_ne_nil _,
    fun b hb => isDigit_of_mem_decimal hb, ht, ?_⟩
  · rw [(token_renderInt i).skip, renderInt]
    simp
  · rw [numeral_decimal, signed]
    split
    · next hneg =>
        have hneg := of_decide_eq_true hneg
        omega
    · next hneg =>
        have hneg := of_decide_eq_false (Bool.not_eq_true _ ▸ hneg)
        omega

/-- By induction on the string, byte by byte. -/
theorem chars_escape (str t : Bytes) : Chars 39 (str.flatMap escape ++ 39 :: t) str t := by
  induction str with
  | nil => exact .close
  | cons b str ih =>
      rw [List.flatMap_cons, escape]
      split
      · exact .escape ih
      · next hb =>
          obtain ⟨hquote, hslash⟩ := not_or.mp hb
          exact .plain hquote hslash ih

/-- A string is read back. -/
theorem str_renderStr (str t : Bytes) : Str (renderStr str ++ t) str t := by
  have htext : renderStr str ++ t = 39 :: (str.flatMap escape ++ 39 :: t) := by
    simp [renderStr]
  refine ⟨39, str.flatMap escape ++ 39 :: t, .inl rfl, ?_, chars_escape str t⟩
  rw [htext]
  exact Token.skip (w := [39]) (by decide) _

-- =========================================================== names

theorem IsName.peek {name : Bytes} (h : IsName name) : isSym (peek name) = true := by
  cases name with
  | nil => exact absurd rfl h.nonempty
  | cons b name => exact List.all_eq_true.mp h.symbols b List.mem_cons_self

/-- A name ends where no symbol follows. -/
theorem name_text {name : Bytes} (h : IsName name) (ht : isSym (peek t) = false) :
    Name (name ++ t) name t :=
  ⟨(token_of_isSym h.peek).skip t, h.nonempty, List.all_eq_true.mp h.symbols, ht⟩

theorem isSym_of_lower {b : UInt8} (h : isSym (lower b) = true) : isSym b = true := by
  rw [lower] at h
  split at h
  · next hb => simp [isSym, hb.1, hb.2]
  · exact h

/-- A keyword that is matched where a name stands is the beginning of the
name. -/
theorem lower_take_of_matchWord {kw name r : Bytes} (hkw : kw.all isSym = true)
    (ht : isSym (peek t) = false) (h : matchWord kw (name ++ t) = some r) :
    (name.take kw.length).map lower = kw := by
  induction kw generalizing name with
  | nil => rfl
  | cons c kw ih =>
      rw [List.all_cons, Bool.and_eq_true] at hkw
      rw [matchWord] at h
      split at h
      · next hc =>
          cases name with
          | nil =>
              have hsym : isSym (Sql.peek t) = true := isSym_of_lower (hc ▸ hkw.1)
              rw [ht] at hsym
              cases hsym
          | cons b name =>
              have hb : lower b = c := hc
              rw [List.length_cons, List.take_succ_cons, List.map_cons, hb, ih hkw.2 h]
      · cases h

/-- A name that does not begin with NOT. -/
theorem operandName_text {name : Bytes} (h : IsIdent name) (ht : isSym (peek t) = false) :
    OperandName (name ++ t) name t := by
  refine ⟨name_text h.toIsName ht, h.no_digit, ?_⟩
  have htoken := token_of_isSym h.toIsName.peek
  cases hmatch : matchWord (lit "not") (name ++ t) with
  | none =>
      rw [pKeyword, matchWords, htoken.skip, htoken.skipWS, hmatch]
      rfl
  | some r =>
      have hlower := lower_take_of_matchWord spelling.not_symbols ht hmatch
      exact absurd hlower (spelling.not_length ▸ h.no_not)

-- =========================================================== lists

/-- Texts with commas between them are read as items with commas between
them. -/
theorem items_commas {R : Phrase α} (hspaced : Spaced R) (text : α → Bytes) {as : List α}
    (hne : as ≠ [])
    (hR : ∀ a ∈ as, ∀ t, isSym (peek t) = false → R (text a ++ t) a t)
    (ht : isSym (peek t) = false) : Items R (commas (as.map text) ++ t) as t := by
  induction as with
  | nil => exact absurd rfl hne
  | cons a as ih =>
      cases as with
      | nil => exact .last (hR a List.mem_cons_self t ht)
      | cons b as =>
          have htext : commas ((a :: b :: as).map text) ++ t =
              text a ++ 44 :: 32 :: (commas ((b :: as).map text) ++ t) := by
            simp [commas, spelling.comma_blank]
          have hrest := ih (List.cons_ne_nil _ _) fun a ha => hR a (List.mem_cons_of_mem _ ha)
          rw [htext]
          exact .more (hR a List.mem_cons_self _ rfl) (word_comma _) (hspaced.items.space hrest)

-- ========================================================== levels

section

variable {ops : List (List String × QLType)} {R atom : Phrase QLNode} {op : QLType}
  {left right e : QLNode} {u v : Bytes}

/-- A level without an operator. -/
theorem chain_one (h : R s e t) : Chain ops R s e t := ⟨e, t, h, .done⟩

/-- A level with one operator. -/
theorem chain_two (hleft : R s left u) (hop : First ops u op v) (hright : R v right t) :
    Chain ops R s { type := op, kids := [left, right] } t :=
  ⟨left, u, hleft, .more hop hright .done⟩

theorem exprAdd_atom (h : atom s e t) : ExprAdd atom s e t := chain_one (chain_one h)

theorem exprOr_cmp (h : ExprCmp atom s e t) : ExprOr atom s e t := chain_one (chain_one h)

/-- An operand through all the levels. -/
theorem exprOr_atom (h : atom s e t) : ExprOr atom s e t := exprOr_cmp (.one (exprAdd_atom h))

/-- An operator of any level between two atoms. -/
theorem exprOr_two {level : List (List String × QLType)} (hlevel : level ∈ levels)
    (hleft : atom s left u) (hop : First level u op v) (hright : atom v right t) :
    ExprOr atom s { type := op, kids := [left, right] } t := by
  simp only [levels, List.mem_cons, List.not_mem_nil, or_false] at hlevel
  rcases hlevel with rfl | rfl | rfl | rfl | rfl
  · exact exprOr_cmp (.one (chain_one (chain_two hleft hop hright)))
  · exact exprOr_cmp (.one (chain_two (chain_one hleft) hop (chain_one hright)))
  · exact exprOr_cmp (.two (exprAdd_atom hleft) hop (exprAdd_atom hright))
  · have hcmp {s e t} (h : atom s e t) : ExprCmp atom s e t := .one (exprAdd_atom h)
    exact chain_one (chain_two (hcmp hleft) hop (hcmp hright))
  · have hand {s e t} (h : atom s e t) : ExprAnd atom s e t := chain_one (.one (exprAdd_atom h))
    exact chain_two (hand hleft) hop (hand hright)

end

-- ===================================================== expressions

/-- As an operand, the expression is read at every depth that is great
enough. -/
def Single (e : QLNode) : Prop :=
  ∀ᶠ depth in atTop, ∀ t, isSym (peek t) = false → Atom depth (operand e ++ t) e t

/-- On its own, the expression is read at every depth that is great
enough. -/
def Whole (e : QLNode) : Prop :=
  ∀ᶠ depth in atTop, ∀ t, isSym (peek t) = false → ExprOr (Atom depth) (render e ++ t) e t

/-- What holds one level down. -/
theorem eventually_of_succ {P : Nat → Prop} (h : ∀ᶠ depth in atTop, P (depth + 1)) :
    ∀ᶠ depth in atTop, P depth := by
  rw [← map_add_atTop_eq_nat 1]
  exact eventually_map.mpr h

/-- No brackets around what is not compound. -/
theorem operand_plain {e : QLNode} (h : e.type.isCompound = false) : operand e = render e := by
  rw [operand, bracketed, h]
  rfl

/-- Brackets around the rest. -/
theorem operand_compound {e : QLNode} (h : e.type.isCompound = true) :
    operand e = 40 :: (render e ++ [41]) := by
  rw [operand, bracketed, h, spelling.opening, spelling.closing]
  rfl

/-- What needs no brackets is read the same on its own. -/
theorem Single.whole {e : QLNode} (hplain : e.type.isCompound = false) (h : Single e) :
    Whole e := by
  refine h.mono fun depth hread t ht => ?_
  rw [← operand_plain hplain]
  exact exprOr_atom (hread t ht)

/-- In its brackets a compound expression is an operand. -/
theorem Whole.single {e : QLNode} (hcompound : e.type.isCompound = true) (h : Whole e) :
    Single e := by
  refine eventually_of_succ (h.mono fun depth hread t ht => ?_)
  have htext : operand e ++ t = 40 :: (render e ++ 41 :: t) := by
    simp [operand_compound hcompound]
  rw [htext]
  exact .group (word_opening _) (hread _ rfl) (word_closing t)

theorem isDigit_of_isSym {b : UInt8} (h : isSym b = false) : isDigit b = false := by
  cases hdigit : isDigit b with
  | false => rfl
  | true =>
      rw [isSym_of_isDigit hdigit] at h
      cases h

/-- Integers, at every depth but 0. -/
theorem single_int (i : Int64) : Single { type := .i64, i64 := i } :=
  eventually_of_succ (.of_forall fun _ _ ht =>
    .number (number_renderInt i (isDigit_of_isSym ht)))

theorem single_str (str : Bytes) : Single { type := .str, str } :=
  eventually_of_succ (.of_forall fun _ t _ => .str (str_renderStr str t))

theorem single_ident {name : Bytes} (h : IsIdent name) : Single { type := .ident, str := name } :=
  eventually_of_succ (.of_forall fun _ _ ht => .ident (operandName_text h ht))

theorem renderAll_eq (es : List QLNode) : renderAll es = es.map render := by
  induction es with
  | nil => rw [renderAll, List.map_nil]
  | cons e es ih => rw [renderAll, ih, List.map_cons]

theorem args_text {kids : List QLNode} {expr : Phrase QLNode} (hspaced : Spaced expr)
    (h : ∀ kid ∈ kids, ∀ t, isSym (peek t) = false → expr (render kid ++ t) kid t) :
    Args expr (commas (kids.map render) ++ 41 :: t) kids t := by
  cases kids with
  | nil => exact .none (word_closing t)
  | cons kid kids =>
      exact .some (items_commas hspaced render (List.cons_ne_nil _ _) h rfl) (word_closing t)

/-- A call is as deep as its arguments. -/
theorem single_call {name : Bytes} {kids : List QLNode} (hname : IsIdent name)
    (hlower : name.map lower = name) (h : ∀ kid ∈ kids, Whole kid) :
    Single { type := .func, str := name, kids } := by
  have hkids : ∀ᶠ depth in atTop, ∀ kid ∈ kids, ∀ t, isSym (peek t) = false →
      ExprOr (Atom depth) (render kid ++ t) kid t :=
    (eventually_all_finite (List.finite_toSet kids)).mpr h
  refine eventually_of_succ (hkids.mono fun depth hread t _ => ?_)
  have htext : operand { type := .func, str := name, kids } ++ t =
      name ++ 40 :: (commas (kids.map render) ++ 41 :: t) := by
    rw [operand_plain rfl, render, renderAll_eq, spelling.opening, spelling.closing]
    simp
  have hargs := args_text (t := t) (exprCmp_spaced (atom_spaced depth)).chain.chain hread
  have hcall : Atom (depth + 1) (name ++ 40 :: (commas (kids.map render) ++ 41 :: t))
      { type := .func, str := name.map lower, kids } t :=
    .call (operandName_text hname rfl) (word_opening _) hargs
  rw [hlower] at hcall
  rw [htext]
  exact hcall

/-- NOT takes an operand. -/
theorem whole_not {kid : QLNode} (h : Single kid) : Whole { type := .not, kids := [kid] } := by
  refine eventually_of_succ (h.mono fun depth hread t ht => ?_)
  have htext : render { type := .not, kids := [kid] } ++ t =
      lit "NOT" ++ 32 :: (operand kid ++ t) := by
    rw [render, ← operand, spelling.not_blank]
    simp
  have hword : Word ["not"] (lit "NOT" ++ 32 :: (operand kid ++ t)) (32 :: (operand kid ++ t)) :=
    (spelling.words ("NOT", "not") (by simp)).word (endsWord_of_peek _ rfl)
  rw [htext]
  exact exprOr_atom (.not hword ((atom_spaced depth).space (hread t ht)))

section

variable {op : QLType} {text : String} (hop : (op, text) ∈ operators)

include hop

/-- The operands with the operator between them. -/
theorem render_binary (left right : QLNode) :
    render { type := op, kids := [left, right] } =
      operand left ++ 32 :: (lit text ++ 32 :: operand right) := by
  have htext : render { type := op, kids := [left, right] } =
      operand left ++ lit " " ++ lit text ++ lit " " ++ operand right := by
    simp only [operators, List.mem_cons, Prod.mk.injEq, List.not_mem_nil, or_false] at hop
    rcases hop with ⟨rfl, rfl⟩ | ⟨rfl, rfl⟩ | ⟨rfl, rfl⟩ | ⟨rfl, rfl⟩ | ⟨rfl, rfl⟩ | ⟨rfl, rfl⟩ |
      ⟨rfl, rfl⟩ | ⟨rfl, rfl⟩ | ⟨rfl, rfl⟩ | ⟨rfl, rfl⟩ | ⟨rfl, rfl⟩ | ⟨rfl, rfl⟩ | ⟨rfl, rfl⟩ |
      ⟨rfl, rfl⟩ <;> rfl
  rw [htext, spelling.blank]
  simp

/-- Both operands at the greater depth. -/
theorem whole_binary {left right : QLNode} (hleft : Single left) (hright : Single right) :
    Whole { type := op, kids := [left, right] } := by
  obtain ⟨htoken, level, hlevel, hpicks⟩ := spelling.operators _ hop
  refine (hleft.and hright).mono fun depth hread t ht => ?_
  obtain ⟨hreadl, hreadr⟩ := hread
  have htext : render { type := op, kids := [left, right] } ++ t =
      operand left ++ 32 :: (lit text ++ 32 :: (operand right ++ t)) := by
    simp [render_binary hop]
  rw [htext]
  apply exprOr_two hlevel (hreadl _ rfl)
  · exact first_spaced (first_of_picks htoken hpicks)
  · exact (atom_spaced depth).space (hreadr t ht)

end

theorem isCompound_of_mem : ∀ o ∈ operators, o.1.isCompound = true := by decide

/-- By induction on the expression, both ways at once. -/
theorem expression_reads {e : QLNode} (h : Expression e) : Single e ∧ Whole e := by
  induction h with
  | int i => exact ⟨single_int i, (single_int i).whole rfl⟩
  | str str => exact ⟨single_str str, (single_str str).whole rfl⟩
  | ident hname => exact ⟨single_ident hname, (single_ident hname).whole rfl⟩
  | call hname hlower _ ih =>
      have hsingle := single_call hname hlower fun kid hkid => (ih kid hkid).2
      exact ⟨hsingle, hsingle.whole rfl⟩
  | not _ ih =>
      have hwhole := whole_not ih.1
      exact ⟨hwhole.single rfl, hwhole⟩
  | binary hop _ _ ihl ihr =>
      have hwhole := whole_binary hop ihl.1 ihr.1
      exact ⟨hwhole.single (isCompound_of_mem _ hop), hwhole⟩

theorem expr_text {e : QLNode} (h : Expression e) (ht : isSym (peek t) = false) :
    Expr (render e ++ t) e t := by
  obtain ⟨depth, hread⟩ := (expression_reads h).2.exists
  exact ⟨depth, hread t ht⟩

-- ====================================================== statements

/-- The two words, and no statement before them. -/
theorem first_insert (t : Bytes) :
    First stmtKinds (lit "INSERT" ++ 32 :: (lit "INTO" ++ 32 :: t)) .insert (32 :: t) := by
  have hinsert := spelling.words ("INSERT", "insert") (by simp)
  have hinto := spelling.words ("INTO", "into") (by simp)
  have hfirst : matchWord (lit "insert") (lit "INSERT" ++ 32 :: (lit "INTO" ++ 32 :: t)) =
      some (32 :: (lit "INTO" ++ 32 :: t)) := by
    rw [← hinsert.letters, matchWord_text]
  have hblank : skipWS (32 :: (lit "INTO" ++ 32 :: t)) = lit "INTO" ++ 32 :: t :=
    hinto.token.skipWS _
  have hsecond : matchWord (lit "into") (lit "INTO" ++ 32 :: t) = some (32 :: t) := by
    rw [← hinto.letters, matchWord_text]
  have hword : Word ["insert", "into"] (lit "INSERT" ++ 32 :: (lit "INTO" ++ 32 :: t))
      (32 :: t) := by
    constructor
    · rw [pKeyword, hinsert.token.skip, matchWords, hinsert.token.skipWS, hfirst,
        Option.bind_some, matchWords, hblank, hsecond]
      rfl
    · rw [wholeWords, hinsert.token.skip, hinsert.token.skipWS, hfirst]
      simp only [wholeWords, hblank, hsecond, Bool.and_true]
      rw [endsWord_of_peek _ rfl, endsWord_of_peek _ rfl]
      rfl
  have hnone := declines_of_word spelling.first hword (by simp)
  exact .there (hnone _ (by simp)) (.there (hnone _ (by simp)) (.there (hnone _ (by simp))
    (.here hword)))

/-- Token by token, as the rule for INSERT has them. -/
theorem insert_text {stmt : QLInsert} (h : Renderable stmt) :
    Insert (32 :: (stmt.table ++ 32 :: 40 :: (commas stmt.names ++ 41 :: 32 :: (lit "VALUES" ++
      32 :: 40 :: (commas (stmt.values.map render) ++ [41]))))) stmt [] := by
  have hnames := items_commas name_spaced id h.named
    (fun name hname t ht => name_text (h.names name hname) ht) (t := 41 :: 32 :: (lit "VALUES" ++
      32 :: 40 :: (commas (stmt.values.map render) ++ [41]))) rfl
  rw [List.map_id] at hnames
  have hvalues := items_commas expr_spaced render h.valued
    (fun e he t ht => expr_text (h.values e he) ht) (t := [41]) rfl
  have hword := (spelling.words ("VALUES", "values") (by simp)).word
    (t := 32 :: 40 :: (commas (stmt.values.map render) ++ [41])) (endsWord_of_peek _ rfl)
  refine ⟨stmt.table, stmt.names, stmt.values, _, _, _, _, _,
    name_spaced.space (name_text h.table rfl), ?_, word_spaced hword,
    word_spaced (word_opening _), hvalues, word_closing [], rfl⟩
  exact .given (word_spaced (word_opening _)) ⟨_, hnames, word_closing _⟩

/-- A statement that is written as text is parsed as the statement that
it was. -/
theorem parse_renderInsert (stmt : QLInsert) (h : Renderable stmt) :
    parse (renderInsert stmt) = .ok (.ok (.insert stmt)) := by
  have htext : renderInsert stmt =
      lit "INSERT" ++ 32 :: (lit "INTO" ++ 32 :: (stmt.table ++ 32 :: 40 :: (commas stmt.names ++
        41 :: 32 :: (lit "VALUES" ++ 32 :: 40 :: (commas (stmt.values.map render) ++ [41]))))) := by
    simp [renderInsert, spelling.insert_into, spelling.blank_opening, spelling.closing_values,
      spelling.closing]
  rw [htext]
  exact parse_of_sentence ⟨[], .insert (first_insert _) (insert_text h), rfl⟩

/-- A statement with operators inside operators, a call, a string of a
quote and a backslash, and the smallest integer. -/
def sampleInsert : QLInsert where
  table := lit "t"
  names := [lit "a", lit "b"]
  values := [
    { type := .and, kids := [
      { type := .not, kids := [{ type := .ident, str := lit "x" }] },
      { type := .like, kids := [
        { type := .func, str := lit "f", kids := [
          { type := .i64, i64 := -1 },
          { type := .sub, kids := [
            { type := .ident, str := lit "x" },
            { type := .i64, i64 := -2 }] }] },
        { type := .str, str := [39, 92] }] }] },
    { type := .i64, i64 := Int64.minValue }]

theorem parse_renderInsert_sample :
    Renderable sampleInsert
      ∧ renderInsert sampleInsert = lit ("INSERT INTO t (a, b) VALUES " ++
        "((NOT x) AND (f(-1, x - -2) LIKE '\\'\\\\'), -9223372036854775808)")
      ∧ parse (renderInsert sampleInsert) = .ok (.ok (.insert sampleInsert)) := by
  have hx : IsIdent (lit "x") := by decide +kernel
  have hf : IsIdent (lit "f") ∧ (lit "f").map lower = lit "f" := by decide +kernel
  have hsub := Expression.binary (show (QLType.sub, "-") ∈ operators by decide) (.ident hx)
    (.int (-2))
  have hcall := Expression.call hf.1 hf.2 (List.forall_mem_cons.mpr
    ⟨.int (-1), List.forall_mem_singleton.mpr hsub⟩)
  have hlike := Expression.binary (show (QLType.like, "LIKE") ∈ operators by decide) hcall
    (.str [39, 92])
  have hand := Expression.binary (show (QLType.and, "AND") ∈ operators by decide)
    (.not (.ident hx)) hlike
  have hsample : Renderable sampleInsert := {
    table := by decide +kernel
    named := List.cons_ne_nil _ _
    names := by decide +kernel
    valued := List.cons_ne_nil _ _
    values := List.forall_mem_cons.mpr ⟨hand, List.forall_mem_singleton.mpr (.int _)⟩ }
  exact ⟨hsample, by decide +kernel, parse_renderInsert sampleInsert hsample⟩

end Svacara.Sql
