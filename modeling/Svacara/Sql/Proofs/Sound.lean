/-
What is read soundly is a phrase of the grammar.

A sequence is read soundly if its parts are (`clean_bind`), so each
production's lemma puts together what those of its parts give; where the
parser looks for a keyword and does not find it, that is dropped, since
the grammar does not ask. The tokens come first, as equivalences that the
converse direction uses as well.
-/
import Svacara.Sql.Proofs.Tokens

namespace Svacara.Sql.Traced

open Logged Grammar

variable {α β : Type} {s t : Bytes}

-- ======================================================= sequences

/-- One run is known, so it is the one that reads. -/
theorem reads_iff {p : Traced α} {r : α × Bytes} {log : List Event} (h : p s = .ok (r, log))
    {a : α} : Reads p s a t ↔ r = (a, t) ∧ ∀ e ∈ log, e.Sound := by
  constructor
  · intro hreads
    obtain ⟨log', hrun, hlog⟩ := hreads
    obtain ⟨rfl, rfl⟩ := Prod.mk.inj (Except.ok.inj (h.symm.trans hrun))
    exact ⟨rfl, hlog⟩
  · intro hrun
    obtain ⟨rfl, hlog⟩ := hrun
    exact ⟨log, h, hlog⟩

/-- A sequence is read part by part. -/
theorem reads_bind {p : Traced β} {f : β → Traced α} {a : α} :
    Reads (p >>= f) s a t ↔ ∃ b u, Reads p s b u ∧ Reads (f b) u a t := clean_bind

@[simp] theorem reads_pure {a b : α} :
    Reads (pure a : Traced α) s b t ↔ b = a ∧ t = s := clean_pure

theorem reads_done {a : α} : Reads (pure a : Traced α) s a s := reads_pure.mpr ⟨rfl, rfl⟩

/-- The last part of a sequence, which only puts the value together. -/
theorem reads_map {p : Traced β} {f : β → α} {a : α} :
    Reads (p >>= fun b => pure (f b)) s a t ↔ ∃ b, Reads p s b t ∧ a = f b := by
  simp [reads_bind]

@[simp] theorem reads_fail {f : Fault} {a : α} :
    Reads (fail f : Traced α) s a t ↔ False := clean_fail

/-- Looking at what is left reads nothing. -/
theorem reads_get_bind {f : Bytes → Traced α} {a : α} :
    Reads (Logged.get >>= f) s a t ↔ Reads (f s) s a t := by
  rw [reads_bind]
  constructor
  · intro h
    obtain ⟨u, v, hget, hf⟩ := h
    obtain ⟨rfl, rfl⟩ := clean_get.mp hget
    exact hf
  · intro h
    exact ⟨s, s, clean_get.mpr ⟨rfl, rfl⟩, h⟩

-- ========================================================== tokens

/-- A keyword is there as a whole word, or it is not there. -/
theorem reads_pKeyword {kws : List String} {found : Bool} :
    Reads (traced.keyword kws) s found t ↔
      (found = true ∧ Word kws s t) ∨ (found = false ∧ Sql.pKeyword kws s = none ∧ t = s) := by
  cases hkw : Sql.pKeyword kws s with
  | none =>
      have hrun : traced.keyword kws s = .ok ((false, s), []) := by simp only [traced, hkw]
      rw [reads_iff hrun]
      constructor
      · intro h
        obtain ⟨rfl, rfl⟩ := Prod.mk.inj h.1
        exact .inr ⟨rfl, rfl, rfl⟩
      · intro h
        rcases h with ⟨-, hword, -⟩ | ⟨rfl, -, rfl⟩
        · rw [hkw] at hword
          cases hword
        · exact ⟨rfl, by simp⟩
  | some u =>
      have hrun : traced.keyword kws s = .ok ((true, u), [.keyword kws s]) := by
        simp only [traced, hkw]
      rw [reads_iff hrun, List.forall_mem_singleton]
      constructor
      · intro h
        obtain ⟨rfl, rfl⟩ := Prod.mk.inj h.1
        exact .inl ⟨rfl, hkw, h.2⟩
      · intro h
        rcases h with ⟨rfl, hword, hwhole⟩ | ⟨-, hnone, -⟩
        · rw [hkw] at hword
          obtain rfl := Option.some.inj hword
          exact ⟨rfl, hwhole⟩
        · cases hnone

theorem reads_pKeyword_bind {kws : List String} {f : Bool → Traced α} {a : α} :
    Reads (traced.keyword kws >>= f) s a t ↔
      (∃ u, Word kws s u ∧ Reads (f true) u a t) ∨
        (Sql.pKeyword kws s = none ∧ Reads (f false) s a t) := by
  rw [reads_bind]
  constructor
  · intro h
    obtain ⟨found, u, hkw, hf⟩ := h
    rcases reads_pKeyword.mp hkw with ⟨rfl, hword⟩ | ⟨rfl, hnone, rfl⟩
    · exact .inl ⟨u, hword, hf⟩
    · exact .inr ⟨hnone, hf⟩
  · intro h
    rcases h with ⟨u, hword, hf⟩ | ⟨hnone, hf⟩
    · exact ⟨true, u, reads_pKeyword.mpr (.inl ⟨rfl, hword⟩), hf⟩
    · exact ⟨false, s, reads_pKeyword.mpr (.inr ⟨rfl, hnone, rfl⟩), hf⟩

/-- Soundly, what must be there is there. -/
theorem reads_pExpect {kw : String} {found : Bool} :
    Reads (traced.expect kw) s found t ↔ found = true ∧ Word [kw] s t := by
  cases hkw : Sql.pKeyword [kw] s with
  | none =>
      have hrun : traced.expect kw s = .ok ((false, s), [.expected kw s]) := by
        simp only [traced, hkw]
      simp [reads_iff hrun, Word, hkw, Event.Sound]
  | some u =>
      have hrun : traced.expect kw s = .ok ((true, u), [.expected kw s, .keyword [kw] s]) := by
        simp only [traced, hkw]
      rw [reads_iff hrun]
      constructor
      · intro h
        obtain ⟨rfl, rfl⟩ := Prod.mk.inj h.1
        exact ⟨rfl, hkw, h.2 (.keyword [kw] s) (by simp)⟩
      · intro h
        obtain ⟨rfl, hword, hwhole⟩ := h
        rw [hkw] at hword
        obtain rfl := Option.some.inj hword
        refine ⟨rfl, List.forall_mem_cons.mpr ⟨?_, List.forall_mem_singleton.mpr hwhole⟩⟩
        rw [Event.Sound, hkw]
        rfl

theorem reads_pExpect_bind {kw : String} {f : Bool → Traced α} {a : α} :
    Reads (traced.expect kw >>= f) s a t ↔ ∃ u, Word [kw] s u ∧ Reads (f true) u a t := by
  simp only [reads_bind, reads_pExpect]
  constructor
  · intro h
    obtain ⟨_, u, ⟨rfl, hword⟩, hf⟩ := h
    exact ⟨u, hword, hf⟩
  · intro h
    obtain ⟨u, hword, hf⟩ := h
    exact ⟨true, u, ⟨rfl, hword⟩, hf⟩

theorem reads_expect {kw : String} {x : Unit} :
    Reads (traced.expected kw) s x t ↔ Word [kw] s t := by
  rw [TokenOps.expected, reads_pExpect_bind]
  simp

/-- A name that is not empty. -/
theorem reads_pMustSym {name : Bytes} : Reads traced.name s name t ↔ Name s name t := by
  have hrun : traced.name s = .ok (Sql.pMustSym s, [.name s]) := rfl
  rw [reads_iff hrun, name_iff, List.forall_mem_singleton]
  constructor
  · intro h
    obtain ⟨hsym, hne⟩ := h
    exact ⟨hsym, fun hnil => hne (by rw [hsym, hnil])⟩
  · intro h
    obtain ⟨hsym, hne⟩ := h
    exact ⟨hsym, fun hnil => hne (by rw [hsym] at hnil; exact hnil)⟩

/-- A number with the value it shows. -/
theorem reads_pNum_some {i : Int64} : Reads traced.num s (some i) t ↔ Number s i t := by
  have hrun : traced.num s = .ok (Sql.pNum s, [.number s]) := rfl
  rw [reads_iff hrun, number_iff, List.forall_mem_singleton]
  constructor
  · intro h
    obtain ⟨hnum, hshown⟩ := h
    exact ⟨hnum, hshown i (by rw [hnum]; rfl)⟩
  · intro h
    obtain ⟨hnum, hi⟩ := h
    refine ⟨hnum, fun n hn => ?_⟩
    rw [hnum] at hn
    obtain rfl := Option.some.inj hn
    exact hi

/-- That there is no number is no fault. -/
theorem reads_pNum_none : Reads traced.num s none t ↔ Sql.pNum s = (none, t) := by
  have hrun : traced.num s = .ok (Sql.pNum s, [.number s]) := rfl
  rw [reads_iff hrun, List.forall_mem_singleton]
  constructor
  · exact And.left
  · intro hnum
    refine ⟨hnum, fun n hn => ?_⟩
    rw [hnum] at hn
    cases hn

/-- Strings are always read soundly. -/
theorem reads_pStr {str : Option Bytes} : Reads traced.str s str t ↔ Sql.pStr s = (str, t) := by
  have hrun : traced.str s = .ok (Sql.pStr s, []) := rfl
  simp [reads_iff hrun]

/-- The first keyword of a table that is there, or none. -/
theorem reads_firstKeyword {cases : List (List String × α)} {found : Option α} :
    Reads (traced.firstKeyword cases) s found t ↔
      (∃ a, found = some a ∧ First cases s a t) ∨
        (found = none ∧ Sql.firstKeyword cases s = none ∧ t = s) := by
  induction cases with
  | nil =>
      rw [TokenOps.firstKeyword, reads_pure]
      constructor
      · intro h
        exact .inr ⟨h.1, rfl, h.2⟩
      · intro h
        rcases h with ⟨a, -, hfirst⟩ | ⟨hnone, -, hst⟩
        · cases hfirst
        · exact ⟨hnone, hst⟩
  | cons c cases ih =>
      obtain ⟨kws, b⟩ := c
      rw [TokenOps.firstKeyword, reads_pKeyword_bind, Sql.firstKeyword]
      simp only [if_true, Bool.false_eq_true, if_false, reads_pure, ih]
      constructor
      · intro h
        rcases h with ⟨u, hword, rfl, rfl⟩ | ⟨hnone, ⟨a, rfl, hfirst⟩ | ⟨rfl, hrest, rfl⟩⟩
        · exact .inl ⟨b, rfl, .here hword⟩
        · exact .inl ⟨a, rfl, .there hnone hfirst⟩
        · exact .inr ⟨rfl, by rw [hnone]; exact hrest, rfl⟩
      · intro h
        rcases h with ⟨a, rfl, hfirst⟩ | ⟨rfl, hrest, rfl⟩
        · cases hfirst with
          | here hword => exact .inl ⟨t, hword, rfl, rfl⟩
          | there hnone hfirst => exact .inr ⟨hnone, .inl ⟨a, rfl, hfirst⟩⟩
        · cases hkw : Sql.pKeyword kws t with
          | some u => rw [hkw] at hrest; cases hrest
          | none =>
              rw [hkw] at hrest
              exact .inr ⟨rfl, .inr ⟨rfl, hrest, rfl⟩⟩

theorem reads_firstKeyword_bind {cases : List (List String × β)} {f : Option β → Traced α}
    {a : α} :
    Reads (traced.firstKeyword cases >>= f) s a t ↔
      (∃ b u, First cases s b u ∧ Reads (f (some b)) u a t) ∨
        (Sql.firstKeyword cases s = none ∧ Reads (f none) s a t) := by
  simp only [reads_bind, reads_firstKeyword]
  constructor
  · intro h
    obtain ⟨_, u, ⟨b, rfl, hfirst⟩ | ⟨rfl, hnone, rfl⟩, hf⟩ := h
    · exact .inl ⟨b, u, hfirst, hf⟩
    · exact .inr ⟨hnone, hf⟩
  · intro h
    rcases h with ⟨b, u, hfirst, hf⟩ | ⟨hnone, hf⟩
    · exact ⟨some b, u, .inl ⟨b, rfl, hfirst⟩, hf⟩
    · exact ⟨none, s, .inr ⟨rfl, hnone, rfl⟩, hf⟩

-- ===================================================== combinators

/-- A clause, or its default. -/
theorem sound_ifKeyword {kws : List String} {p : Traced α} {R : Phrase α} {a b : α}
    (hp : ∀ {s b t}, Reads p s b t → R s b t) (h : Reads (traced.ifKeyword kws p a) s b t) :
    Optional kws R a s b t := by
  rcases reads_pKeyword_bind.mp h with ⟨u, hword, hread⟩ | ⟨-, hread⟩
  · exact .given hword (hp hread)
  · obtain ⟨rfl, rfl⟩ := reads_pure.mp hread
    exact .absent

/-- A clause that is not left out. -/
theorem sound_ifExpected {kw : String} {p : Traced α} {R : Phrase α} {a b : α}
    (hp : ∀ {s b t}, Reads p s b t → R s b t) (h : Reads (traced.ifExpected kw p a) s b t) :
    ∃ u, Word [kw] s u ∧ R u b t := by
  obtain ⟨u, hword, hread⟩ := reads_pExpect_bind.mp h
  exact ⟨u, hword, hp hread⟩

/-- By induction on the fuel: items with commas between them. -/
theorem sound_sepBy {item : Traced α} {R : Phrase α} {as : List α} {n : Nat}
    (hitem : ∀ {s a t}, Reads item s a t → R s a t) (h : Reads (traced.sepBy item n) s as t) :
    Items R s as t := by
  induction n generalizing s as with
  | zero => exact (reads_fail.mp h).elim
  | succ n ih =>
      obtain ⟨a, u, hread, h⟩ := reads_bind.mp h
      rcases reads_pKeyword_bind.mp h with ⟨v, hcomma, h⟩ | ⟨-, h⟩
      · obtain ⟨rest, hrest, rfl⟩ := reads_map.mp h
        exact .more (hitem hread) hcomma (ih hrest)
      · obtain ⟨rfl, rfl⟩ := reads_pure.mp h
        exact .last (hitem hread)

theorem sound_commaList {item : Traced α} {R : Phrase α} {as : List α}
    (hitem : ∀ {s a t}, Reads item s a t → R s a t) (h : Reads (traced.commaList item) s as t) :
    Items R s as t :=
  sound_sepBy hitem (reads_get_bind.mp h)

section

variable {ops : List (List String × QLType)} {operand : Traced QLNode} {R : Phrase QLNode}
  (hoperand : ∀ {s e t}, Reads operand s e t → R s e t)

include hoperand

/-- By induction on the fuel: operators with their right sides. -/
theorem sound_chainLoop {n : Nat} {left e : QLNode}
    (h : Reads (traced.chainLoop ops operand n left) s e t) : ChainTail ops R left s e t := by
  induction n generalizing s left with
  | zero => exact (reads_fail.mp h).elim
  | succ n ih =>
      rcases reads_firstKeyword_bind.mp h with ⟨op, u, hop, h⟩ | ⟨-, h⟩
      · obtain ⟨right, v, hright, h⟩ := reads_bind.mp h
        exact .more hop (hoperand hright) (ih h)
      · obtain ⟨rfl, rfl⟩ := reads_pure.mp h
        exact .done

/-- A left side with the rest of its level. -/
theorem sound_chain {e : QLNode} (h : Reads (traced.chain ops operand) s e t) :
    Chain ops R s e t := by
  obtain ⟨left, u, hleft, h⟩ := reads_bind.mp h
  exact ⟨left, u, hoperand hleft, sound_chainLoop hoperand (reads_get_bind.mp h)⟩

end

-- ===================================================== expressions

section

variable {atom : Traced QLNode} {R : Phrase QLNode} {e : QLNode}
  (hatom : ∀ {s e t}, Reads atom s e t → R s e t)

include hatom

/-- Products inside of sums. -/
theorem sound_exprAdd (h : Reads (traced.exprAdd atom) s e t) : ExprAdd R s e t :=
  sound_chain (sound_chain hatom) h

/-- One side, or two with a comparison. -/
theorem sound_exprCmp (h : Reads (traced.exprCmp atom) s e t) : ExprCmp R s e t := by
  obtain ⟨left, u, hleft, h⟩ := reads_bind.mp h
  rcases reads_firstKeyword_bind.mp h with ⟨op, v, hop, h⟩ | ⟨-, h⟩
  · obtain ⟨right, hright, rfl⟩ := reads_map.mp h
    exact .two (sound_exprAdd hatom hleft) hop (sound_exprAdd hatom hright)
  · obtain ⟨rfl, rfl⟩ := reads_pure.mp h
    exact .one (sound_exprAdd hatom hleft)

theorem sound_exprOr (h : Reads (traced.exprOr atom) s e t) : ExprOr R s e t :=
  sound_chain (sound_chain (sound_exprCmp hatom)) h

/-- A closing bracket at once, or behind the arguments. -/
theorem sound_pArgs {kids : List QLNode} (h : Reads (traced.pArgs atom) s kids t) :
    Args R s kids t := by
  rcases reads_pKeyword_bind.mp h with ⟨u, hclose, h⟩ | ⟨-, h⟩
  · obtain ⟨rfl, rfl⟩ := reads_pure.mp h
    exact .none hclose
  · obtain ⟨kids', u, hkids, h⟩ := reads_bind.mp h
    obtain ⟨_, hclose, rfl⟩ := reads_map.mp h
    exact .some (sound_commaList hatom hkids) (reads_expect.mp hclose)

/-- A call if there is a bracket, else a name. -/
theorem sound_pNamed {inner : Phrase QLNode} {name u : Bytes} (hname : OperandName s name u)
    (h : Reads (traced.pNamed atom name) u e t) : Operand inner R s e t := by
  rcases reads_pKeyword_bind.mp h with ⟨v, hopen, h⟩ | ⟨-, h⟩
  · obtain ⟨kids, hkids, rfl⟩ := reads_map.mp h
    exact .call hname hopen (sound_pArgs hatom hkids)
  · obtain ⟨rfl, rfl⟩ := reads_pure.mp h
    exact .ident hname

/-- After a number and a string have been looked for, the text is still
at its beginning. -/
theorem sound_pOperand {inner : Phrase QLNode} (hnot : Sql.pKeyword ["not"] s = none)
    (h : Reads (traced.pOperand atom) s e t) : Operand inner R s e t := by
  obtain ⟨num, u, hnum, h⟩ := reads_bind.mp h
  cases num with
  | some i =>
      obtain ⟨rfl, rfl⟩ := reads_pure.mp h
      exact .number (reads_pNum_some.mp hnum)
  | none =>
      have hnone := reads_pNum_none.mp hnum
      obtain rfl := pNum_none hnone
      obtain ⟨str, v, hstr, h⟩ := reads_bind.mp h
      cases str with
      | some str =>
          obtain ⟨rfl, rfl⟩ := reads_pure.mp h
          have hphrase := str_iff.mpr (reads_pStr.mp hstr)
          rw [Str, skipComments_idem] at hphrase
          exact .str hphrase
      | none =>
          obtain ⟨name, w, hname, h⟩ := reads_bind.mp h
          have hphrase := reads_pMustSym.mp hname
          have hsame : Name s name w := by
            rcases pStr_none (reads_pStr.mp hstr) with rfl | rfl
            · rw [Name, skipComments_idem, skipComments_idem] at hphrase
              exact hphrase
            · -- an unfinished string has used up the input
              obtain ⟨hnil, hne, -⟩ := hphrase
              exact absurd (List.append_eq_nil_iff.mp hnil.symm).1 hne
          rw [if_neg hsame.2.1] at h
          refine sound_pNamed hatom ⟨hsame, ?_, hnot⟩ h
          have hdigit := isDigit_peek_of_pNum hnone
          rw [hsame.1] at hdigit
          obtain ⟨b, rest, rfl⟩ := List.exists_cons_of_ne_nil hsame.2.1
          exact hdigit

end

/-- By induction on the depth that the parser has. -/
theorem sound_pExprAtom {n : Nat} {e : QLNode} (h : Reads (traced.pExprAtom n) s e t) :
    Atom n s e t := by
  induction n generalizing s e t with
  | zero => exact (reads_fail.mp h).elim
  | succ n ih =>
      rcases reads_pKeyword_bind.mp h with ⟨u, hword, h⟩ | ⟨hnot, h⟩
      · obtain ⟨kid, hkid, rfl⟩ := reads_map.mp h
        exact .not hword (ih hkid)
      rcases reads_pKeyword_bind.mp h with ⟨u, hopen, h⟩ | ⟨-, h⟩
      · obtain ⟨e', v, hexpr, h⟩ := reads_bind.mp h
        obtain ⟨_, hclose, rfl⟩ := reads_map.mp h
        exact .group hopen (sound_exprOr ih hexpr) (reads_expect.mp hclose)
      · exact sound_pOperand (sound_exprOr ih) hnot h

theorem sound_pExprOr {e : QLNode} (h : Reads traced.pExprOr s e t) : Expr s e t :=
  ⟨_, sound_exprOr sound_pExprAtom (reads_get_bind.mp h)⟩

theorem sound_pExprCmp {e : QLNode} (h : Reads traced.pExprCmp s e t) : Key s e t :=
  ⟨_, sound_exprCmp sound_pExprAtom (reads_get_bind.mp h)⟩

-- ====================================================== statements

theorem sound_pType {type : QLType} (h : Reads traced.pType s type t) : ColumnType s type t := by
  rcases reads_firstKeyword_bind.mp h with ⟨type', u, hfirst, h⟩ | ⟨-, h⟩
  · obtain ⟨rfl, rfl⟩ := reads_pure.mp h
    exact .given hfirst
  · obtain ⟨rfl, rfl⟩ := reads_pure.mp h
    exact .absent

theorem sound_pNames {names : List Bytes} (h : Reads traced.pNames s names t) :
    Names s names t := by
  obtain ⟨names', u, hnames, h⟩ := reads_bind.mp h
  obtain ⟨_, hclose, rfl⟩ := reads_map.mp h
  exact ⟨u, sound_commaList reads_pMustSym.mp hnames, reads_expect.mp hclose⟩

/-- Where there is no key, a name and a type. -/
theorem sound_pColumn {stmt stmt' : QLCreateTable} (h : Reads (traced.pColumn stmt) s stmt' t) :
    Column stmt s stmt' t := by
  rcases reads_pKeyword_bind.mp h with ⟨u, hkey, h⟩ | ⟨hnone, h⟩
  · obtain ⟨_, v, hopen, h⟩ := reads_bind.mp h
    obtain ⟨keys, hkeys, rfl⟩ := reads_map.mp h
    exact .key hkey (reads_expect.mp hopen) (sound_pNames hkeys)
  · obtain ⟨name, u, hname, h⟩ := reads_bind.mp h
    obtain ⟨type, htype, rfl⟩ := reads_map.mp h
    exact .column hnone (reads_pMustSym.mp hname) (sound_pType htype)

/-- By induction on the fuel. -/
theorem sound_columnLoop {n : Nat} {stmt stmt' : QLCreateTable}
    (h : Reads (traced.columnLoop n stmt) s stmt' t) : Columns stmt s stmt' t := by
  induction n generalizing s stmt with
  | zero => exact (reads_fail.mp h).elim
  | succ n ih =>
      obtain ⟨mid, u, hcolumn, h⟩ := reads_bind.mp h
      rcases reads_pKeyword_bind.mp h with ⟨v, hcomma, h⟩ | ⟨-, h⟩
      · exact .more (sound_pColumn hcolumn) hcomma (ih h)
      · obtain ⟨rfl, rfl⟩ := reads_pure.mp h
        exact .last (sound_pColumn hcolumn)

/-- `CREATE TABLE` -/
theorem sound_pCreateTable {stmt : QLCreateTable} (h : Reads traced.pCreateTable s stmt t) :
    CreateTable s stmt t := by
  obtain ⟨table, u, hname, h⟩ := reads_bind.mp h
  obtain ⟨v, hopen, h⟩ := reads_pExpect_bind.mp h
  obtain ⟨stmt', w, hcolumns, h⟩ := reads_bind.mp (reads_get_bind.mp h)
  obtain ⟨_, hclose, rfl⟩ := reads_map.mp h
  exact ⟨table, u, v, w, reads_pMustSym.mp hname, hopen, sound_columnLoop hcolumns,
    reads_expect.mp hclose⟩

/-- `CREATE INDEX` -/
theorem sound_pCreateIndex {stmt : QLCreateIndex} (h : Reads traced.pCreateIndex s stmt t) :
    CreateIndex s stmt t := by
  obtain ⟨unique, u, hunique, h⟩ := reads_bind.mp h
  obtain ⟨name, v, hname, h⟩ := reads_bind.mp h
  obtain ⟨w, hon, h⟩ := reads_pExpect_bind.mp h
  obtain ⟨table, x, htable, h⟩ := reads_bind.mp h
  obtain ⟨keys, z, hkeys, h⟩ := reads_bind.mp h
  obtain ⟨y, hopen, hkeys⟩ := sound_ifExpected sound_pNames hkeys
  obtain ⟨rfl, rfl⟩ := reads_pure.mp h
  have hgiven : Unique s unique u := by
    rcases reads_pKeyword.mp hunique with ⟨rfl, hword⟩ | ⟨rfl, hnone, rfl⟩
    · exact .given hword
    · exact .absent hnone
  exact ⟨unique, name, table, keys, u, v, w, x, y, hgiven, reads_pMustSym.mp hname, hon,
    reads_pMustSym.mp htable, hopen, hkeys, rfl⟩

/-- The alias takes the place of the name. -/
theorem sound_pSelectExpr {name : Bytes} (h : Reads traced.pSelectExpr s name t) :
    SelectItem s name t := by
  rcases reads_pKeyword_bind.mp h with ⟨u, hstar, h⟩ | ⟨-, h⟩
  · obtain ⟨rfl, rfl⟩ := reads_pure.mp h
    exact .star hstar
  · obtain ⟨shown, u, hname, h⟩ := reads_bind.mp h
    cases sound_ifKeyword reads_pMustSym.mp h with
    | given has halias => exact .aliased (reads_pMustSym.mp hname) has halias
    | absent => exact .name (reads_pMustSym.mp hname)

theorem sound_pIndexBy {node node' : QLScan} (h : Reads (traced.pIndexBy node) s node' t) :
    Keys node s node' t := by
  obtain ⟨key1, u, hkey, h⟩ := reads_bind.mp h
  rcases reads_firstKeyword_bind.mp h with ⟨_, v, hsep, h⟩ | ⟨-, h⟩
  · obtain ⟨key2, hkey', rfl⟩ := reads_map.mp h
    exact .two (sound_pExprCmp hkey) hsep (sound_pExprCmp hkey')
  · obtain ⟨rfl, rfl⟩ := reads_pure.mp h
    exact .one (sound_pExprCmp hkey)

/-- A number, or nothing and the default. -/
theorem sound_pNumOr {i n : Int64} (h : Reads (traced.pNumOr i) s n t) : NumberOr i s n t := by
  obtain ⟨num, hnum, rfl⟩ := reads_map.mp h
  cases num with
  | some n => exact .given (reads_pNum_some.mp hnum)
  | none =>
      obtain rfl := pNum_none (reads_pNum_none.mp hnum)
      exact .absent

theorem sound_pLimit {node node' : QLScan} (h : Reads (traced.pLimit node) s node' t) :
    Limit node s node' t := by
  obtain ⟨limit, u, hlimit, h⟩ := reads_bind.mp h
  obtain ⟨offset, hoffset, rfl⟩ := reads_map.mp h
  exact ⟨limit, offset, u, sound_pNumOr hlimit, sound_ifKeyword sound_pNumOr hoffset, rfl⟩

/-- The three clauses of a scan. -/
theorem sound_pScan {node node' : QLScan} (h : Reads (traced.pScan node) s node' t) :
    Scan node s node' t := by
  obtain ⟨keyed, u, hkeys, h⟩ := reads_bind.mp h
  obtain ⟨filter, v, hfilter, hlimit⟩ := reads_bind.mp h
  exact ⟨keyed, filter, u, v, sound_ifKeyword sound_pIndexBy hkeys,
    sound_ifKeyword sound_pExprOr hfilter, sound_ifKeyword sound_pLimit hlimit⟩

theorem sound_pSelect {stmt : QLSelect} (h : Reads traced.pSelect s stmt t) : Select s stmt t := by
  obtain ⟨names, u, hnames, h⟩ := reads_bind.mp h
  obtain ⟨scan, x, hfrom, h⟩ := reads_bind.mp h
  obtain ⟨v, hword, hfrom⟩ := reads_pExpect_bind.mp hfrom
  obtain ⟨table, w, htable, hscan⟩ := reads_bind.mp hfrom
  obtain ⟨rfl, rfl⟩ := reads_pure.mp h
  exact ⟨names, table, scan, u, v, w, sound_commaList sound_pSelectExpr hnames, hword,
    reads_pMustSym.mp htable, sound_pScan hscan, rfl⟩

/-- `INSERT` -/
theorem sound_pInsert {stmt : QLInsert} (h : Reads traced.pInsert s stmt t) : Insert s stmt t := by
  obtain ⟨table, u, htable, h⟩ := reads_bind.mp h
  obtain ⟨names, v, hnames, h⟩ := reads_bind.mp h
  obtain ⟨_, w, hword, h⟩ := reads_bind.mp h
  obtain ⟨_, x, hopen, h⟩ := reads_bind.mp h
  obtain ⟨values, y, hvalues, h⟩ := reads_bind.mp h
  obtain ⟨_, hclose, rfl⟩ := reads_map.mp h
  exact ⟨table, names, values, u, v, w, x, y, reads_pMustSym.mp htable,
    sound_ifKeyword sound_pNames hnames, reads_expect.mp hword, reads_expect.mp hopen,
    sound_commaList sound_pExprOr hvalues, reads_expect.mp hclose, rfl⟩

theorem sound_pAssign {assign : Bytes × QLNode} (h : Reads traced.pAssign s assign t) :
    Assign s assign t := by
  obtain ⟨name, u, hname, h⟩ := reads_bind.mp h
  obtain ⟨_, v, heq, h⟩ := reads_bind.mp h
  obtain ⟨value, hvalue, rfl⟩ := reads_map.mp h
  exact ⟨u, v, reads_pMustSym.mp hname, reads_expect.mp heq, sound_pExprOr hvalue⟩

/-- `UPDATE` -/
theorem sound_pUpdate {stmt : QLUpdate} (h : Reads traced.pUpdate s stmt t) : Update s stmt t := by
  obtain ⟨table, u, htable, h⟩ := reads_bind.mp h
  obtain ⟨_, v, hset, h⟩ := reads_bind.mp h
  obtain ⟨assigns, w, hassigns, h⟩ := reads_bind.mp h
  obtain ⟨_, x, hwhere, h⟩ := reads_bind.mp h
  obtain ⟨scan, hscan, rfl⟩ := reads_map.mp h
  exact ⟨table, assigns, scan, u, v, w, x, reads_pMustSym.mp htable, reads_expect.mp hset,
    sound_commaList sound_pAssign hassigns, reads_expect.mp hwhere, sound_pScan hscan, rfl⟩

theorem sound_pDelete {stmt : QLDelete} (h : Reads traced.pDelete s stmt t) : Delete s stmt t := by
  obtain ⟨table, u, htable, h⟩ := reads_bind.mp h
  obtain ⟨scan, hscan, rfl⟩ := reads_map.mp h
  exact ⟨table, scan, u, reads_pMustSym.mp htable, sound_ifKeyword sound_pScan hscan, rfl⟩

theorem sound_asStmt {wrap : α → Stmt} {p : Traced α} {R : Phrase α} {stmt : Stmt}
    (hp : ∀ {s a t}, Reads p s a t → R s a t) (h : Reads (TokenOps.asStmt wrap p) s stmt t) :
    ∃ a, R s a t ∧ stmt = wrap a := by
  obtain ⟨a, hread, rfl⟩ := reads_map.mp h
  exact ⟨a, hp hread, rfl⟩

/-- A statement that is read soundly is one of the grammar, or the error
that there is none. -/
theorem sound_pStmt {stmt : Stmt} (h : Reads traced.pStmt s stmt t) :
    Statement s stmt t ∨ ∃ rest, stmt = .unknown rest := by
  rcases reads_firstKeyword_bind.mp h with ⟨kind, u, hkind, h⟩ | ⟨-, h⟩
  · left
    cases kind with
    | createTable =>
        obtain ⟨stmt, hstmt, rfl⟩ := sound_asStmt sound_pCreateTable h
        exact .createTable hkind hstmt
    | createIndex =>
        obtain ⟨stmt, hstmt, rfl⟩ := sound_asStmt sound_pCreateIndex h
        exact .createIndex hkind hstmt
    | select =>
        obtain ⟨stmt, hstmt, rfl⟩ := sound_asStmt sound_pSelect h
        exact .select hkind hstmt
    | insert =>
        obtain ⟨stmt, hstmt, rfl⟩ := sound_asStmt sound_pInsert h
        exact .insert hkind hstmt
    | update =>
        obtain ⟨stmt, hstmt, rfl⟩ := sound_asStmt sound_pUpdate h
        exact .update hkind hstmt
    | delete =>
        obtain ⟨stmt, hstmt, rfl⟩ := sound_asStmt sound_pDelete h
        exact .delete hkind hstmt
    | explain =>
        obtain ⟨stmt, hstmt, rfl⟩ := sound_asStmt sound_pSelect h
        exact .explain hkind hstmt
    | begin =>
        obtain ⟨rfl, rfl⟩ := reads_pure.mp h
        exact .begin hkind
    | commit =>
        obtain ⟨rfl, rfl⟩ := reads_pure.mp h
        exact .commit hkind
    | abort =>
        obtain ⟨rfl, rfl⟩ := reads_pure.mp h
        exact .abort hkind
  · have hget := (reads_get_bind (f := fun s => pure (Stmt.unknown (restText s)))).mp h
    exact .inr ⟨restText s, (reads_pure.mp hget).1⟩

end Svacara.Sql.Traced
