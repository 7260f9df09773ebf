/-
The phrases of the grammar are read soundly.

The grammar does not say how the parser decides between its cases; that
it decides as the phrase does follows from what can stand where. A
production completes a phrase in front of texts that decline certain
keywords, the ones it would go on with (`Completes`): an operand with an
opening bracket, a chain with its operators and those of the levels
below. In each place the next token of the phrase is known, and it is
checked by computing that it is none of these keywords.

A scan reaches the end of the input, and so does what depends on it.

Nesting is no obstacle: what is inside of an operand is shorter, and the
parser has a level for every byte.
-/
import Svacara.Sql.Proofs.Follow
import Svacara.Sql.Proofs.Sound
import Svacara.Sql.Proofs.Trace

namespace Svacara.Sql.Traced

open Logged Grammar

variable {α : Type} {s t : Bytes}

/-- On texts shorter than `n` the production reads the phrases in front of
texts that decline `stops`. -/
structure Completes (stops : List (List String)) (n : Nat) (p : Traced α) (R : Phrase α) :
    Prop where
  leaves : LeavesBelow n (erase p)
  reads : ∀ {s a t}, s.length < n → R s a t → Declines stops t → Reads p s a t

theorem Completes.length_le {stops : List (List String)} {n : Nat} {p : Traced α}
    {R : Phrase α} (h : Completes stops n p R) {a : α} (hs : s.length < n)
    (hread : Reads p s a t) : t.length ≤ s.length :=
  (Outcome.Meets.get (h.leaves s hs) hread.erase_eq).length_le

-- ===================================================== combinators

theorem reads_ifKeyword {kws : List String} {p : Traced α} {R : Phrase α} {a b : α}
    (h : Optional kws R a s b t) (hp : ∀ {u}, R u b t → Reads p u b t)
    (hnone : Sql.pKeyword kws t = none) : Reads (traced.ifKeyword kws p a) s b t := by
  apply reads_pKeyword_bind.mpr
  cases h with
  | given hword hphrase => exact .inl ⟨_, hword, hp hphrase⟩
  | absent => exact .inr ⟨hnone, reads_done⟩

section

variable {stops : List (List String)} {n : Nat} {item : Traced α} {R : Phrase α}
  (hitem : Completes stops n item R) (hclear : Clear stops [[","]])

include hitem hclear

/-- The induction is on the list read. -/
theorem reads_sepBy {as : List α} (h : Items R s as t) {fuel : Nat} (hs : s.length < n)
    (hfuel : s.length < fuel) (hstop : Declines ([","] :: stops) t) :
    Reads (traced.sepBy item fuel) s as t := by
  induction h generalizing fuel with
  | @last s a t hphrase =>
      obtain ⟨fuel, rfl⟩ := exists_fuel hfuel
      have hread := hitem.reads hs hphrase (hstop.mono (by simp +contextual))
      refine reads_bind.mpr ⟨a, t, hread, reads_pKeyword_bind.mpr (.inr ⟨?_, ?_⟩)⟩
      · exact hstop [","] (by simp)
      · exact reads_done
  | @more s a u v as t hphrase hcomma _ ih =>
      obtain ⟨fuel, rfl⟩ := exists_fuel hfuel
      have hread := hitem.reads hs hphrase (declines_of_word hclear hcomma (by simp))
      have hle := hitem.length_le hs hread
      have hlt := pKeyword_lt comma_opens hcomma.1
      have hrest : Reads (traced.sepBy item fuel) v as t := ih (by omega) (by omega) hstop
      refine reads_bind.mpr ⟨a, u, hread, reads_pKeyword_bind.mpr (.inl ⟨v, hcomma, ?_⟩)⟩
      exact reads_map.mpr ⟨as, hrest, rfl⟩

theorem completes_commaList : Completes ([","] :: stops) n (traced.commaList item) (Items R) where
  leaves := by
    intro s hs
    rw [erase_commaList fun _ => rfl]
    exact commaList_leaves hitem.leaves s hs
  reads hs h hstop :=
    reads_get_bind.mpr (reads_sepBy hitem hclear h hs (Nat.lt_succ_self _) hstop)

end

section

variable {stops : List (List String)} {n : Nat} {ops : List (List String × QLType)}
  {operand : Traced QLNode} {R : Phrase QLNode} (hoperand : Completes stops n operand R)
  (hops : ∀ c ∈ ops, Opens c.1) (hclear : Clear stops (ops.map Prod.fst))

include hoperand hops hclear

/-- The induction is on the tail of the chain. -/
theorem reads_chainLoop {left e : QLNode} (h : ChainTail ops R left s e t) {fuel : Nat}
    (hs : s.length < n) (hfuel : s.length < fuel)
    (hstop : Declines (ops.map Prod.fst ++ stops) t) :
    Reads (traced.chainLoop ops operand fuel left) s e t := by
  induction h generalizing fuel with
  | @done left s =>
      obtain ⟨fuel, rfl⟩ := exists_fuel hfuel
      have hnone := (hstop.mono (fun kws h => List.mem_append_left _ h)).firstKeyword
      exact reads_firstKeyword_bind.mpr (.inr ⟨hnone, reads_done⟩)
  | @more left s op u right v e t hop hright htail ih =>
      obtain ⟨fuel, rfl⟩ := exists_fuel hfuel
      have hlt := hop.length_lt hops
      -- behind the operand comes another operator, or the end of the chain
      have hdecl : Declines stops v := by
        cases htail with
        | done => exact hstop.mono fun kws h => List.mem_append_right _ h
        | more hop' _ _ => exact declines_of_next hclear hop'.next
      have hread := hoperand.reads (by omega) hright hdecl
      have hle := hoperand.length_le (by omega) hread
      refine reads_firstKeyword_bind.mpr (.inl ⟨op, u, hop, reads_bind.mpr ⟨right, v, hread, ?_⟩⟩)
      exact ih (by omega) (by omega) hstop

theorem completes_chain :
    Completes (ops.map Prod.fst ++ stops) n (traced.chain ops operand) (Chain ops R) where
  leaves := by
    intro s hs
    rw [erase_chain fun _ => rfl]
    exact chain_leaves hops hoperand.leaves s hs
  reads := by
    intro s e t hs h hstop
    obtain ⟨left, u, hleft, htail⟩ := h
    have hdecl : Declines stops u := by
      cases htail with
      | done => exact hstop.mono fun kws h => List.mem_append_right _ h
      | more hop _ _ => exact declines_of_next hclear hop.next
    have hread := hoperand.reads hs hleft hdecl
    have hle := hoperand.length_le hs hread
    refine reads_bind.mpr ⟨left, u, hread, reads_get_bind.mpr ?_⟩
    exact reads_chainLoop hoperand hops hclear htail (by omega) (Nat.lt_succ_self _) hstop

end

-- ===================================================== expressions

section

variable {n : Nat} {atom : Traced QLNode} {R : Phrase QLNode}
  (hatom : Completes atomStops n atom R)

include hatom

theorem completes_exprAdd : Completes addStops n (traced.exprAdd atom) (ExprAdd R) :=
  completes_chain (completes_chain hatom follow.mul_opens follow.atom_mul) follow.add_opens
    follow.mul_add

theorem completes_exprCmp : Completes cmpStops n (traced.exprCmp atom) (ExprCmp R) where
  leaves := by
    intro s hs
    rw [erase_exprCmp fun _ => rfl]
    exact exprCmp_leaves hatom.leaves s hs
  reads := by
    intro s e t hs h hstop
    have hadd := completes_exprAdd hatom
    have hlast : Declines addStops t := hstop.mono fun kws h => List.mem_append_right _ h
    cases h with
    | one hleft =>
        have hnone := (hstop.mono (fun kws h => List.mem_append_left _ h)).firstKeyword
        refine reads_bind.mpr ⟨e, t, hadd.reads hs hleft hlast, ?_⟩
        exact reads_firstKeyword_bind.mpr (.inr ⟨hnone, reads_done⟩)
    | @two _ left u op v right _ hleft hop hright =>
        have hread := hadd.reads hs hleft (declines_of_next follow.add_cmp hop.next)
        have hle := hadd.length_le hs hread
        have hlt := hop.length_lt follow.cmp_opens
        have hread' := hadd.reads (by omega) hright hlast
        refine reads_bind.mpr ⟨left, u, hread, reads_firstKeyword_bind.mpr (.inl ⟨op, v, hop, ?_⟩)⟩
        exact reads_map.mpr ⟨right, hread', rfl⟩

theorem completes_exprAnd : Completes andStops n (traced.exprAnd atom) (ExprAnd R) :=
  completes_chain (completes_exprCmp hatom) follow.and_opens follow.cmp_and

theorem completes_exprOr : Completes orStops n (traced.exprOr atom) (ExprOr R) :=
  completes_chain (completes_exprAnd hatom) follow.or_opens follow.and_or

end

/-- No phrase begins with a closing bracket. -/
def NeverCloses (R : Phrase α) : Prop := ∀ {s a t}, R s a t → Sql.pKeyword [")"] s = none

theorem neverCloses_chain {ops : List (List String × QLType)} {R : Phrase QLNode}
    (h : NeverCloses R) : NeverCloses (Chain ops R) := by
  intro s e t hchain
  obtain ⟨left, u, hleft, -⟩ := hchain
  exact h hleft

theorem neverCloses_exprOr {R : Phrase QLNode} (h : NeverCloses R) :
    NeverCloses (ExprOr R) := by
  apply neverCloses_chain
  apply neverCloses_chain
  intro s e t hcmp
  cases hcmp with
  | one hleft => exact neverCloses_chain (neverCloses_chain h) hleft
  | two hleft _ _ => exact neverCloses_chain (neverCloses_chain h) hleft

theorem neverCloses_operand {inner expr : Phrase QLNode} :
    NeverCloses (Operand inner expr) := by
  intro s e t h
  cases h with
  | not hword _ => exact none_of_word follow.close hword (by simp)
  | group hopen _ _ => exact none_of_word follow.close hopen (by simp)
  | number hnum => exact pKeyword_of_isMark (follow.unmarked _ (by simp)) hnum.peek
  | str hstr => exact pKeyword_of_isMark (follow.unmarked _ (by simp)) hstr.peek
  | ident hname => exact pKeyword_of_isSym (follow.punctuation _ (by simp)) hname.1.peek
  | call hname _ _ => exact pKeyword_of_isSym (follow.punctuation _ (by simp)) hname.1.peek

theorem neverCloses_atom (depth : Nat) : NeverCloses (Atom depth) := by
  cases depth with
  | zero => exact fun h => h.elim
  | succ depth => exact neverCloses_operand

section

variable {n : Nat} {expr : Traced QLNode} {R : Phrase QLNode}
  (hexpr : Completes orStops n expr R) (hcloses : NeverCloses R)

include hexpr hcloses

/-- An argument does not begin with the bracket. -/
theorem reads_pArgs {kids : List QLNode} (hs : s.length < n) (h : Args R s kids t) :
    Reads (traced.pArgs expr) s kids t := by
  apply reads_pKeyword_bind.mpr
  cases h with
  | none hclose => exact .inl ⟨t, hclose, reads_done⟩
  | @some _ _ u _ hkids hclose =>
      have hnone : Sql.pKeyword [")"] s = none := by
        cases hkids with
        | last hphrase => exact hcloses hphrase
        | more hphrase _ _ => exact hcloses hphrase
      have hread := (completes_commaList hexpr (follow.expr.mono (by simp))).reads hs hkids
        (declines_of_word follow.exprs hclose (by simp))
      refine .inr ⟨hnone, reads_bind.mpr ⟨kids, u, hread, reads_bind.mpr ⟨(), t, ?_, ?_⟩⟩⟩
      · exact reads_expect.mpr hclose
      · exact reads_done

end

/-- Neither a number nor a string is found where a name stands. -/
theorem reads_pOperand_name {expr : Traced QLNode} {name u : Bytes} {e : QLNode}
    (hname : OperandName s name u) (h : Reads (traced.pNamed expr name) u e t) :
    Reads (traced.pOperand expr) s e t := by
  obtain ⟨hphrase, hdigit, -⟩ := hname
  have hpeek := hphrase.peek
  have hnum : Sql.pNum s = (none, skipComments s) := by
    apply pNum_of_peek
    · rw [hphrase.1]
      obtain ⟨b, rest, rfl⟩ := List.exists_cons_of_ne_nil hphrase.2.1
      exact hdigit
    · intro heq
      rw [heq] at hpeek
      cases hpeek
  have hstr : Sql.pStr (skipComments s) = (none, skipComments s) := by
    rw [pStr_of_peek, skipComments_idem]
    intro heq
    rw [skipComments_idem] at heq
    rcases heq with heq | heq
    · rw [heq] at hpeek
      cases hpeek
    · rw [heq] at hpeek
      cases hpeek
  have hsame : Name (skipComments s) name u := by
    rw [Name, skipComments_idem]
    exact hphrase
  refine reads_bind.mpr ⟨none, _, reads_pNum_none.mpr hnum, ?_⟩
  refine reads_bind.mpr ⟨none, _, reads_pStr.mpr hstr, ?_⟩
  refine reads_bind.mpr ⟨name, u, reads_pMustSym.mpr hsame, ?_⟩
  rw [if_neg hphrase.2.1]
  exact h

/-- A quote is no number. -/
theorem reads_pOperand_str {expr : Traced QLNode} {str : Bytes} (h : Str s str t) :
    Reads (traced.pOperand expr) s { type := .str, str } t := by
  have hnum : Sql.pNum s = (none, skipComments s) := by
    obtain ⟨quote, body, hquote, hs, -⟩ := h
    have hpeek : peek (skipComments s) = quote := by
      rw [hs]
      rfl
    apply pNum_of_peek
    · rw [hpeek]
      rcases hquote with rfl | rfl <;> decide
    · rw [hpeek]
      rcases hquote with rfl | rfl <;> decide
  have hsame : Str (skipComments s) str t := by
    rw [Str, skipComments_idem]
    exact h
  refine reads_bind.mpr ⟨none, _, reads_pNum_none.mpr hnum, ?_⟩
  refine reads_bind.mpr ⟨some str, t, reads_pStr.mpr (str_iff.mp hsame), ?_⟩
  exact reads_done

/-- Where there is neither NOT nor a bracket, the operand stands alone. -/
theorem reads_alone {n : Nat} {e : QLNode} (hnot : Sql.pKeyword ["not"] s = none)
    (hopen : Sql.pKeyword ["("] s = none)
    (h : Reads (traced.pOperand (traced.exprOr (traced.pExprAtom n))) s e t) :
    Reads (traced.pExprAtom (n + 1)) s e t := by
  apply reads_pKeyword_bind.mpr
  refine .inr ⟨hnot, ?_⟩
  apply reads_pKeyword_bind.mpr
  exact .inr ⟨hopen, h⟩

theorem reads_alone_of_isMark {n : Nat} {e : QLNode}
    (hmark : isMark (peek (skipComments s)) = true)
    (h : Reads (traced.pOperand (traced.exprOr (traced.pExprAtom n))) s e t) :
    Reads (traced.pExprAtom (n + 1)) s e t := by
  apply reads_alone _ _ h
  · exact pKeyword_of_isMark (follow.unmarked _ (by simp)) hmark
  · exact pKeyword_of_isMark (follow.unmarked _ (by simp)) hmark

theorem reads_alone_of_name {n : Nat} {name u : Bytes} {e : QLNode}
    (hname : OperandName s name u)
    (h : Reads (traced.pNamed (traced.exprOr (traced.pExprAtom n)) name) u e t) :
    Reads (traced.pExprAtom (n + 1)) s e t := by
  apply reads_alone hname.2.2 _ (reads_pOperand_name hname h)
  exact pKeyword_of_isSym (follow.punctuation _ (by simp)) hname.1.peek

/-- The step: with one level less inside, and on shorter texts. -/
theorem reads_pExprAtom {n : Nat} {inner : Phrase QLNode}
    (ih : Completes atomStops n (traced.pExprAtom n) inner) (hcloses : NeverCloses inner)
    {e : QLNode} (hs : s.length < n + 1) (h : Operand inner (ExprOr inner) s e t)
    (hstop : Declines atomStops t) : Reads (traced.pExprAtom (n + 1)) s e t := by
  have hexpr := completes_exprOr ih
  cases h with
  | @not _ u kid _ hword hkid =>
      have hlt := pKeyword_lt not_opens hword.1
      have hread := ih.reads (by omega) hkid hstop
      apply reads_pKeyword_bind.mpr
      exact .inl ⟨u, hword, reads_map.mpr ⟨kid, hread, rfl⟩⟩
  | @group _ u _ v _ hopen hgroup hclose =>
      have hlt := pKeyword_lt bracket_opens hopen.1
      have hread := hexpr.reads (by omega) hgroup (declines_of_word follow.expr hclose (by simp))
      apply reads_pKeyword_bind.mpr
      refine .inr ⟨none_of_word follow.not_group hopen (by simp), ?_⟩
      apply reads_pKeyword_bind.mpr
      refine .inl ⟨u, hopen, reads_bind.mpr ⟨e, v, hread, ?_⟩⟩
      exact reads_map.mpr ⟨(), reads_expect.mpr hclose, rfl⟩
  | @number _ i _ hnum =>
      apply reads_alone_of_isMark hnum.peek
      exact reads_bind.mpr ⟨some i, t, reads_pNum_some.mpr hnum, reads_done⟩
  | str hstr => exact reads_alone_of_isMark hstr.peek (reads_pOperand_str hstr)
  | @ident _ name _ hname =>
      apply reads_alone_of_name hname
      apply reads_pKeyword_bind.mpr
      exact .inr ⟨hstop ["("] (by simp [atomStops]), reads_done⟩
  | @call _ name u v kids _ hname hopen hargs =>
      have hlt := pKeyword_lt bracket_opens hopen.1
      have hle := hname.1.length_le
      have hread := reads_pArgs hexpr (neverCloses_exprOr hcloses) (by omega) hargs
      apply reads_alone_of_name hname
      apply reads_pKeyword_bind.mpr
      exact .inl ⟨v, hopen, reads_map.mpr ⟨kids, hread, rfl⟩⟩

/-- Phrases of any depth are read, with a level for every byte. -/
theorem completes_pExprAtom (depth n : Nat) :
    Completes atomStops n (traced.pExprAtom n) (Atom depth) := by
  have hleaves : ∀ n, LeavesBelow n (erase (traced.pExprAtom n)) := by
    intro n s hs
    rw [erase_pExprAtom]
    exact pExprAtom_leaves n s hs
  induction depth generalizing n with
  | zero => exact ⟨hleaves n, fun _ h => h.elim⟩
  | succ depth ih =>
      refine ⟨hleaves n, ?_⟩
      intro s e t hs h hstop
      cases n with
      | zero => omega
      | succ n => exact reads_pExprAtom (ih n) (neverCloses_atom depth) hs h hstop

theorem completes_pExprOr (n : Nat) : Completes orStops n traced.pExprOr Expr where
  leaves := by
    intro s _
    rw [erase_pExprOr]
    exact pExprOr_leaves s
  reads := by
    intro s e t _ h hstop
    obtain ⟨depth, h⟩ := h
    apply reads_get_bind.mpr
    exact (completes_exprOr (completes_pExprAtom depth _)).reads (Nat.lt_succ_self _) h hstop

theorem reads_pExprOr {e : QLNode} (h : Expr s e t) (hstop : Declines orStops t) :
    Reads traced.pExprOr s e t :=
  (completes_pExprOr _).reads (Nat.lt_succ_self _) h hstop

theorem reads_pExprCmp {e : QLNode} (h : Key s e t) (hstop : Declines cmpStops t) :
    Reads traced.pExprCmp s e t := by
  obtain ⟨depth, h⟩ := h
  apply reads_get_bind.mpr
  exact (completes_exprCmp (completes_pExprAtom depth _)).reads (Nat.lt_succ_self _) h hstop

-- ====================================================== statements

theorem completes_pMustSym (n : Nat) : Completes [] n traced.name Name where
  leaves s _ := Outcome.Meets.ok (pMustSym_suffix s)
  reads _ h _ := reads_pMustSym.mpr h

theorem reads_pNames {names : List Bytes} (h : Names s names t) :
    Reads traced.pNames s names t := by
  obtain ⟨u, hnames, hclose⟩ := h
  have hread := (completes_commaList (completes_pMustSym _) (fun _ h => nomatch h)).reads
    (Nat.lt_succ_self _) hnames (declines_of_word follow.names hclose (by simp))
  refine reads_bind.mpr ⟨names, u, hread, reads_bind.mpr ⟨(), t, reads_expect.mpr hclose, ?_⟩⟩
  exact reads_done

theorem reads_pType {type : QLType} (h : ColumnType s type t)
    (hstop : Declines (colTypes.map Prod.fst) t) : Reads traced.pType s type t := by
  apply reads_firstKeyword_bind.mpr
  cases h with
  | given hfirst => exact .inl ⟨type, t, hfirst, reads_done⟩
  | absent => exact .inr ⟨hstop.firstKeyword, reads_done⟩

theorem reads_pColumn {stmt stmt' : QLCreateTable} (h : Column stmt s stmt' t)
    (hstop : Declines (colTypes.map Prod.fst) t) : Reads (traced.pColumn stmt) s stmt' t := by
  apply reads_pKeyword_bind.mpr
  cases h with
  | @key _ u v keys _ hkey hopen hkeys =>
      refine .inl ⟨u, hkey, reads_bind.mpr ⟨(), v, reads_expect.mpr hopen, ?_⟩⟩
      exact reads_map.mpr ⟨keys, reads_pNames hkeys, rfl⟩
  | @column _ name u type _ hnone hname htype =>
      refine .inr ⟨hnone, reads_bind.mpr ⟨name, u, reads_pMustSym.mpr hname, ?_⟩⟩
      exact reads_map.mpr ⟨type, reads_pType htype hstop, rfl⟩

theorem reads_columnLoop {stmt stmt' : QLCreateTable} (h : Columns stmt s stmt' t) {fuel : Nat}
    (hfuel : s.length < fuel) (hstop : Declines ([","] :: colTypes.map Prod.fst) t) :
    Reads (traced.columnLoop fuel stmt) s stmt' t := by
  induction h generalizing fuel with
  | @last stmt s stmt' t hcolumn =>
      obtain ⟨fuel, rfl⟩ := exists_fuel hfuel
      have hread := reads_pColumn hcolumn (hstop.mono fun kws => List.mem_cons_of_mem _)
      refine reads_bind.mpr ⟨stmt', t, hread, reads_pKeyword_bind.mpr (.inr ⟨?_, ?_⟩)⟩
      · exact hstop [","] (by simp)
      · exact reads_done
  | @more stmt s mid u v stmt' t hcolumn hcomma _ ih =>
      obtain ⟨fuel, rfl⟩ := exists_fuel hfuel
      have hread := reads_pColumn hcolumn (declines_of_word follow.column hcomma (by simp))
      have hrun := hread.erase_eq
      rw [erase_pColumn] at hrun
      have hle : u.length ≤ s.length :=
        (Outcome.Meets.get (pColumn_leaves stmt s) hrun).length_le
      have hlt := pKeyword_lt comma_opens hcomma.1
      refine reads_bind.mpr ⟨mid, u, hread, reads_pKeyword_bind.mpr (.inl ⟨v, hcomma, ?_⟩)⟩
      exact ih (by omega) hstop

theorem reads_pCreateTable {stmt : QLCreateTable} (h : CreateTable s stmt t) :
    Reads traced.pCreateTable s stmt t := by
  obtain ⟨table, u, v, w, hname, hopen, hcolumns, hclose⟩ := h
  refine reads_bind.mpr ⟨table, u, reads_pMustSym.mpr hname, ?_⟩
  refine reads_pExpect_bind.mpr ⟨v, hopen, reads_get_bind.mpr ?_⟩
  have hread := reads_columnLoop hcolumns (Nat.lt_succ_self _)
    (declines_of_word follow.columns hclose (by simp))
  refine reads_bind.mpr ⟨stmt, w, hread, reads_bind.mpr ⟨(), t, reads_expect.mpr hclose, ?_⟩⟩
  exact reads_done

theorem reads_pCreateIndex {stmt : QLCreateIndex} (h : CreateIndex s stmt t) :
    Reads traced.pCreateIndex s stmt t := by
  obtain ⟨unique, name, table, keys, u, v, w, x, y, hunique, hname, hon, htable, hopen, hkeys,
    rfl⟩ := h
  have hgiven : Reads (traced.keyword ["unique"]) s unique u := by
    apply reads_pKeyword.mpr
    cases hunique with
    | given hword => exact .inl ⟨rfl, hword⟩
    | absent hnone => exact .inr ⟨rfl, hnone, rfl⟩
  refine reads_bind.mpr ⟨unique, u, hgiven, ?_⟩
  refine reads_bind.mpr ⟨name, v, reads_pMustSym.mpr hname, ?_⟩
  refine reads_pExpect_bind.mpr ⟨w, hon, ?_⟩
  refine reads_bind.mpr ⟨table, x, reads_pMustSym.mpr htable, ?_⟩
  refine reads_bind.mpr ⟨keys, t, reads_pExpect_bind.mpr ⟨y, hopen, reads_pNames hkeys⟩, ?_⟩
  exact reads_done

theorem reads_pSelectExpr {name : Bytes} (h : SelectItem s name t)
    (hstop : Declines [["as"]] t) : Reads traced.pSelectExpr s name t := by
  have hstar {name u : Bytes} (hname : Name s name u) : Sql.pKeyword ["*"] s = none :=
    pKeyword_of_isSym (follow.punctuation _ (by simp)) hname.peek
  apply reads_pKeyword_bind.mpr
  cases h with
  | star hword => exact .inl ⟨t, hword, reads_done⟩
  | name hname =>
      refine .inr ⟨hstar hname, reads_bind.mpr ⟨name, t, reads_pMustSym.mpr hname, ?_⟩⟩
      apply reads_pKeyword_bind.mpr
      exact .inr ⟨hstop ["as"] (by simp), reads_done⟩
  | @aliased _ shown u v _ _ hname has halias =>
      refine .inr ⟨hstar hname, reads_bind.mpr ⟨shown, u, reads_pMustSym.mpr hname, ?_⟩⟩
      apply reads_pKeyword_bind.mpr
      exact .inl ⟨v, has, reads_pMustSym.mpr halias⟩

theorem completes_pSelectExpr (n : Nat) : Completes [["as"]] n traced.pSelectExpr SelectItem where
  leaves := by
    intro s _
    rw [erase_pSelectExpr]
    exact pSelectExpr_leaves s
  reads _ h hstop := reads_pSelectExpr h hstop

-- =========================================================== scans

theorem reads_pIndexBy {node node' : QLScan} (h : Keys node s node' t)
    (hstop : Declines (keySeps.map Prod.fst ++ cmpStops) t) :
    Reads (traced.pIndexBy node) s node' t := by
  have hlast : Declines cmpStops t := hstop.mono fun kws h => List.mem_append_right _ h
  cases h with
  | @one _ key1 _ hkey =>
      have hnone := (hstop.mono (fun kws h => List.mem_append_left _ h)).firstKeyword
      refine reads_bind.mpr ⟨key1, t, reads_pExprCmp hkey hlast, ?_⟩
      exact reads_firstKeyword_bind.mpr (.inr ⟨hnone, reads_done⟩)
  | @two _ key1 u v key2 _ hkey hsep hkey' =>
      have hread := reads_pExprCmp hkey (declines_of_next follow.key hsep.next)
      refine reads_bind.mpr ⟨key1, u, hread, reads_firstKeyword_bind.mpr (.inl ⟨(), v, hsep, ?_⟩)⟩
      exact reads_map.mpr ⟨key2, reads_pExprCmp hkey' hlast, rfl⟩

/-- Behind a missing number there is OFFSET or the end, and no number. -/
theorem reads_pNumOr {i n : Int64} (h : NumberOr i s n t) (hnext : Next [["offset"]] t) :
    Reads (traced.pNumOr i) s n t := by
  cases h with
  | given hnum =>
      exact reads_map.mpr ⟨some n, reads_pNum_some.mpr hnum, rfl⟩
  | absent =>
      have hmark : isMark (peek (skipComments s)) = false := by
        cases hmark : isMark (peek (skipComments s)) with
        | false => rfl
        | true =>
            rcases hnext with hdone | ⟨kws, hmem, u, hu⟩
            · rw [skipWS_skipComments] at hdone
              rw [hdone] at hmark
              cases hmark
            · obtain rfl := List.mem_singleton.mp hmem
              rw [pKeyword_skipComments,
                pKeyword_of_isMark (follow.unmarked _ (by simp)) hmark] at hu
              cases hu
      have hnum := reads_pNum_none.mpr (pNum_of_isMark hmark)
      exact reads_map.mpr ⟨none, hnum, rfl⟩

theorem reads_pLimit {node node' : QLScan} (h : Limit node s node' t) (hdone : skipWS t = []) :
    Reads (traced.pLimit node) s node' t := by
  obtain ⟨limit, offset, u, hlimit, hoffset, rfl⟩ := h
  have hread := reads_pNumOr hlimit (hoffset.next (.inl hdone))
  have hread' := reads_ifKeyword hoffset (fun h => reads_pNumOr h (.inl hdone))
    (pKeyword_done (follow.scan_ends _ (by simp)) hdone)
  refine reads_bind.mpr ⟨limit, u, hread, reads_bind.mpr ⟨offset, t, hread', ?_⟩⟩
  exact reads_done

theorem reads_pScan {node node' : QLScan} (h : Scan node s node' t) (hdone : skipWS t = []) :
    Reads (traced.pScan node) s node' t := by
  obtain ⟨keyed, filter, u, v, hkeys, hfilter, hlimit⟩ := h
  have hv : Next [["limit"]] v := hlimit.next (.inl hdone)
  have hu : Next [["filter"], ["limit"]] u := hfilter.next hv
  refine reads_bind.mpr ⟨keyed, u, reads_ifKeyword hkeys ?_ ?_, ?_⟩
  · exact fun h => reads_pIndexBy h (declines_of_next follow.keys hu)
  · exact none_of_next follow.index hu
  refine reads_bind.mpr ⟨filter, v, reads_ifKeyword hfilter ?_ ?_, ?_⟩
  · exact fun h => reads_pExprOr h (declines_of_next (follow.expr.mono (by simp)) hv)
  · exact none_of_next follow.filter hv
  apply reads_ifKeyword hlimit
  · exact fun h => reads_pLimit h hdone
  · exact pKeyword_done (follow.scan_ends _ (by simp)) hdone

-- ================================================ whole statements

theorem reads_pSelect {stmt : QLSelect} (h : Select s stmt t) (hdone : skipWS t = []) :
    Reads traced.pSelect s stmt t := by
  obtain ⟨names, table, scan, u, v, w, hnames, hfrom, htable, hscan, rfl⟩ := h
  have hread := (completes_commaList (completes_pSelectExpr _) follow.item).reads
    (Nat.lt_succ_self _) hnames (declines_of_word follow.items hfrom (by simp))
  refine reads_bind.mpr ⟨names, u, hread, reads_bind.mpr ⟨scan, t, ?_, ?_⟩⟩
  · refine reads_pExpect_bind.mpr ⟨v, hfrom, ?_⟩
    exact reads_bind.mpr ⟨table, w, reads_pMustSym.mpr htable, reads_pScan hscan hdone⟩
  · exact reads_done

theorem reads_pInsert {stmt : QLInsert} (h : Insert s stmt t) : Reads traced.pInsert s stmt t := by
  obtain ⟨table, names, values, u, v, w, x, y, htable, hnames, hword, hopen, hvalues, hclose,
    rfl⟩ := h
  have hnone : Sql.pKeyword ["("] v = none := none_of_word follow.bracket_values hword (by simp)
  have hread := (completes_commaList (completes_pExprOr _) (follow.expr.mono (by simp))).reads
    (Nat.lt_succ_self _) hvalues (declines_of_word follow.exprs hclose (by simp))
  refine reads_bind.mpr ⟨table, u, reads_pMustSym.mpr htable, ?_⟩
  refine reads_bind.mpr ⟨names, v, reads_ifKeyword hnames reads_pNames hnone, ?_⟩
  refine reads_bind.mpr ⟨(), w, reads_expect.mpr hword, ?_⟩
  refine reads_bind.mpr ⟨(), x, reads_expect.mpr hopen, ?_⟩
  refine reads_bind.mpr ⟨values, y, hread, ?_⟩
  exact reads_map.mpr ⟨(), reads_expect.mpr hclose, rfl⟩

theorem completes_pAssign (n : Nat) : Completes orStops n traced.pAssign Assign where
  leaves := by
    intro s _
    rw [erase_pAssign]
    exact pAssign_leaves s
  reads := by
    intro s assign t _ h hstop
    obtain ⟨u, v, hname, heq, hvalue⟩ := h
    refine reads_bind.mpr ⟨assign.1, u, reads_pMustSym.mpr hname, ?_⟩
    refine reads_bind.mpr ⟨(), v, reads_expect.mpr heq, ?_⟩
    exact reads_map.mpr ⟨assign.2, reads_pExprOr hvalue hstop, rfl⟩

theorem reads_pUpdate {stmt : QLUpdate} (h : Update s stmt t) (hdone : skipWS t = []) :
    Reads traced.pUpdate s stmt t := by
  obtain ⟨table, assigns, scan, u, v, w, x, htable, hset, hassigns, hwhere, hscan, rfl⟩ := h
  have hread := (completes_commaList (completes_pAssign _) (follow.expr.mono (by simp))).reads
    (Nat.lt_succ_self _) hassigns (declines_of_word follow.exprs hwhere (by simp))
  refine reads_bind.mpr ⟨table, u, reads_pMustSym.mpr htable, ?_⟩
  refine reads_bind.mpr ⟨(), v, reads_expect.mpr hset, ?_⟩
  refine reads_bind.mpr ⟨assigns, w, hread, ?_⟩
  refine reads_bind.mpr ⟨(), x, reads_expect.mpr hwhere, ?_⟩
  exact reads_map.mpr ⟨scan, reads_pScan hscan hdone, rfl⟩

theorem reads_pDelete {stmt : QLDelete} (h : Delete s stmt t) (hdone : skipWS t = []) :
    Reads traced.pDelete s stmt t := by
  obtain ⟨table, scan, u, htable, hscan, rfl⟩ := h
  have hread := reads_ifKeyword hscan (fun h => reads_pScan h hdone)
    (pKeyword_done (follow.scan_ends _ (by simp)) hdone)
  refine reads_bind.mpr ⟨table, u, reads_pMustSym.mpr htable, ?_⟩
  exact reads_map.mpr ⟨scan, hread, rfl⟩

theorem reads_asStmt {wrap : α → Stmt} {p : Traced α} {a : α} (h : Reads p s a t) :
    Reads (TokenOps.asStmt wrap p) s (wrap a) t :=
  reads_map.mpr ⟨a, h, rfl⟩

theorem reads_pBody {stmt : Stmt} {kind : StmtKind} {u : Bytes}
    (hkind : First stmtKinds s kind u) (h : Reads (traced.pBody kind) u stmt t) :
    Reads traced.pStmt s stmt t :=
  reads_firstKeyword_bind.mpr (.inl ⟨kind, u, hkind, h⟩)

/-- A statement of the grammar at the end of the input is read soundly. -/
theorem reads_pStmt {stmt : Stmt} (h : Statement s stmt t) (hdone : skipWS t = []) :
    Reads traced.pStmt s stmt t := by
  cases h with
  | createTable hkind hstmt => exact reads_pBody hkind (reads_asStmt (reads_pCreateTable hstmt))
  | createIndex hkind hstmt => exact reads_pBody hkind (reads_asStmt (reads_pCreateIndex hstmt))
  | select hkind hstmt => exact reads_pBody hkind (reads_asStmt (reads_pSelect hstmt hdone))
  | insert hkind hstmt => exact reads_pBody hkind (reads_asStmt (reads_pInsert hstmt))
  | update hkind hstmt => exact reads_pBody hkind (reads_asStmt (reads_pUpdate hstmt hdone))
  | delete hkind hstmt => exact reads_pBody hkind (reads_asStmt (reads_pDelete hstmt hdone))
  | explain hkind hstmt => exact reads_pBody hkind (reads_asStmt (reads_pSelect hstmt hdone))
  | begin hkind => exact reads_pBody hkind (reads_done)
  | commit hkind => exact reads_pBody hkind (reads_done)
  | abort hkind => exact reads_pBody hkind (reads_done)

end Svacara.Sql.Traced
