/-
The traced parser without its log is the parser.

One lemma per production, in the order of the definitions; each follows
from those of the productions it calls, since `erase` commutes with
sequencing. The loops go by induction on their fuel.
-/
import Svacara.Sql.Trace

namespace Svacara.Sql.Traced

open Logged Outcome Grammar

variable {α : Type}

-- ========================================================== tokens

/-- What follows a keyword runs behind it, or where it was missing. -/
theorem erase_pKeyword_bind (kws : List String) (f : Bool → Traced α) (s : Bytes) :
    erase (traced.keyword kws >>= f) s =
      match Sql.pKeyword kws s with
      | some t => erase (f true) t
      | none => erase (f false) s := by
  rw [erase_bind, erase]
  simp only [traced]
  cases Sql.pKeyword kws s with
  | none => rfl
  | some t => rfl

/-- A keyword that must be there is read as one that may be. -/
theorem erase_pExpect (kw : String) (s : Bytes) :
    erase (traced.expect kw) s = erase (traced.keyword [kw]) s := by
  simp only [erase, traced]
  cases Sql.pKeyword [kw] s with
  | none => rfl
  | some t => rfl

theorem erase_pExpect_bind (kw : String) (f : Bool → Traced α) (s : Bytes) :
    erase (traced.expect kw >>= f) s = erase (traced.keyword [kw] >>= f) s := by
  rw [erase_bind, erase_bind, erase_pExpect]

/-- `pExpect` with its error dropped. -/
@[simp] theorem erase_expect (kw : String) (s : Bytes) :
    erase (traced.expected kw) s = .ok ((), Sql.expect kw s) := by
  rw [TokenOps.expected, erase_pExpect_bind, erase_pKeyword_bind, Sql.expect]
  cases Sql.pKeyword [kw] s with
  | none => rfl
  | some t => rfl

@[simp] theorem erase_pMustSym (s : Bytes) : erase traced.name s = .ok (Sql.pMustSym s) := rfl

@[simp] theorem erase_pNum (s : Bytes) : erase traced.num s = .ok (Sql.pNum s) := rfl

@[simp] theorem erase_pStr (s : Bytes) : erase traced.str s = .ok (Sql.pStr s) := rfl

-- ===================================================== combinators

/-- The first keyword of a table that is there. -/
theorem erase_firstKeyword_bind {β : Type} (cases : List (List String × β))
    (f : Option β → Traced α) (s : Bytes) :
    erase (traced.firstKeyword cases >>= f) s =
      match Sql.firstKeyword cases s with
      | some (b, t) => erase (f (some b)) t
      | none => erase (f none) s := by
  rw [erase_bind]
  induction cases with
  | nil => rfl
  | cons c cases ih =>
      obtain ⟨kws, b⟩ := c
      rw [TokenOps.firstKeyword, erase_pKeyword_bind, Sql.firstKeyword]
      cases Sql.pKeyword kws s with
      | none => exact ih
      | some t => rfl

/-- A clause that may be left out. -/
theorem erase_ifKeyword {p : Traced α} {q : Production α} (h : ∀ s, erase p s = q s)
    (kws : List String) (a : α) (s : Bytes) :
    erase (traced.ifKeyword kws p a) s = Sql.ifKeyword kws q a s := by
  rw [TokenOps.ifKeyword, erase_pKeyword_bind, Sql.ifKeyword]
  cases Sql.pKeyword kws s with
  | none => rfl
  | some t => exact h t

/-- A clause whose keyword must be there. -/
theorem erase_ifExpected {p : Traced α} {q : Production α} (h : ∀ s, erase p s = q s)
    (kw : String) (a : α) (s : Bytes) :
    erase (traced.ifExpected kw p a) s = Sql.ifKeyword [kw] q a s := by
  rw [TokenOps.ifExpected, erase_pExpect_bind]
  exact erase_ifKeyword h [kw] a s

/-- A list goes on behind each comma. -/
theorem erase_sepBy {item : Traced α} {q : Production α} (h : ∀ s, erase item s = q s)
    (n : Nat) (s : Bytes) : erase (traced.sepBy item n) s = Sql.sepBy q n s := by
  induction n generalizing s with
  | zero => rfl
  | succ n ih =>
      rw [TokenOps.sepBy, erase_bind, h, Sql.sepBy]
      congr 1
      funext ⟨a, t⟩
      rw [erase_pKeyword_bind]
      dsimp only
      cases Sql.pKeyword [","] t with
      | none => rfl
      | some u =>
          simp only [if_true, erase_bind, ih]
          rfl

/-- The fuel of a list is what is left. -/
theorem erase_commaList {item : Traced α} {q : Production α} (h : ∀ s, erase item s = q s)
    (s : Bytes) : erase (traced.commaList item) s = Sql.commaList q s := by
  rw [TokenOps.commaList, erase_bind, erase_get, ok_bind, erase_sepBy h]
  rfl

/-- The operators of one level, from the left. -/
theorem erase_chainLoop {ops : List (List String × QLType)} {operand : Traced QLNode}
    {q : Production QLNode} (h : ∀ s, erase operand s = q s) (n : Nat) (left : QLNode)
    (s : Bytes) : erase (traced.chainLoop ops operand n left) s = Sql.chainLoop ops q n left s := by
  induction n generalizing left s with
  | zero => rfl
  | succ n ih =>
      rw [TokenOps.chainLoop, erase_firstKeyword_bind, Sql.chainLoop]
      cases Sql.firstKeyword ops s with
      | none => rfl
      | some r =>
          simp only [erase_bind, h, ih]

/-- A level: an operand, then the loop. -/
theorem erase_chain {ops : List (List String × QLType)} {operand : Traced QLNode}
    {q : Production QLNode} (h : ∀ s, erase operand s = q s) (s : Bytes) :
    erase (traced.chain ops operand) s = Sql.chain ops q s := by
  rw [TokenOps.chain, erase_bind, h, Sql.chain]
  congr 1
  funext r
  rw [erase_bind, erase_get, ok_bind, erase_chainLoop h]
  rfl

-- ===================================================== expressions

section

variable {atom : Traced QLNode} {q : Production QLNode} (h : ∀ s, erase atom s = q s)

include h

/-- Sums of products. -/
theorem erase_exprAdd (s : Bytes) : erase (traced.exprAdd atom) s = Sql.exprAdd q s :=
  erase_chain (erase_chain h) s

/-- At most one comparison. -/
theorem erase_exprCmp (s : Bytes) : erase (traced.exprCmp atom) s = Sql.exprCmp q s := by
  rw [TokenOps.exprCmp, erase_bind, erase_exprAdd h, Sql.exprCmp]
  congr 1
  funext ⟨left, t⟩
  rw [erase_firstKeyword_bind]
  dsimp only
  cases Sql.firstKeyword cmpOps t with
  | none => rfl
  | some r =>
      simp only [erase_bind, erase_exprAdd h, erase_pure]
      rfl

/-- The top level. -/
theorem erase_exprOr (s : Bytes) : erase (traced.exprOr atom) s = Sql.exprOr q s :=
  erase_chain (erase_chain (erase_exprCmp h)) s

/-- The arguments behind the bracket. -/
theorem erase_pArgs (s : Bytes) : erase (traced.pArgs atom) s = Sql.pArgs q s := by
  rw [TokenOps.pArgs, erase_pKeyword_bind, Sql.pArgs]
  cases Sql.pKeyword [")"] s with
  | none =>
      simp only [Bool.false_eq_true, if_false, erase_bind, erase_commaList h, erase_expect,
        erase_pure]
      rfl
  | some t => rfl

/-- A number, a string, or a name with or without arguments. -/
theorem erase_pOperand (s : Bytes) : erase (traced.pOperand atom) s = Sql.pOperand q s := by
  rw [TokenOps.pOperand, erase_bind, erase_pNum, ok_bind, Sql.pOperand]
  rcases Sql.pNum s with ⟨_ | n, s⟩
  · simp only [erase_bind, erase_pStr, ok_bind]
    rcases Sql.pStr s with ⟨_ | str, s⟩
    · simp only [erase_bind, erase_pMustSym, ok_bind]
      split
      · rfl
      · rw [TokenOps.pNamed, erase_pKeyword_bind]
        cases Sql.pKeyword ["("] (Sql.pMustSym s).2 with
        | none => rfl
        | some t =>
            simp only [if_true, erase_bind, erase_pArgs h, erase_pure]
            rfl
    · rfl
  · rfl

end

/-- By induction on the depth. -/
theorem erase_pExprAtom (n : Nat) (s : Bytes) :
    erase (traced.pExprAtom n) s = Sql.pExprAtom n s := by
  induction n generalizing s with
  | zero => rfl
  | succ n ih =>
      rw [TokenOps.pExprAtom, erase_pKeyword_bind, Sql.pExprAtom]
      cases Sql.pKeyword ["not"] s with
      | some t =>
          simp only [if_true, erase_bind, ih, erase_pure]
          rfl
      | none =>
          simp only [Bool.false_eq_true, if_false]
          rw [erase_pKeyword_bind]
          cases Sql.pKeyword ["("] s with
          | some t =>
              simp only [if_true, erase_bind, erase_exprOr ih, erase_expect, erase_pure]
              rfl
          | none => exact erase_pOperand (erase_exprOr ih) s

/-- The depth is what is left. -/
theorem erase_pExprOr (s : Bytes) : erase traced.pExprOr s = Sql.pExprOr s := by
  rw [TokenOps.pExprOr, erase_bind, erase_get, ok_bind, erase_exprOr (erase_pExprAtom _)]
  rfl

theorem erase_pExprCmp (s : Bytes) : erase traced.pExprCmp s = Sql.pExprCmp s := by
  rw [TokenOps.pExprCmp, erase_bind, erase_get, ok_bind, erase_exprCmp (erase_pExprAtom _)]
  rfl

-- ====================================================== statements

theorem erase_pType (s : Bytes) : erase traced.pType s = .ok (Sql.pType s) := by
  rw [TokenOps.pType, erase_firstKeyword_bind, Sql.pType]
  cases Sql.firstKeyword colTypes s with
  | none => rfl
  | some r => rfl

theorem erase_symbol (s : Bytes) : erase traced.name s = symbol s := rfl

theorem erase_pNames (s : Bytes) : erase traced.pNames s = Sql.pNames s := by
  simp only [TokenOps.pNames, erase_bind, erase_commaList erase_symbol, erase_expect, erase_pure]
  rfl

/-- A column, or the primary key. -/
theorem erase_pColumn (stmt : QLCreateTable) (s : Bytes) :
    erase (traced.pColumn stmt) s = Sql.pColumn stmt s := by
  rw [TokenOps.pColumn, erase_pKeyword_bind, Sql.pColumn]
  cases Sql.pKeyword ["primary", "key"] s with
  | none =>
      simp only [Bool.false_eq_true, if_false, erase_bind, erase_pMustSym, ok_bind, erase_pType,
        erase_pure]
  | some t =>
      simp only [if_true, erase_bind, erase_expect, ok_bind, erase_pNames, erase_pure]
      rfl

/-- The columns in their order. -/
theorem erase_columnLoop (n : Nat) (stmt : QLCreateTable) (s : Bytes) :
    erase (traced.columnLoop n stmt) s = Sql.columnLoop n stmt s := by
  induction n generalizing stmt s with
  | zero => rfl
  | succ n ih =>
      rw [TokenOps.columnLoop, erase_bind, erase_pColumn, Sql.columnLoop]
      congr 1
      funext ⟨stmt, t⟩
      rw [erase_pKeyword_bind]
      dsimp only
      cases Sql.pKeyword [","] t with
      | none => rfl
      | some u => exact ih stmt u

theorem erase_pColumns (stmt : QLCreateTable) (s : Bytes) :
    erase (traced.pColumns stmt) s = Sql.pColumns stmt s := by
  simp only [TokenOps.pColumns, erase_bind, erase_get, ok_bind, erase_columnLoop, erase_expect,
    erase_pure]
  rfl

/-- `CREATE TABLE` -/
theorem erase_pCreateTable (s : Bytes) : erase traced.pCreateTable s = Sql.pCreateTable s := by
  rw [TokenOps.pCreateTable, erase_bind, erase_pMustSym, ok_bind]
  exact erase_ifExpected (erase_pColumns _) _ _ _

theorem erase_pIndexOn (stmt : QLCreateIndex) (s : Bytes) :
    erase (traced.pIndexOn stmt) s = Sql.pIndexOn stmt s := by
  simp only [TokenOps.pIndexOn, erase_bind, erase_pMustSym, ok_bind, erase_ifExpected erase_pNames,
    erase_pure]
  rfl

/-- `CREATE INDEX`, unique or not. -/
theorem erase_pCreateIndex (s : Bytes) : erase traced.pCreateIndex s = Sql.pCreateIndex s := by
  rw [TokenOps.pCreateIndex, erase_pKeyword_bind, Sql.pCreateIndex, Sql.ifKeyword]
  cases Sql.pKeyword ["unique"] s with
  | none =>
      dsimp only
      rw [erase_bind, erase_pMustSym, ok_bind]
      exact erase_ifExpected (erase_pIndexOn _) _ _ _
  | some t =>
      dsimp only
      rw [erase_bind, erase_pMustSym, ok_bind]
      exact erase_ifExpected (erase_pIndexOn _) _ _ _

/-- A star, or a name with an alias. -/
theorem erase_pSelectExpr (s : Bytes) : erase traced.pSelectExpr s = Sql.pSelectExpr s := by
  rw [TokenOps.pSelectExpr, erase_pKeyword_bind, Sql.pSelectExpr]
  cases Sql.pKeyword ["*"] s with
  | none =>
      simp only [Bool.false_eq_true, if_false, erase_bind, erase_pMustSym, ok_bind]
      exact erase_ifKeyword erase_symbol _ _ _
  | some t => rfl

/-- One key, or two for a range. -/
theorem erase_pIndexBy (node : QLScan) (s : Bytes) :
    erase (traced.pIndexBy node) s = Sql.pIndexBy node s := by
  rw [TokenOps.pIndexBy, erase_bind, erase_pExprCmp, Sql.pIndexBy]
  congr 1
  funext ⟨key1, t⟩
  rw [erase_firstKeyword_bind]
  dsimp only
  cases Sql.firstKeyword [(["and"], ()), ([","], ())] t with
  | none => rfl
  | some r =>
      simp only [erase_bind, erase_pExprCmp, erase_pure]
      rfl

theorem erase_pNumOr (i : Int64) (s : Bytes) : erase (traced.pNumOr i) s = Sql.pNumOr i s := rfl

theorem erase_pLimit (node : QLScan) (s : Bytes) :
    erase (traced.pLimit node) s = Sql.pLimit node s := by
  simp only [TokenOps.pLimit, erase_bind, erase_pNumOr, erase_ifKeyword (erase_pNumOr _),
    erase_pure]
  rfl

/-- The keys, the filter and the limit. -/
theorem erase_pScan (node : QLScan) (s : Bytes) :
    erase (traced.pScan node) s = Sql.pScan node s := by
  simp only [TokenOps.pScan, erase_bind, erase_ifKeyword (erase_pIndexBy _),
    erase_ifKeyword erase_pExprOr, erase_ifKeyword (erase_pLimit _)]
  rfl

theorem erase_pFrom (s : Bytes) : erase traced.pFrom s = Sql.pFrom s := by
  rw [TokenOps.pFrom, erase_bind, erase_pMustSym, ok_bind]
  exact erase_pScan _ _

/-- `SELECT` -/
theorem erase_pSelect (s : Bytes) : erase traced.pSelect s = Sql.pSelect s := by
  simp only [TokenOps.pSelect, erase_bind, erase_commaList erase_pSelectExpr,
    erase_ifExpected erase_pFrom, erase_pure]
  rfl

/-- `INSERT` -/
theorem erase_pInsert (s : Bytes) : erase traced.pInsert s = Sql.pInsert s := by
  simp only [TokenOps.pInsert, erase_bind, erase_pMustSym, ok_bind, erase_ifKeyword erase_pNames,
    erase_expect, erase_commaList erase_pExprOr, erase_pure]
  rfl

theorem erase_pAssign (s : Bytes) : erase traced.pAssign s = Sql.pAssign s := by
  simp only [TokenOps.pAssign, erase_bind, erase_pMustSym, ok_bind, erase_expect, erase_pExprOr,
    erase_pure]
  rfl

/-- `UPDATE` -/
theorem erase_pUpdate (s : Bytes) : erase traced.pUpdate s = Sql.pUpdate s := by
  simp only [TokenOps.pUpdate, erase_bind, erase_pMustSym, ok_bind, erase_expect,
    erase_commaList erase_pAssign, erase_pScan, erase_pure]
  rfl

/-- `DELETE` -/
theorem erase_pDelete (s : Bytes) : erase traced.pDelete s = Sql.pDelete s := by
  simp only [TokenOps.pDelete, erase_bind, erase_pMustSym, ok_bind, erase_ifKeyword (erase_pScan _),
    erase_pure]
  rfl

theorem erase_asStmt {p : Traced α} {q : Production α} (h : ∀ s, erase p s = q s)
    (wrap : α → Stmt) (s : Bytes) : erase (TokenOps.asStmt wrap p) s = Sql.asStmt wrap q s := by
  rw [TokenOps.asStmt, erase_bind, h]
  rfl

/-- The traced parser is the parser with a log. -/
theorem erase_pStmt (s : Bytes) : erase traced.pStmt s = Sql.pStmt s := by
  rw [TokenOps.pStmt, erase_firstKeyword_bind, Sql.pStmt]
  cases Sql.firstKeyword stmtKinds s with
  | none => rfl
  | some r =>
      obtain ⟨kind, t⟩ := r
      cases kind with
      | createTable => exact erase_asStmt erase_pCreateTable _ t
      | createIndex => exact erase_asStmt erase_pCreateIndex _ t
      | select => exact erase_asStmt erase_pSelect _ t
      | insert => exact erase_asStmt erase_pInsert _ t
      | update => exact erase_asStmt erase_pUpdate _ t
      | delete => exact erase_asStmt erase_pDelete _ t
      | explain => exact erase_asStmt erase_pSelect _ t
      | begin => rfl
      | commit => rfl
      | abort => rfl

end Svacara.Sql.Traced
