/-
The productions over any tokens.

What the parser does to its input it does through a few functions: it
tries keywords, reads names, numbers and strings, and shows what is left
in an error. `TokenOps` is these functions on a state of their own with a
log of their own, and the productions are written over them once: on what
is left of the input, on positions, and with the tokens as the log.
-/
import Svacara.Sql.Grammar
import Svacara.Lib.Logged

namespace Svacara.Sql

open Grammar

/-- Every keyword of the grammar. -/
def keywords : List (List String) :=
  stmtKinds.map Prod.fst ++ colTypes.map Prod.fst ++ cmpOps.map Prod.fst
    ++ addOps.map Prod.fst ++ mulOps.map Prod.fst
    ++ [["primary", "key"], ["index", "by"], ["unique"], ["on"], ["as"], ["from"], ["filter"],
      ["limit"], ["offset"], ["values"], ["set"], ["where"], ["and"], ["or"], ["not"], ["("],
      [")"], [","], ["="], ["*"]]

/-- What the productions use of the input. -/
structure TokenOps (σ ω : Type) where
  /-- `pKeyword` -/
  keyword : List String → Logged Fault σ ω Bool
  /-- `pExpect`, whether there was no error -/
  expect : String → Logged Fault σ ω Bool
  /-- `pMustSym` -/
  name : Logged Fault σ ω Bytes
  /-- `pNum` -/
  num : Logged Fault σ ω (Option Int64)
  /-- `pStr` -/
  str : Logged Fault σ ω (Option Bytes)
  /-- the node without a type -/
  noOperand : Logged Fault σ ω QLNode
  /-- `p.rest()` -/
  rest : Logged Fault σ ω Bytes
  /-- how many bytes are left -/
  room : σ → Nat

namespace TokenOps

variable {σ ω α : Type} (T : TokenOps σ ω)

/-- `pExpect` with its error dropped. -/
def expected (kw : String) : Logged Fault σ ω Unit := do
  let _ ← T.expect kw

-- ===================================================== combinators

def firstKeyword : List (List String × α) → Logged Fault σ ω (Option α)
  | [] => return none
  | (kws, a) :: cases => do
      if ← T.keyword kws then return some a else firstKeyword cases

def ifKeyword (kws : List String) (p : Logged Fault σ ω α) (a : α) : Logged Fault σ ω α := do
  if ← T.keyword kws then p else return a

/-- Where the error of `pExpect` ends the production. -/
def ifExpected (kw : String) (p : Logged Fault σ ω α) (a : α) : Logged Fault σ ω α := do
  if ← T.expect kw then p else return a

def sepBy (item : Logged Fault σ ω α) : Nat → Logged Fault σ ω (List α)
  | 0 => Logged.fail .fuel
  | n + 1 => do
      let a ← item
      if ← T.keyword [","] then
        let as ← sepBy item n
        return a :: as
      else return [a]

def commaList (item : Logged Fault σ ω α) : Logged Fault σ ω (List α) := do
  let s ← Logged.get
  sepBy T item (T.room s + 1)

def chainLoop (ops : List (List String × QLType)) (operand : Logged Fault σ ω QLNode) :
    Nat → QLNode → Logged Fault σ ω QLNode
  | 0, _ => Logged.fail .fuel
  | n + 1, left => do
      match ← firstKeyword T ops with
      | none => return left
      | some op =>
          let right ← operand
          chainLoop ops operand n { type := op, kids := [left, right] }

def chain (ops : List (List String × QLType)) (operand : Logged Fault σ ω QLNode) :
    Logged Fault σ ω QLNode := do
  let left ← operand
  let s ← Logged.get
  chainLoop T ops operand (T.room s + 1) left

-- ===================================================== expressions

section

variable (atom : Logged Fault σ ω QLNode)

def exprMul : Logged Fault σ ω QLNode := chain T mulOps atom

def exprAdd : Logged Fault σ ω QLNode := chain T addOps (exprMul T atom)

def exprCmp : Logged Fault σ ω QLNode := do
  let left ← exprAdd T atom
  match ← firstKeyword T cmpOps with
  | none => return left
  | some op =>
      let right ← exprAdd T atom
      return { type := op, kids := [left, right] }

def exprAnd : Logged Fault σ ω QLNode := chain T [(["and"], .and)] (exprCmp T atom)

def exprOr : Logged Fault σ ω QLNode := chain T [(["or"], .or)] (exprAnd T atom)

end

def pArgs (expr : Logged Fault σ ω QLNode) : Logged Fault σ ω (List QLNode) := do
  if ← T.keyword [")"] then return []
  else
    let kids ← commaList T expr
    expected T ")"
    return kids

/-- A name, as a call or as an identifier. -/
def pNamed (expr : Logged Fault σ ω QLNode) (name : Bytes) : Logged Fault σ ω QLNode := do
  if ← T.keyword ["("] then
    let kids ← pArgs T expr
    return { type := .func, str := name.map lower, kids }
  else return { type := .ident, str := name }

def pOperand (expr : Logged Fault σ ω QLNode) : Logged Fault σ ω QLNode := do
  match ← T.num with
  | some n => return { type := .i64, i64 := n }
  | none =>
      match ← T.str with
      | some str => return { type := .str, str }
      | none =>
          let name ← T.name
          if name = [] then T.noOperand else pNamed T expr name

def pExprAtom : Nat → Logged Fault σ ω QLNode
  | 0 => Logged.fail .fuel
  | n + 1 => do
      if ← T.keyword ["not"] then
        let kid ← pExprAtom n
        return { type := .not, kids := [kid] }
      else if ← T.keyword ["("] then
        let expr ← exprOr T (pExprAtom n)
        expected T ")"
        return expr
      else pOperand T (exprOr T (pExprAtom n))

def pExprOr : Logged Fault σ ω QLNode := do
  let s ← Logged.get
  exprOr T (pExprAtom T (T.room s + 1))

def pExprAnd : Logged Fault σ ω QLNode := do
  let s ← Logged.get
  exprAnd T (pExprAtom T (T.room s + 1))

def pExprCmp : Logged Fault σ ω QLNode := do
  let s ← Logged.get
  exprCmp T (pExprAtom T (T.room s + 1))

def pExprAdd : Logged Fault σ ω QLNode := do
  let s ← Logged.get
  exprAdd T (pExprAtom T (T.room s + 1))

def pExprMul : Logged Fault σ ω QLNode := do
  let s ← Logged.get
  exprMul T (pExprAtom T (T.room s + 1))

/-- An atom with all of the nesting that what is left has room for. -/
def pAtom : Logged Fault σ ω QLNode := do
  let s ← Logged.get
  pExprAtom T (T.room s + 1)

-- ====================================================== statements

def pType : Logged Fault σ ω QLType := do
  let type ← firstKeyword T colTypes
  return type.getD .unknown

def pNames : Logged Fault σ ω (List Bytes) := do
  let names ← commaList T T.name
  expected T ")"
  return names

def pColumn (stmt : QLCreateTable) : Logged Fault σ ω QLCreateTable := do
  if ← T.keyword ["primary", "key"] then
    expected T "("
    let keys ← pNames T
    return { stmt with pkeys := stmt.pkeys ++ keys }
  else
    let name ← T.name
    let type ← pType T
    return { stmt with cols := stmt.cols ++ [{ name, type }] }

def columnLoop : Nat → QLCreateTable → Logged Fault σ ω QLCreateTable
  | 0, _ => Logged.fail .fuel
  | n + 1, stmt => do
      let stmt ← pColumn T stmt
      if ← T.keyword [","] then columnLoop n stmt else return stmt

def pColumns (stmt : QLCreateTable) : Logged Fault σ ω QLCreateTable := do
  let s ← Logged.get
  let stmt ← columnLoop T (T.room s + 1) stmt
  expected T ")"
  return stmt

def pCreateTable : Logged Fault σ ω QLCreateTable := do
  let table ← T.name
  ifExpected T "(" (pColumns T { table }) { table }

def pIndexOn (stmt : QLCreateIndex) : Logged Fault σ ω QLCreateIndex := do
  let table ← T.name
  let keys ← ifExpected T "(" (pNames T) []
  return { stmt with table, keys }

def pCreateIndex : Logged Fault σ ω QLCreateIndex := do
  let unique ← T.keyword ["unique"]
  let name ← T.name
  ifExpected T "on" (pIndexOn T { name, unique }) { name, unique }

def pSelectExpr : Logged Fault σ ω Bytes := do
  if ← T.keyword ["*"] then return lit "*"
  else
    let name ← T.name
    ifKeyword T ["as"] T.name name

def pIndexBy (node : QLScan) : Logged Fault σ ω QLScan := do
  let key1 ← pExprCmp T
  match ← firstKeyword T [(["and"], ()), ([","], ())] with
  | none => return { node with key1 }
  | some _ =>
      let key2 ← pExprCmp T
      return { node with key1, key2 }

def pNumOr (i : Int64) : Logged Fault σ ω Int64 := do
  let n ← T.num
  return n.getD i

def pLimit (node : QLScan) : Logged Fault σ ω QLScan := do
  let limit ← pNumOr T node.limit
  let offset ← ifKeyword T ["offset"] (pNumOr T node.offset) node.offset
  return { node with limit, offset }

def pScan (node : QLScan) : Logged Fault σ ω QLScan := do
  let node ← ifKeyword T ["index", "by"] (pIndexBy T node) node
  let filter ← ifKeyword T ["filter"] (pExprOr T) node.filter
  ifKeyword T ["limit"] (pLimit T (unlimited node filter)) (unlimited node filter)

def pFrom : Logged Fault σ ω QLScan := do
  let table ← T.name
  pScan T { table }

def pSelect : Logged Fault σ ω QLSelect := do
  let names ← commaList T (pSelectExpr T)
  let scan ← ifExpected T "from" (pFrom T) {}
  return { scan with
    names, output := names.map fun name => ({ type := .ident, str := name } : QLNode) }

def pInsert : Logged Fault σ ω QLInsert := do
  let table ← T.name
  let names ← ifKeyword T ["("] (pNames T) []
  expected T "values"
  expected T "("
  let values ← commaList T (pExprOr T)
  expected T ")"
  return { table, names, values }

def pAssign : Logged Fault σ ω (Bytes × QLNode) := do
  let name ← T.name
  expected T "="
  let value ← pExprOr T
  return (name, value)

def pUpdate : Logged Fault σ ω QLUpdate := do
  let table ← T.name
  expected T "set"
  let assigns ← commaList T (pAssign T)
  expected T "where"
  let scan ← pScan T { table }
  return { scan with names := assigns.map Prod.fst, values := assigns.map Prod.snd }

def pDelete : Logged Fault σ ω QLDelete := do
  let table ← T.name
  let scan ← ifKeyword T ["where"] (pScan T { table }) { table }
  return { scan with }

def asStmt (wrap : α → Stmt) (p : Logged Fault σ ω α) : Logged Fault σ ω Stmt := do
  let a ← p
  return wrap a

/-- The statement behind its opening keywords. -/
def pBody : StmtKind → Logged Fault σ ω Stmt
  | .createTable => asStmt .createTable (pCreateTable T)
  | .createIndex => asStmt .createIndex (pCreateIndex T)
  | .select => asStmt .select (pSelect T)
  | .insert => asStmt .insert (pInsert T)
  | .update => asStmt .update (pUpdate T)
  | .delete => asStmt .delete (pDelete T)
  | .explain => asStmt .explain (pSelect T)
  | .begin => return .text "BEGIN"
  | .commit => return .text "COMMIT"
  | .abort => return .text "ABORT"

def pStmt : Logged Fault σ ω Stmt := do
  match ← firstKeyword T stmtKinds with
  | none =>
      let text ← T.rest
      return .unknown text
  | some kind => pBody T kind

end TokenOps

end Svacara.Sql
