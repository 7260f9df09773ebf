/-
`internal/sql/parser.go`: the parser.

# The state

A parser is the input and a position in it. The functions only look at
what is behind the position and only move it forward, or back to where
they started, so the state here is the input that is left: `pos` is the
length of the input less that of what is left. Looking past the end
yields the byte 0, as `peek` does.

`pKeyword` leaves the position alone when it fails, so it returns what
is left if it succeeds and nothing otherwise. The errors of `pExpect` are
dropped by every caller but for the fact of failing.

# Recursion

Every operator and every comma takes at least one byte, so the loops
have the length of the input as fuel, and an atom that contains an
expression has consumed a byte before it, so that length also bounds the
nesting. The expression levels are functions of the atom parser they
rest on.
-/
import Svacara.Sql.Ast
import Svacara.Lib.Outcome

namespace Svacara.Sql

-- ======================================================= the input

/-- `p.peek()`. -/
def peek : Bytes → UInt8
  | [] => 0
  | b :: _ => b

/-- Blank, tab, newline or carriage return. -/
def isWS (b : UInt8) : Bool := b = 32 || b = 9 || b = 10 || b = 13

def skipWS (s : Bytes) : Bytes := s.dropWhile isWS

/-- The loop of `skipComments`: a comment is two dashes and what follows
up to the end of the line. -/
def skipLoop : Nat → Bytes → Bytes
  | n + 1, a :: b :: s =>
      if a = 45 ∧ b = 45 then skipLoop n (skipWS (s.dropWhile fun c => c ≠ 10))
      else a :: b :: s
  | _, s => s

def skipComments (s : Bytes) : Bytes := skipLoop s.length (skipWS s)

/-- An upper-case letter in lower case. -/
def lower (b : UInt8) : UInt8 := if 65 ≤ b ∧ b ≤ 90 then b + 32 else b

/-- The loop of `pKeyword` over the bytes of one keyword. -/
def matchWord : Bytes → Bytes → Option Bytes
  | [], s => some s
  | c :: kw, s => if lower (peek s) = c then matchWord kw s.tail else none

/-- The loop over the keywords. -/
def matchWords : List String → Bytes → Option Bytes
  | [], s => some s
  | kw :: kws, s => (matchWord (lit kw) (skipWS s)).bind (matchWords kws)

def pKeyword (keywords : List String) (s : Bytes) : Option Bytes :=
  matchWords keywords (skipComments s)

/-- `pExpect` with its error dropped. -/
def expect (keyword : String) (s : Bytes) : Bytes := (pKeyword [keyword] s).getD s

/-- A letter, a digit, an underscore or an at sign. -/
def isSym (b : UInt8) : Bool :=
  (97 ≤ b && b ≤ 122) || (65 ≤ b && b ≤ 90) || (48 ≤ b && b ≤ 57) || b = 95 || b = 64

def pMustSym (s : Bytes) : Bytes × Bytes :=
  let s := skipComments s
  (s.takeWhile isSym, s.dropWhile isSym)

def isDigit (b : UInt8) : Bool := 48 ≤ b && b ≤ 57

/-- `strconv.ParseInt` with its error dropped: out of range, it is the
nearest bound. -/
def parseInt (neg : Bool) (digits : Bytes) : Int64 :=
  let n : Int := digits.foldl (fun n d => n * 10 + (d.toNat - 48 : Nat)) 0
  if neg then Int64.ofInt (max (-n) (-2 ^ 63)) else Int64.ofInt (min n (2 ^ 63 - 1))

/-- A number, or nothing but the blanks consumed. -/
def pNum (s : Bytes) : Option Int64 × Bytes :=
  let s := skipComments s
  let neg := peek s = 45
  let t := if neg then s.tail else s
  if t.takeWhile isDigit = [] then (none, s)
  else (some (parseInt neg (t.takeWhile isDigit)), t.dropWhile isDigit)

/-- The loop of `pStr`: a backslash takes the byte behind it as it is,
unless it is the last one. -/
def strLoop (quote : UInt8) : Bytes → Bytes → Option Bytes × Bytes
  | [], _ => (none, [])
  | [b], out => if b = quote then (some out, []) else (none, [])
  | b :: c :: s, out =>
      if b = quote then (some out, c :: s)
      else if b = 92 then strLoop quote s (out ++ [c])
      else strLoop quote (c :: s) (out ++ [b])

/-- A string in single or double quotes. One that does not end consumes
all of the input. -/
def pStr (s : Bytes) : Option Bytes × Bytes :=
  let s := skipComments s
  if peek s = 39 ∨ peek s = 34 then strLoop (peek s) s.tail [] else (none, s)

/-- What is left, cut for an error message. -/
def restText (s : Bytes) : Bytes :=
  if s = [] then lit "<EOF>" else if 30 < s.length then s.take 30 ++ lit "..." else s

-- ===================================================== combinators

/-- A production: what it builds and the input it leaves. -/
abbrev Production (α : Type) := Bytes → Except Fault (α × Bytes)

/-- The cases of a switch over keywords: the first that matches. -/
def firstKeyword {α : Type} : List (List String × α) → Bytes → Option (α × Bytes)
  | [], _ => none
  | (kws, a) :: cases, s =>
      match pKeyword kws s with
      | some s => some (a, s)
      | none => firstKeyword cases s

/-- What follows a keyword, and something else where the keyword is
missing. -/
def ifKeyword {α : Type} (kws : List String) (p : Production α) (a : α) : Production α :=
  fun s =>
    match pKeyword kws s with
    | some s => p s
    | none => .ok (a, s)

/-- Items with commas between them. -/
def sepBy {α : Type} (item : Production α) : Nat → Bytes → Except Fault (List α × Bytes)
  | 0, _ => .error .fuel
  | n + 1, s => do
      let (a, s) ← item s
      match pKeyword [","] s with
      | none => return ([a], s)
      | some s =>
          let (as, s) ← sepBy item n s
          return (a :: as, s)

/-- Items with commas between them, as many as the input has room for. -/
def commaList {α : Type} (item : Production α) : Production (List α) :=
  fun s => sepBy item (s.length + 1) s

/-- A name where any will do, also an empty one. -/
def symbol : Production Bytes := fun s => .ok (pMustSym s)

/-- The loop of a left-associative level, behind its first operand. -/
def chainLoop (ops : List (List String × QLType)) (operand : Production QLNode) :
    Nat → QLNode → Bytes → Except Fault (QLNode × Bytes)
  | 0, _, _ => .error .fuel
  | n + 1, left, s =>
      match firstKeyword ops s with
      | none => .ok (left, s)
      | some (op, s) => do
          let (right, s) ← operand s
          chainLoop ops operand n { type := op, kids := [left, right] } s

def chain (ops : List (List String × QLType)) (operand : Production QLNode) :
    Production QLNode := fun s => do
  let (left, s) ← operand s
  chainLoop ops operand (s.length + 1) left s

-- ===================================================== expressions

def mulOps : List (List String × QLType) :=
  [(["*"], .mul), (["/"], .div), (["%"], .mod)]

def addOps : List (List String × QLType) := [(["+"], .add), (["-"], .sub)]

/-- In the order of the switch: "=" comes before "==". -/
def cmpOps : List (List String × QLType) :=
  [(["<="], .le), ([">="], .ge), (["!="], .ne), (["<>"], .ne), (["="], .eq), (["=="], .eq),
    (["<"], .lt), ([">"], .gt), (["like"], .like)]

section

variable (atom : Production QLNode)

def exprMul : Production QLNode := chain mulOps atom

def exprAdd : Production QLNode := chain addOps (exprMul atom)

/-- At most one comparison. -/
def exprCmp : Production QLNode := fun s => do
  let (left, s) ← exprAdd atom s
  match firstKeyword cmpOps s with
  | none => return (left, s)
  | some (op, s) =>
      let (right, s) ← exprAdd atom s
      return ({ type := op, kids := [left, right] }, s)

def exprAnd : Production QLNode := chain [(["and"], .and)] (exprCmp atom)

def exprOr : Production QLNode := chain [(["or"], .or)] (exprAnd atom)

end

/-- The argument list of a function, behind its opening bracket. -/
def pArgs (expr : Production QLNode) : Production (List QLNode) := fun s =>
  match pKeyword [")"] s with
  | some s => .ok ([], s)
  | none => do
      let (kids, s) ← commaList expr s
      return (kids, expect ")" s)

/-- The last cases of `pExprAtom`: a number, a string, a function call or
an identifier. None of them is the node without a type. -/
def pOperand (expr : Production QLNode) : Production QLNode := fun s =>
  match pNum s with
  | (some n, s) => .ok ({ type := .i64, i64 := n }, s)
  | (none, s) =>
      match pStr s with
      | (some str, s) => .ok ({ type := .str, str }, s)
      | (none, s) =>
          let (name, s) := pMustSym s
          if name = [] then .ok ({}, s)
          else
            match pKeyword ["("] s with
            | none => .ok ({ type := .ident, str := name }, s)
            | some s => do
                let (kids, s) ← pArgs expr s
                return ({ type := .func, str := name.map lower, kids }, s)

/-- The argument bounds the nesting. -/
def pExprAtom : Nat → Production QLNode
  | 0, _ => .error .fuel
  | n + 1, s =>
      match pKeyword ["not"] s with
      | some s => do
          let (kid, s) ← pExprAtom n s
          return ({ type := .not, kids := [kid] }, s)
      | none =>
          match pKeyword ["("] s with
          | some s => do
              let (expr, s) ← exprOr (pExprAtom n) s
              return (expr, expect ")" s)
          | none => pOperand (exprOr (pExprAtom n)) s

def pExprOr : Production QLNode := fun s => exprOr (pExprAtom (s.length + 1)) s

def pExprCmp : Production QLNode := fun s => exprCmp (pExprAtom (s.length + 1)) s

-- ====================================================== statements

/-- The column types; none is the type `unknown`. -/
def colTypes : List (List String × QLType) :=
  [(["int64"], .i64), (["int"], .i64), (["bytes"], .str), (["text"], .str),
    (["string"], .str), (["bool"], .and), (["float64"], .float), (["float"], .float)]

def pType (s : Bytes) : QLType × Bytes := (firstKeyword colTypes s).getD (.unknown, s)

/-- Names up to a closing bracket. -/
def pNames : Production (List Bytes) := fun s => do
  let (names, s) ← commaList symbol s
  return (names, expect ")" s)

/-- One round of the loop of `pCreateTable`: a key list or a column. -/
def pColumn (stmt : QLCreateTable) : Production QLCreateTable := fun s =>
  match pKeyword ["primary", "key"] s with
  | some s => do
      let (keys, s) ← pNames (expect "(" s)
      return ({ stmt with pkeys := stmt.pkeys ++ keys }, s)
  | none =>
      let (name, s) := pMustSym s
      let (type, s) := pType s
      .ok ({ stmt with cols := stmt.cols ++ [{ name, type }] }, s)

def columnLoop : Nat → QLCreateTable → Bytes → Except Fault (QLCreateTable × Bytes)
  | 0, _, _ => .error .fuel
  | n + 1, stmt, s => do
      let (stmt, s) ← pColumn stmt s
      match pKeyword [","] s with
      | some s => columnLoop n stmt s
      | none => return (stmt, s)

def pColumns (stmt : QLCreateTable) : Production QLCreateTable := fun s => do
  let (stmt, s) ← columnLoop (s.length + 1) stmt s
  return (stmt, expect ")" s)

def pCreateTable : Production QLCreateTable := fun s =>
  let (table, s) := pMustSym s
  ifKeyword ["("] (pColumns { table }) { table } s

/-- The table and the columns of an index. -/
def pIndexOn (stmt : QLCreateIndex) : Production QLCreateIndex := fun s => do
  let (table, s) := pMustSym s
  let (keys, s) ← ifKeyword ["("] pNames [] s
  return ({ stmt with table, keys }, s)

def pCreateIndex : Production QLCreateIndex := fun s => do
  let (unique, s) ← ifKeyword ["unique"] (fun s => .ok (true, s)) false s
  let (name, s) := pMustSym s
  ifKeyword ["on"] (pIndexOn { name, unique }) { name, unique } s

/-- The name shown and selected; an alias replaces it in both. -/
def pSelectExpr : Production Bytes := fun s =>
  match pKeyword ["*"] s with
  | some s => .ok (lit "*", s)
  | none =>
      let (name, s) := pMustSym s
      ifKeyword ["as"] symbol name s

def pIndexBy (node : QLScan) : Production QLScan := fun s => do
  let (key1, s) ← pExprCmp s
  match firstKeyword [(["and"], ()), ([","], ())] s with
  | none => return ({ node with key1 }, s)
  | some (_, s) =>
      let (key2, s) ← pExprCmp s
      return ({ node with key1, key2 }, s)

/-- A number that is missing leaves the field as it was. -/
def pNumOr (i : Int64) : Production Int64 := fun s =>
  let (n, s) := pNum s
  .ok (n.getD i, s)

def pLimit (node : QLScan) : Production QLScan := fun s => do
  let (limit, s) ← pNumOr node.limit s
  let (offset, s) ← ifKeyword ["offset"] (pNumOr node.offset) node.offset s
  return ({ node with limit, offset }, s)

def pScan (node : QLScan) : Production QLScan := fun s => do
  let (node, s) ← ifKeyword ["index", "by"] (pIndexBy node) node s
  let (filter, s) ← ifKeyword ["filter"] pExprOr node.filter s
  let node := { node with filter, offset := 0, limit := Int64.maxValue }
  ifKeyword ["limit"] (pLimit node) node s

/-- The table of a SELECT and what follows it. -/
def pFrom : Production QLScan := fun s =>
  let (table, s) := pMustSym s
  pScan { table } s

def pSelect : Production QLSelect := fun s => do
  let (names, s) ← commaList pSelectExpr s
  let output := names.map fun name => ({ type := .ident, str := name } : QLNode)
  let (scan, s) ← ifKeyword ["from"] pFrom {} s
  return ({ scan with names, output }, s)

def pInsert : Production QLInsert := fun s => do
  let (table, s) := pMustSym s
  let (names, s) ← ifKeyword ["("] pNames [] s
  let (values, s) ← commaList pExprOr (expect "(" (expect "values" s))
  return ({ table, names, values }, expect ")" s)

/-- One assignment of an UPDATE. -/
def pAssign : Production (Bytes × QLNode) := fun s => do
  let (name, s) := pMustSym s
  let (value, s) ← pExprOr (expect "=" s)
  return ((name, value), s)

def pUpdate : Production QLUpdate := fun s => do
  let (table, s) := pMustSym s
  let (assigns, s) ← commaList pAssign (expect "set" s)
  let (scan, s) ← pScan { table } (expect "where" s)
  return ({ scan with names := assigns.map Prod.fst, values := assigns.map Prod.snd }, s)

/-- Without a WHERE the scan keeps its zero limit. -/
def pDelete : Production QLDelete := fun s => do
  let (table, s) := pMustSym s
  let (scan, s) ← ifKeyword ["where"] (pScan { table }) { table } s
  return ({ scan with }, s)

/-- The cases of the switch of `pStmt`. -/
inductive StmtKind where
  | createTable
  | createIndex
  | select
  | insert
  | update
  | delete
  | explain
  | begin
  | commit
  | abort

def stmtKinds : List (List String × StmtKind) :=
  [(["create", "table"], .createTable), (["create", "index"], .createIndex),
    (["select"], .select), (["insert", "into"], .insert), (["update"], .update),
    (["delete", "from"], .delete), (["explain"], .explain), (["begin"], .begin),
    (["commit"], .commit), (["abort"], .abort)]

/-- A production as one of the statements. -/
def asStmt {α : Type} (wrap : α → Stmt) (p : Production α) : Production Stmt := fun s => do
  let (a, s) ← p s
  return (wrap a, s)

def pStmt : Production Stmt := fun s =>
  match firstKeyword stmtKinds s with
  | none => .ok (.unknown (restText s), s)
  | some (.createTable, s) => asStmt .createTable pCreateTable s
  | some (.createIndex, s) => asStmt .createIndex pCreateIndex s
  | some (.select, s) => asStmt .select pSelect s
  | some (.insert, s) => asStmt .insert pInsert s
  | some (.update, s) => asStmt .update pUpdate s
  | some (.delete, s) => asStmt .delete pDelete s
  | some (.explain, s) => asStmt .explain pSelect s
  | some (.begin, s) => .ok (.text "BEGIN", s)
  | some (.commit, s) => .ok (.text "COMMIT", s)
  | some (.abort, s) => .ok (.text "ABORT", s)

/-- The statement, or the input that was left behind it. -/
def parse (input : Bytes) : Except Fault (Except Bytes Stmt) := do
  let (result, s) ← pStmt input
  let s := skipWS s
  if s ≠ [] then return .error (restText s) else return .ok result

end Svacara.Sql
