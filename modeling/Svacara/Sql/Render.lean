/-
INSERT statements as text.

Expressions are written with one blank on each side of an operator, with
operators and NOT in brackets where they are operands, and with
arguments and values set apart by a comma and a blank. A string stands in
single quotes, with a backslash before each quote and each backslash.

`Renderable` says which statements are written: names are names, and the
values are trees over the literals, identifiers, calls and operators of
the expression language. Those that are left out have no text that the
parser could read: an identifier that begins with a digit or with the
letters of NOT, a function's name with an upper-case letter, a node whose
type has no expression.
-/
import Svacara.Sql.Parser
import Mathlib.Data.Nat.Digits.Defs
import Mathlib.Tactic.MkIffOfInductiveProp

namespace Svacara.Sql

-- ======================================================== literals

/-- A natural number in decimal. -/
def decimal (n : Nat) : Bytes :=
  if n = 0 then [48] else (Nat.digits 10 n).reverse.map fun d => (48 + d).toUInt8

def renderInt (i : Int64) : Bytes :=
  (if i.toInt < 0 then [45] else []) ++ decimal i.toInt.natAbs

/-- A quote and a backslash have a backslash before them. -/
def escape (b : UInt8) : Bytes := if b = 39 ∨ b = 92 then [92, b] else [b]

def renderStr (str : Bytes) : Bytes := 39 :: (str.flatMap escape ++ [39])

-- ===================================================== expressions

/-- The operators with two operands, as they are written. -/
def operators : List (QLType × String) :=
  [(.mul, "*"), (.div, "/"), (.mod, "%"), (.add, "+"), (.sub, "-"), (.le, "<="), (.ge, ">="),
    (.ne, "!="), (.eq, "="), (.lt, "<"), (.gt, ">"), (.like, "LIKE"), (.and, "AND"), (.or, "OR")]

/-- Whether an expression is put in brackets as an operand. -/
def QLType.isCompound (type : QLType) : Bool := type = .not || (operators.lookup type).isSome

/-- The text of an operand, given its text as an expression. -/
def bracketed (e : QLNode) (text : Bytes) : Bytes :=
  if e.type.isCompound then lit "(" ++ text ++ lit ")" else text

def commas : List Bytes → Bytes
  | [] => []
  | [text] => text
  | text :: texts => text ++ lit ", " ++ commas texts

mutual

def render : QLNode → Bytes
  | ⟨.i64, i, _, _⟩ => renderInt i
  | ⟨.str, _, str, _⟩ => renderStr str
  | ⟨.ident, _, name, _⟩ => name
  | ⟨.func, _, name, kids⟩ => name ++ lit "(" ++ commas (renderAll kids) ++ lit ")"
  | ⟨.not, _, _, [kid]⟩ => lit "NOT " ++ bracketed kid (render kid)
  | ⟨type, _, _, [left, right]⟩ =>
      bracketed left (render left) ++ lit " " ++ lit ((operators.lookup type).getD "") ++
        lit " " ++ bracketed right (render right)
  | _ => []

def renderAll : List QLNode → List Bytes
  | [] => []
  | e :: es => render e :: renderAll es

end

/-- An expression as an operand of another. -/
def operand (e : QLNode) : Bytes := bracketed e (render e)

def renderInsert (stmt : QLInsert) : Bytes :=
  lit "INSERT INTO " ++ stmt.table ++ lit " (" ++ commas stmt.names ++ lit ") VALUES (" ++
    commas (stmt.values.map render) ++ lit ")"

-- ================================================= what is written

/-- A word over letters, digits, `_` and `@` that does not begin with a
digit. -/
@[mk_iff] structure IsName (name : Bytes) : Prop where
  nonempty : name ≠ []
  symbols : name.all isSym = true
  no_digit : isDigit (peek name) = false

instance (name : Bytes) : Decidable (IsName name) := decidable_of_iff' _ (isName_iff name)

/-- A name that does not begin with the letters of NOT. -/
@[mk_iff] structure IsIdent (name : Bytes) : Prop extends IsName name where
  no_not : (name.take 3).map lower ≠ lit "not"

instance (name : Bytes) : Decidable (IsIdent name) := decidable_of_iff' _ (isIdent_iff name)

/-- The expressions. -/
inductive Expression : QLNode → Prop where
  | int (i : Int64) : Expression { type := .i64, i64 := i }
  | str (str : Bytes) : Expression { type := .str, str }
  | ident {name} : IsIdent name → Expression { type := .ident, str := name }
  | call {name kids} : IsIdent name → name.map lower = name → (∀ kid ∈ kids, Expression kid) →
      Expression { type := .func, str := name, kids }
  | not {kid} : Expression kid → Expression { type := .not, kids := [kid] }
  | binary {op text left right} : (op, text) ∈ operators → Expression left → Expression right →
      Expression { type := op, kids := [left, right] }

structure Renderable (stmt : QLInsert) : Prop where
  table : IsName stmt.table
  named : stmt.names ≠ []
  names : ∀ name ∈ stmt.names, IsName name
  valued : stmt.values ≠ []
  values : ∀ e ∈ stmt.values, Expression e

end Svacara.Sql
