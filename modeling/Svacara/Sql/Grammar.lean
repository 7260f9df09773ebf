/-
The grammar that the productions of the parser spell out.

A phrase is a relation between a text, a value and a text: the first text
begins with a phrase for the value, and the second is what follows. The
rules say only what stands in the text, and nothing about the order in
which a parser tries its cases: every token that is asked for is there,
keywords are whole words, names and operands are not empty, numbers have
the value they show.

# Names

A name is a whole run of symbol characters. Three rules restrict it
further. A name that is an operand does not begin with a digit or with
the letters of NOT; a column's name does not begin with the letters of
PRIMARY KEY; and where UNIQUE is left out, the name of an index does not
begin with these letters.

# Nesting

An expression in brackets contains expressions, so the rules for operands
are indexed by the depth that they may have.
-/
import Svacara.Sql.Parser

namespace Svacara.Sql.Grammar

/-- A phrase for a value stands at the beginning of the first text, and
the second text follows it. -/
abbrev Phrase (α : Type) := Bytes → α → Bytes → Prop

variable {α : Type}

-- ========================================================== tokens

/-- A keyword made of letters is not followed by a symbol character. -/
def endsWord (kw : String) (t : Bytes) : Bool :=
  !isSym ((lit kw).getLastD 0) || !isSym (peek t)

/-- Each of the keywords is there and ends a word. -/
def wholeWords : List String → Bytes → Bool
  | [], _ => true
  | kw :: kws, s =>
      match matchWord (lit kw) (skipWS s) with
      | none => false
      | some t => endsWord kw t && wholeWords kws t

/-- The keywords, as whole words. -/
def Word (kws : List String) (s t : Bytes) : Prop :=
  pKeyword kws s = some t ∧ wholeWords kws (skipComments s) = true

/-- The first of the cases whose keywords are there, as whole words. -/
inductive First : List (List String × α) → Phrase α where
  | here {kws cases s a t} : Word kws s t → First ((kws, a) :: cases) s a t
  | there {kws b cases s a t} :
      pKeyword kws s = none → First cases s a t → First ((kws, b) :: cases) s a t

/-- A whole run of symbol characters. -/
def Name : Phrase Bytes := fun s name t =>
  skipComments s = name ++ t ∧ name ≠ [] ∧ (∀ b ∈ name, isSym b = true) ∧
    isSym (peek t) = false

/-- The number that digits show. -/
def numeral (digits : Bytes) : Int :=
  digits.foldl (fun n d => n * 10 + (d.toNat - 48 : Nat)) 0

def signed (neg : Bool) (n : Int) : Int := if neg then -n else n

/-- A whole run of digits, with a minus sign or not, and its value. -/
def Number : Phrase Int64 := fun s i t =>
  ∃ neg digits, skipComments s = (if neg then [45] else []) ++ digits ++ t ∧ digits ≠ [] ∧
    (∀ b ∈ digits, isDigit b = true) ∧ isDigit (peek t) = false ∧
    i.toInt = signed neg (numeral digits)

/-- What stands before the closing quote, with backslashes resolved. -/
inductive Chars (quote : UInt8) : Phrase Bytes where
  | close {t} : Chars quote (quote :: t) [] t
  | escape {c s str t} : Chars quote s str t → Chars quote (92 :: c :: s) (c :: str) t
  | plain {b s str t} : b ≠ quote → b ≠ 92 → Chars quote s str t →
      Chars quote (b :: s) (b :: str) t

def Str : Phrase Bytes := fun s str t =>
  ∃ quote body, (quote = 39 ∨ quote = 34) ∧ skipComments s = quote :: body ∧
    Chars quote body str t

-- ==================================================== combinations

/-- Something behind keywords, or neither. -/
inductive Optional (kws : List String) (p : Phrase α) (a : α) : Phrase α where
  | given {s u b t} : Word kws s u → p u b t → Optional kws p a s b t
  | absent {s} : Optional kws p a s a s

/-- Items with commas between them. -/
inductive Items (item : Phrase α) : Phrase (List α) where
  | last {s a t} : item s a t → Items item s [a] t
  | more {s a u v as t} : item s a u → Word [","] u v → Items item v as t →
      Items item s (a :: as) t

/-- Operators and operands behind a first one, from left to right. -/
inductive ChainTail (ops : List (List String × QLType)) (operand : Phrase QLNode) :
    QLNode → Phrase QLNode where
  | done {left s} : ChainTail ops operand left s left s
  | more {left s op u right v e t} : First ops s op u → operand u right v →
      ChainTail ops operand { type := op, kids := [left, right] } v e t →
      ChainTail ops operand left s e t

def Chain (ops : List (List String × QLType)) (operand : Phrase QLNode) : Phrase QLNode :=
  fun s e t => ∃ left u, operand s left u ∧ ChainTail ops operand left u e t

-- ===================================================== expressions

section

variable (atom : Phrase QLNode)

def ExprMul : Phrase QLNode := Chain mulOps atom

def ExprAdd : Phrase QLNode := Chain addOps (ExprMul atom)

inductive ExprCmp : Phrase QLNode where
  | one {s e t} : ExprAdd atom s e t → ExprCmp s e t
  | two {s left u op v right t} : ExprAdd atom s left u → First cmpOps u op v →
      ExprAdd atom v right t → ExprCmp s { type := op, kids := [left, right] } t

def ExprAnd : Phrase QLNode := Chain [(["and"], .and)] (ExprCmp atom)

def ExprOr : Phrase QLNode := Chain [(["or"], .or)] (ExprAnd atom)

end

/-- The arguments of a function, behind its opening bracket. -/
inductive Args (expr : Phrase QLNode) : Phrase (List QLNode) where
  | none {s t} : Word [")"] s t → Args expr s [] t
  | some {s kids u t} : Items expr s kids u → Word [")"] u t → Args expr s kids t

/-- A name that is taken neither for a number nor for NOT. -/
def OperandName : Phrase Bytes := fun s name t =>
  Name s name t ∧ isDigit (peek name) = false ∧ pKeyword ["not"] s = none

/-- The operands, given the ones that may stand inside. -/
inductive Operand (atom expr : Phrase QLNode) : Phrase QLNode where
  | not {s u kid t} : Word ["not"] s u → atom u kid t →
      Operand atom expr s { type := .not, kids := [kid] } t
  | group {s u e v t} : Word ["("] s u → expr u e v → Word [")"] v t → Operand atom expr s e t
  | number {s i t} : Number s i t → Operand atom expr s { type := .i64, i64 := i } t
  | str {s str t} : Str s str t → Operand atom expr s { type := .str, str } t
  | ident {s name t} : OperandName s name t →
      Operand atom expr s { type := .ident, str := name } t
  | call {s name u v kids t} : OperandName s name u → Word ["("] u v → Args expr v kids t →
      Operand atom expr s { type := .func, str := name.map lower, kids } t

/-- An operand with less than `depth` levels inside. -/
def Atom : Nat → Phrase QLNode
  | 0 => fun _ _ _ => False
  | depth + 1 => Operand (Atom depth) (ExprOr (Atom depth))

def Expr : Phrase QLNode := fun s e t => ∃ depth, ExprOr (Atom depth) s e t

/-- A key expression: a comparison at most. -/
def Key : Phrase QLNode := fun s e t => ∃ depth, ExprCmp (Atom depth) s e t

-- ====================================================== statements

/-- Names up to a closing bracket. -/
def Names : Phrase (List Bytes) := fun s names t =>
  ∃ u, Items Name s names u ∧ Word [")"] u t

/-- The type of a column, which may be missing. -/
inductive ColumnType : Phrase QLType where
  | given {s type t} : First colTypes s type t → ColumnType s type t
  | absent {s} : ColumnType s .unknown s

/-- A key list or a column, added to a statement. -/
inductive Column (stmt : QLCreateTable) : Phrase QLCreateTable where
  | key {s u v keys t} : Word ["primary", "key"] s u → Word ["("] u v → Names v keys t →
      Column stmt s { stmt with pkeys := stmt.pkeys ++ keys } t
  | column {s name u type t} : pKeyword ["primary", "key"] s = none → Name s name u →
      ColumnType u type t → Column stmt s { stmt with cols := stmt.cols ++ [{ name, type }] } t

inductive Columns : QLCreateTable → Phrase QLCreateTable where
  | last {stmt s stmt' t} : Column stmt s stmt' t → Columns stmt s stmt' t
  | more {stmt s mid u v stmt' t} : Column stmt s mid u → Word [","] u v →
      Columns mid v stmt' t → Columns stmt s stmt' t

def CreateTable : Phrase QLCreateTable := fun s stmt t =>
  ∃ table u v w, Name s table u ∧ Word ["("] u v ∧ Columns { table } v stmt w ∧ Word [")"] w t

inductive Unique : Phrase Bool where
  | given {s t} : Word ["unique"] s t → Unique s true t
  | absent {s} : pKeyword ["unique"] s = none → Unique s false s

def CreateIndex : Phrase QLCreateIndex := fun s stmt t =>
  ∃ unique name table keys u v w x y, Unique s unique u ∧ Name u name v ∧ Word ["on"] v w ∧
    Name w table x ∧ Word ["("] x y ∧ Names y keys t ∧ stmt = { table, name, keys, unique }

/-- An alias replaces the name it is given to. -/
inductive SelectItem : Phrase Bytes where
  | star {s t} : Word ["*"] s t → SelectItem s (lit "*") t
  | name {s name t} : Name s name t → SelectItem s name t
  | aliased {s name u v as t} : Name s name u → Word ["as"] u v → Name v as t → SelectItem s as t

inductive Keys (node : QLScan) : Phrase QLScan where
  | one {s key1 t} : Key s key1 t → Keys node s { node with key1 } t
  | two {s key1 u v key2 t} : Key s key1 u → First [(["and"], ()), ([","], ())] u () v →
      Key v key2 t → Keys node s { node with key1, key2 } t

/-- A number may be missing; layout in its place is taken. -/
inductive NumberOr (i : Int64) : Phrase Int64 where
  | given {s n t} : Number s n t → NumberOr i s n t
  | absent {s} : NumberOr i s i (skipComments s)

def Limit (node : QLScan) : Phrase QLScan := fun s node' t =>
  ∃ limit offset u, NumberOr node.limit s limit u ∧
    Optional ["offset"] (NumberOr node.offset) node.offset u offset t ∧
    node' = { node with limit, offset }

/-- A scan with all of its rows. -/
def unlimited (node : QLScan) (filter : QLNode) : QLScan :=
  { node with filter, offset := 0, limit := Int64.maxValue }

def Scan (node : QLScan) : Phrase QLScan := fun s node' t =>
  ∃ keyed filter u v, Optional ["index", "by"] (Keys node) node s keyed u ∧
    Optional ["filter"] Expr keyed.filter u filter v ∧
    Optional ["limit"] (Limit (unlimited keyed filter)) (unlimited keyed filter) v node' t

def Select : Phrase QLSelect := fun s stmt t =>
  ∃ names table scan u v w, Items SelectItem s names u ∧ Word ["from"] u v ∧
    Name v table w ∧ Scan { table } w scan t ∧
    stmt = { scan with
      names, output := names.map fun name => ({ type := .ident, str := name } : QLNode) }

def Insert : Phrase QLInsert := fun s stmt t =>
  ∃ table names values u v w x y, Name s table u ∧ Optional ["("] Names [] u names v ∧
    Word ["values"] v w ∧ Word ["("] w x ∧ Items Expr x values y ∧ Word [")"] y t ∧
    stmt = { table, names, values }

def Assign : Phrase (Bytes × QLNode) := fun s assign t =>
  ∃ u v, Name s assign.1 u ∧ Word ["="] u v ∧ Expr v assign.2 t

def Update : Phrase QLUpdate := fun s stmt t =>
  ∃ table assigns scan u v w x, Name s table u ∧ Word ["set"] u v ∧ Items Assign v assigns w ∧
    Word ["where"] w x ∧ Scan { table } x scan t ∧
    stmt = { scan with names := assigns.map Prod.fst, values := assigns.map Prod.snd }

def Delete : Phrase QLDelete := fun s stmt t =>
  ∃ table scan u, Name s table u ∧ Optional ["where"] (Scan { table }) { table } u scan t ∧
    stmt = { scan with }

inductive Statement : Phrase Stmt where
  | createTable {s u stmt t} : First stmtKinds s .createTable u → CreateTable u stmt t →
      Statement s (.createTable stmt) t
  | createIndex {s u stmt t} : First stmtKinds s .createIndex u → CreateIndex u stmt t →
      Statement s (.createIndex stmt) t
  | select {s u stmt t} : First stmtKinds s .select u → Select u stmt t →
      Statement s (.select stmt) t
  | insert {s u stmt t} : First stmtKinds s .insert u → Insert u stmt t →
      Statement s (.insert stmt) t
  | update {s u stmt t} : First stmtKinds s .update u → Update u stmt t →
      Statement s (.update stmt) t
  | delete {s u stmt t} : First stmtKinds s .delete u → Delete u stmt t →
      Statement s (.delete stmt) t
  /-- EXPLAIN stands in the place of SELECT -/
  | explain {s u stmt t} : First stmtKinds s .explain u → Select u stmt t →
      Statement s (.explain stmt) t
  | begin {s t} : First stmtKinds s .begin t → Statement s (.text "BEGIN") t
  | commit {s t} : First stmtKinds s .commit t → Statement s (.text "COMMIT") t
  | abort {s t} : First stmtKinds s .abort t → Statement s (.text "ABORT") t

/-- A statement with nothing but blanks behind it. -/
def Sentence (input : Bytes) (stmt : Stmt) : Prop :=
  ∃ t, Statement input stmt t ∧ skipWS t = []

end Svacara.Sql.Grammar
