/-
The parser with a log of what it does to the tokens.

`traced` are the tokens on what is left of the input. They log the
keywords that were matched, the keywords that were expected, the names and
numbers that were read and the operands that were missing, each with the
input that was left at the call. The productions over them are those of
the parser, without the log (`erase_pStmt` and the lemmas before it).

An event is sound if the token is what the call asked for.
-/
import Svacara.Sql.Interface

namespace Svacara.Sql

open Grammar

/-- A call, and the input that was left when it was made. -/
inductive Event where
  /-- `pKeyword` matched -/
  | keyword (kws : List String) (s : Bytes)
  /-- `pExpect` was called -/
  | expected (kw : String) (s : Bytes)
  /-- `pMustSym` was called -/
  | name (s : Bytes)
  /-- `pNum` was called -/
  | number (s : Bytes)
  /-- `pExprAtom` returned the node without a type -/
  | noOperand

/-- What the number at the beginning of the text shows. -/
def shown (s : Bytes) : Int :=
  let neg := peek s = 45
  signed neg (numeral ((if neg then s.tail else s).takeWhile isDigit))

/-- A matched keyword is a whole word, an expected one is there, a name
and an operand are not empty, and a number that is returned is the one
that is written. -/
def Event.Sound : Event → Prop
  | .keyword kws s => wholeWords kws (skipComments s) = true
  | .expected kw s => (pKeyword [kw] s).isSome = true
  | .name s => (pMustSym s).1 ≠ []
  | .number s => ∀ n ∈ (pNum s).1, n.toInt = shown (skipComments s)
  | .noOperand => False

instance : (e : Event) → Decidable e.Sound
  | .keyword _ _ => inferInstanceAs (Decidable (_ = true))
  | .expected _ _ => inferInstanceAs (Decidable (_ = true))
  | .name s => inferInstanceAs (Decidable ((pMustSym s).1 ≠ []))
  -- not by trying every `Int64`
  | .number s =>
      Option.decidableForallMem (p := fun n : Int64 => n.toInt = shown (skipComments s)) (pNum s).1
  | .noOperand => inferInstanceAs (Decidable False)

/-- A production with its log. -/
abbrev Traced (α : Type) := Logged Fault Bytes Event α

/-- The phrases that a production reads with nothing but sound events. -/
def Reads {α : Type} (p : Traced α) : Phrase α := Logged.Clean Event.Sound p

/-- The tokens of the parser. -/
def traced : TokenOps Bytes Event where
  keyword kws s :=
    match pKeyword kws s with
    | some t => .ok ((true, t), [.keyword kws s])
    | none => .ok ((false, s), [])
  expect kw s :=
    match pKeyword [kw] s with
    | some t => .ok ((true, t), [.expected kw s, .keyword [kw] s])
    | none => .ok ((false, s), [.expected kw s])
  name s := .ok (pMustSym s, [.name s])
  num s := .ok (pNum s, [.number s])
  str s := .ok (pStr s, [])
  noOperand s := .ok (({}, s), [.noOperand])
  rest s := .ok ((restText s, s), [])
  room := List.length

/-- What the parser logs on an input. -/
def events (input : Bytes) : List Event :=
  match traced.pStmt input with
  | .ok (_, log) => log
  | .error _ => []

end Svacara.Sql
