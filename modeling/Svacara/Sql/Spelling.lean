/-
The tokens of a run, and layout between them.

`spelled` is the parser with its tokens as the log: where each begins and
what is left behind it. The words of a keyword of several words are tokens
of their own, with a joint between them, since comments are not skipped
there. A string without a closing quote takes all of the input.

A name, a number or a string that is looked for and not found takes the
layout in front of it.

`Between` says of a place in the input that it is not inside of a token,
`Spell.Keeps` that a run of layout there breaks none of them, and
`Trailing` that the place is behind all that the statement takes.
-/
import Svacara.Sql.Interface
import Svacara.Sql.Layout

namespace Svacara.Sql

/-- A place of the input is named by what is left there. -/
inductive Spell where
  /-- a token from `s` to `t` -/
  | token (s t : Bytes)
  /-- between two words of one keyword -/
  | joint (s t : Bytes)
  /-- a string from `s` that does not end -/
  | unclosed (s : Bytes)
  /-- a name, a number or a string that was looked for from `s` on and not
  found: the layout there has been taken all the same -/
  | nothing (s : Bytes)
deriving DecidableEq

/-- The words of keywords that are there. -/
def wordSpells : List String → Bytes → List Spell
  | [], _ => []
  | kw :: kws, s =>
      match matchWord (lit kw) (skipWS s) with
      | none => []
      | some t =>
          .token (skipWS s) t :: (if kws = [] then [] else [.joint t (skipWS t)])
            ++ wordSpells kws t

/-- A production with its tokens. -/
abbrev Spelled (α : Type) := Logged Fault Bytes Spell α

namespace Spelled

def pKeyword (kws : List String) : Spelled Bool := fun s =>
  match Sql.pKeyword kws s with
  | some t => .ok ((true, t), wordSpells kws (skipComments s))
  | none => .ok ((false, s), [])

/-- A token from where the layout ends, or nothing. -/
def tokenSpells (found : Bool) (s t : Bytes) : List Spell :=
  if found then [.token (skipComments s) t] else [.nothing s]

def pMustSym : Spelled Bytes := fun s =>
  .ok (Sql.pMustSym s, tokenSpells (!(Sql.pMustSym s).1.isEmpty) s (Sql.pMustSym s).2)

def pNum : Spelled (Option Int64) := fun s =>
  .ok (Sql.pNum s, tokenSpells (Sql.pNum s).1.isSome s (Sql.pNum s).2)

/-- A quote that is not closed is not a token. -/
def strSpells (s : Bytes) : List Spell :=
  let quote := peek (skipComments s)
  if (Sql.pStr s).1.isNone && (quote = 39 || quote = 34) then [.unclosed (skipComments s)]
  else tokenSpells (Sql.pStr s).1.isSome s (Sql.pStr s).2

def pStr : Spelled (Option Bytes) := fun s => .ok (Sql.pStr s, strSpells s)

end Spelled

/-- Blanks only. -/
def Blank (x : Bytes) : Prop := ∀ b ∈ x, isWS b = true

/-- Behind the text `p` and before `u` is not inside of a comment, also not
between its dashes. The last comment of an input may be one that does not
end. -/
structure Uncommented (p u : Bytes) : Prop where
  gap : skipComments p = [] → Gap p ∨ u = []
  dash : skipComments p = [45] → peek u ≠ 45

/-- The place with `u` left is not inside of the token, nor of a comment
behind it. -/
def Spell.Outside (u : Bytes) : Spell → Prop
  | .token s t => s.length ≤ u.length ∨ ∃ p, t = p ++ u ∧ Uncommented p u
  | .joint _ _ => True
  | .unclosed s => s.length ≤ u.length ∨ u = []
  | .nothing _ => True

/-- The layout `x` does no harm at the place with `u` left: it is not a
comment directly behind a dash, which would begin it, nor one in the joint
of a keyword, and it does not close a string. -/
def Spell.Keeps (x u : Bytes) : Spell → Prop
  | .token _ t => ∀ p, t = p ++ u → skipComments p = [45] → peek x ≠ 45
  | .joint s t => t.length ≤ u.length → u.length ≤ s.length → Blank x
  | .unclosed s => s.length ≤ u.length ∨ peek s ∉ x
  | .nothing _ => True

/-- The parser has gone past the place with `u` left without a token behind
it: it has looked for one from within the layout before the place, or a
string has taken all of the input. -/
def Spell.Passes (u : Bytes) : Spell → Prop
  | .unclosed _ => u = []
  | .nothing s => ∃ p, s = p ++ u ∧ skipComments p = []
  | _ => False

end Svacara.Sql
