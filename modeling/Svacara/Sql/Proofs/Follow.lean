/-
Which tokens can follow which phrases.

The parser takes a phrase to its end where the next token is none of the
keywords that the phrase would go on with. What these keywords are is
listed for each level of expressions; that the tokens that do follow
differ from them is checked by comparing the words, here for all of the
grammar.
-/
import Svacara.Sql.Proofs.Tokens

namespace Svacara.Sql.Traced

/-- The keywords that an operand, and each level of expressions, goes on
with. -/
def atomStops : List (List String) := [["("]]

def mulStops : List (List String) := mulOps.map Prod.fst ++ atomStops

def addStops : List (List String) := addOps.map Prod.fst ++ mulStops

def cmpStops : List (List String) := cmpOps.map Prod.fst ++ addStops

def andStops : List (List String) := [(["and"], QLType.and)].map Prod.fst ++ cmpStops

def orStops : List (List String) := [(["or"], QLType.or)].map Prod.fst ++ andStops

/-- What may stand between two keys. -/
def keySeps : List (List String × Unit) := [(["and"], ()), ([","], ())]

/-- The tokens that can follow a phrase are none of those that it would go
on with. -/
structure Follow : Prop where
  mul_opens : ∀ c ∈ mulOps, Opens c.1
  add_opens : ∀ c ∈ addOps, Opens c.1
  cmp_opens : ∀ c ∈ cmpOps, Opens c.1
  and_opens : ∀ c ∈ [(["and"], QLType.and)], Opens c.1
  or_opens : ∀ c ∈ [(["or"], QLType.or)], Opens c.1
  atom_mul : Clear atomStops (mulOps.map Prod.fst)
  mul_add : Clear mulStops (addOps.map Prod.fst)
  add_cmp : Clear addStops (cmpOps.map Prod.fst)
  cmp_and : Clear cmpStops ([(["and"], QLType.and)].map Prod.fst)
  and_or : Clear andStops ([(["or"], QLType.or)].map Prod.fst)
  expr : Clear orStops [[","], [")"], ["limit"]]
  exprs : Clear ([","] :: orStops) [[")"], ["where"]]
  names : Clear [[","]] [[")"]]
  item : Clear [["as"]] [[","]]
  items : Clear [[","], ["as"]] [["from"]]
  column : Clear (colTypes.map Prod.fst) [[","]]
  columns : Clear ([","] :: colTypes.map Prod.fst) [[")"]]
  key : Clear cmpStops (keySeps.map Prod.fst)
  keys : Clear (keySeps.map Prod.fst ++ cmpStops) [["filter"], ["limit"]]
  index : Clear [["index", "by"]] [["filter"], ["limit"]]
  filter : Clear [["filter"]] [["limit"]]
  scan_ends : ∀ kws ∈ [["limit"], ["offset"], ["where"]], Opens kws
  not_group : Clear [["not"]] [["("]]
  close : Clear [[")"]] [["not"], ["("]]
  bracket_values : Clear [["("]] [["values"]]
  unmarked : ∀ kw ∈ ["not", "(", ")", "offset"], Unmarked kw
  punctuation : ∀ kw ∈ ["(", ")", "*"], Punctuation kw

/-- Checked by comparing the words. -/
theorem follow : Follow := by
  constructor <;> decide +kernel

end Svacara.Sql.Traced
