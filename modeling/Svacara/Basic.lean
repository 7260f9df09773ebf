/-
What the whole development shares: byte strings, page pointers, the
order in which a Go map is walked, and the ways in which a call of the
engine can end other than by returning.

A Go panic, a SIGBUS on a mapped page behind the end of the file and a
page callback that does not return all end the call that hit them, so
each function that can hit one returns `Except Fault`. The faults are
kept apart because the properties are about some of them only: an index
out of range is a defect of the tree code, a page store that has no
pointer left to hand out is not.
-/
import Svacara.Lib.Bytes

namespace Svacara

/-- A Go `[]byte` whose capacity nobody looks at. -/
abbrev Bytes := List UInt8

/-- The bytes of a string of the source. -/
def lit (s : String) : Bytes := s.toUTF8.toList

/-- A page number, `uint64` in every structure of the engine. -/
abbrev Ptr := UInt64

/-- How a call ends when it does not return. -/
inductive Fault where
  /-- an index or slice bound out of range -/
  | index
  /-- an explicit `panic` with its text -/
  | panic (msg : String)
  /-- `NewPage` had no pointer to return -/
  | noPage
  /-- `DelPage` on a page that is not allocated -/
  | doubleFree
  /-- a mapped page behind the end of the file was touched (SIGBUS) -/
  | pastEof
  /-- the loop or recursion was cut off by the model's fuel -/
  | fuel
  deriving DecidableEq, Repr

/-- Fuel that has to cover something is not used up. -/
theorem exists_fuel {n fuel : Nat} (h : n < fuel) : ∃ k, fuel = k + 1 := ⟨fuel - 1, by omega⟩

/-- `make([]byte, n)`. -/
def make (n : Nat) : Bytes := List.replicate n 0

@[simp] theorem length_make (n : Nat) : (make n).length = n :=
  List.length_replicate

/-- An order in which a range loop over a Go map may visit its entries. -/
structure Visit (α : Type) where
  order : List α → List α
  perm : ∀ l, (order l).Perm l

def Visit.inOrder {α : Type} : Visit α := ⟨id, fun _ => List.Perm.refl _⟩

end Svacara
