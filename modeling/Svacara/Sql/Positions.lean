/-
`internal/sql/parser.go` with its positions.

The parser of `Parser.lean` has the input that is left as its state. Here
the state is `p.pos`, the input is fixed, and an index outside of it is a
fault, as it is a panic in the source. Every byte that is read, every
slice that is taken and every value that `pos` is set to is logged, so
that what holds throughout a run is a statement about its log.

Only the tokens are written here; `positions` is what the productions of
`Interface.lean` use of them.
-/
import Svacara.Sql.Interface

namespace Svacara.Sql

/-- What the parser does to its input and its position. -/
inductive Access where
  /-- `p.input[i]` -/
  | read (i : Nat)
  /-- `p.input[lo:hi]` -/
  | slice (lo hi : Nat)
  /-- `p.pos` was set -/
  | moved (pos : Nat)
deriving DecidableEq

/-- Nothing outside of the input. -/
def Access.Inside (input : Bytes) : Access → Prop
  | .read i => i < input.length
  | .slice lo hi => lo ≤ hi ∧ hi ≤ input.length
  | .moved pos => pos ≤ input.length

/-- A production on a position. -/
abbrev Located (α : Type) := Logged Fault Nat Access α

namespace Located

variable {α : Type} (input : Bytes)

-- ======================================================= the input

def readAt (i : Nat) : Located UInt8 := fun pos =>
  match input[i]? with
  | some b => .ok ((b, pos), [.read i])
  | none => .error .index

def slice (lo hi : Nat) : Located Bytes := fun pos =>
  if lo ≤ hi ∧ hi ≤ input.length then
    .ok (((input.drop lo).take (hi - lo), pos), [.slice lo hi])
  else .error .index

/-- `p.pos = pos`. -/
def move (pos : Nat) : Located Unit := fun _ => .ok (((), pos), [.moved pos])

def peek : Located UInt8 := do
  let pos ← Logged.get
  if input.length ≤ pos then return 0 else readAt input pos

def next : Located UInt8 := do
  let pos ← Logged.get
  if input.length ≤ pos then return 0
  else
    let b ← readAt input pos
    move (pos + 1)
    return b

/-- The loops of `skipWS` and of the end of a comment. -/
def skipWhile (skipped : UInt8 → Bool) : Nat → Located Unit
  | 0 => Logged.fail .fuel
  | n + 1 => do
      let pos ← Logged.get
      if pos < input.length then
        let b ← readAt input pos
        if skipped b then
          move (pos + 1)
          skipWhile skipped n
        else return ()
      else return ()

def skipWS : Located Unit := skipWhile input isWS (input.length + 1)

def skipLoop : Nat → Located Unit
  | 0 => Logged.fail .fuel
  | n + 1 => do
      let pos ← Logged.get
      if pos + 1 < input.length then
        let a ← readAt input pos
        -- the second byte is read only behind a dash
        if a = 45 then
          let b ← readAt input (pos + 1)
          if b = 45 then
            skipWhile input (fun c => c ≠ 10) (input.length + 1)
            skipWS input
            skipLoop n
          else return ()
        else return ()
      else return ()

def skipComments : Located Unit := do
  skipWS input
  skipLoop input (input.length + 1)

def matchWord : Bytes → Located Bool
  | [] => return true
  | c :: kw => do
      let b ← peek input
      if lower b = c then
        let _ ← next input
        matchWord kw
      else return false

def matchWords : List String → Located Bool
  | [] => return true
  | kw :: kws => do
      skipWS input
      if ← matchWord input (lit kw) then matchWords kws else return false

def pKeyword (kws : List String) : Located Bool := do
  let saved ← Logged.get
  skipComments input
  if ← matchWords input kws then return true
  else
    move saved
    return false

/-- The loops of `pMustSym` and `pNum`. -/
def nextWhile (taken : UInt8 → Bool) : Nat → Located Unit
  | 0 => Logged.fail .fuel
  | n + 1 => do
      let b ← peek input
      if taken b then
        let _ ← next input
        nextWhile taken n
      else return ()

def pMustSym : Located Bytes := do
  skipComments input
  let start ← Logged.get
  nextWhile input isSym (input.length + 1)
  let pos ← Logged.get
  if pos = start then return [] else slice input start pos

/-- `strconv.ParseInt` of a slice that may start with a dash. -/
def parseSlice (digits : Bytes) : Int64 :=
  if Sql.peek digits = 45 then parseInt true digits.tail else parseInt false digits

/-- `pNum` behind the dash, if there was one: without a digit the position
goes back to the start. -/
def pDigits (start : Nat) (neg : Bool) : Located (Option Int64) := do
  nextWhile input isDigit (input.length + 1)
  let pos ← Logged.get
  if pos = start ∨ (neg ∧ pos = start + 1) then
    move start
    return none
  else
    let digits ← slice input start pos
    return some (parseSlice digits)

def pNum : Located (Option Int64) := do
  skipComments input
  let start ← Logged.get
  let b ← peek input
  if b = 45 then
    let _ ← next input
    pDigits input start true
  else pDigits input start false

def strLoop (quote : UInt8) : Nat → Bytes → Located (Option Bytes)
  | 0, _ => Logged.fail .fuel
  | n + 1, out => do
      let pos ← Logged.get
      if pos < input.length then
        let b ← next input
        if b = quote then return some out
        else
          let pos ← Logged.get
          if b = 92 ∧ pos < input.length then
            let c ← next input
            strLoop quote n (out ++ [c])
          else strLoop quote n (out ++ [b])
      else return none

def pStr : Located (Option Bytes) := do
  skipComments input
  let b ← peek input
  if b = 39 ∨ b = 34 then
    let quote ← next input
    strLoop input quote (input.length + 1) []
  else return none

/-- `p.rest()`. -/
def rest : Located Bytes := do
  let pos ← Logged.get
  if input.length ≤ pos then return lit "<EOF>"
  else
    let r ← slice input pos input.length
    return if 30 < r.length then r.take 30 ++ lit "..." else r

-- ========================================================== tokens

/-- The message of the error reads what is left. -/
def pExpect (kw : String) : Located Bool := do
  if ← pKeyword input [kw] then return true
  else
    let _ ← rest input
    return false

end Located

/-- The tokens on positions. -/
def positions (input : Bytes) : TokenOps Nat Access where
  keyword := Located.pKeyword input
  expect := Located.pExpect input
  name := Located.pMustSym input
  num := Located.pNum input
  str := Located.pStr input
  noOperand := pure {}
  rest := Located.rest input
  room := fun pos => input.length - pos

namespace Located

variable (input : Bytes)

/-- `Parse`: the statement, or the input that was left behind it. -/
def parse : Located (Except Bytes Stmt) := do
  let result ← (positions input).pStmt
  skipWS input
  let pos ← Logged.get
  if pos < input.length then
    let text ← rest input
    return .error text
  else return .ok result

end Located

end Svacara.Sql
