/-
`internal/kvstore/types.go` and `encoding.go`: typed values as bytes.

A float is its 64-bit IEEE-754 pattern, the only thing the code looks at
apart from one comparison with zero. Decoding consumes at least the type
byte of a value in each round, so the length of the input is fuel
enough. Slicing `in[:8]` off a shorter input is a fault here; a Go slice
with spare capacity would hand out the bytes behind it instead.
-/
import Svacara.Basic
import Svacara.Lib.Bytes

namespace Svacara.Kvstore

open Buf

-- ========================================================== values

def typeInt64 : UInt8 := 1
def typeBytes : UInt8 := 2
def typeBool : UInt8 := 3
def typeFloat64 : UInt8 := 4

/-- A tagged value; `type` selects the field that counts. -/
structure Value where
  type : UInt8 := 0
  i64 : Int64 := 0
  str : Bytes := []
  bool : Bool := false
  f64 : UInt64 := 0
  deriving DecidableEq

def typeByColType (ct : UInt8) : UInt8 :=
  if ct = 1 then typeInt64
  else if ct = 2 then typeBytes
  else if ct = 3 then typeBool
  else if ct = 4 then typeFloat64
  else 0

-- ======================================================== encoding

/-- `uint64(1) << 63`. -/
def signBit : UInt64 := 0x8000000000000000

/-- `v.F64 >= 0` on the pattern: false for NaN, true for both zeros. -/
def f64NonNeg (u : UInt64) : Bool :=
  u ≤ 0x7ff0000000000000 || u == signBit

/-- What `escapeBytes` appends for one byte. -/
def escapeByte (b : UInt8) : Bytes :=
  if b = 0 then [1, 1] else if b = 1 then [1, 2] else [b]

def escapeBytes (bs : Bytes) : Bytes := bs.flatMap escapeByte

/-- One round of the loop of `EncodeValues`. -/
def encodeValue (v : Value) : Except Fault Bytes :=
  if v.type = typeInt64 then
    .ok (v.type :: beBytes 8 (v.i64.toUInt64 ^^^ signBit).toNat)
  else if v.type = typeBytes then
    .ok (v.type :: (escapeBytes v.str ++ [0]))
  else if v.type = typeBool then
    .ok (v.type :: [if v.bool then 1 else 0])
  else if v.type = typeFloat64 then
    let u := if f64NonNeg v.f64 then v.f64 ^^^ signBit else ~~~v.f64
    .ok (v.type :: beBytes 8 u.toNat)
  else .error (.panic "unknown type")

def encodeValues (out : Bytes) : List Value → Except Fault Bytes
  | [] => .ok out
  | v :: vals => do
      let b ← encodeValue v
      encodeValues (out ++ b) vals

def encodeKey (out : Bytes) (pfx : UInt32) (vals : List Value) :
    Except Fault Bytes :=
  encodeValues (out ++ beBytes 4 pfx.toNat) vals

def cmpLT : Int := -1
def cmpLE : Int := -2
def cmpEQ : Int := 0
def cmpGE : Int := 1
def cmpGT : Int := 2
def cmpNE : Int := 3

/-- The comparison codes tested are 1 and -3, as in the source. -/
def encodeKeyPartial (out : Bytes) (pfx : UInt32) (vals : List Value) (cmp : Int) :
    Except Fault Bytes := do
  let out ← encodeKey out pfx vals
  if cmp = 1 ∨ cmp = -3 then return out ++ [0xff]
  return out

-- ======================================================== decoding

/-- A 0x01 that no escape code follows stands for itself. -/
def unescapeBytes : Bytes → Bytes
  | [] => []
  | [b] => [b]
  | b :: c :: rest =>
      if b = 1 ∧ c = 1 then 0 :: unescapeBytes rest
      else if b = 1 ∧ c = 2 then 1 :: unescapeBytes rest
      else b :: unescapeBytes (c :: rest)

/-- `binary.BigEndian.Uint64(in[:8])` and the rest of the input. -/
def takeUint64 (bs : Bytes) : Except Fault (UInt64 × Bytes) :=
  if 8 ≤ bs.length then .ok (UInt64.ofNat (beNat (bs.take 8)), bs.drop 8)
  else .error .index

/-- One round of the loop of `DecodeValues`, behind the type byte. -/
def decodeValue (t : UInt8) (bs : Bytes) : Except Fault (Value × Bytes) :=
  if t = typeInt64 then do
    let (u, rest) ← takeUint64 bs
    return ({ type := t, i64 := (u ^^^ signBit).toInt64 }, rest)
  else if t = typeBytes then
    match bs.idxOf? 0 with
    | none => .error (.panic "decode: unterminated string")
    | some idx =>
        .ok ({ type := t, str := unescapeBytes (bs.take idx) }, bs.drop (idx + 1))
  else if t = typeBool then
    match bs with
    | [] => .error .index
    | b :: rest => .ok ({ type := t, bool := b != 0 }, rest)
  else if t = typeFloat64 then do
    let (u, rest) ← takeUint64 bs
    let u := if u >>> 63 = 0 then ~~~u else u ^^^ signBit
    return ({ type := t, f64 := u }, rest)
  else .error (.panic "decode: unknown type")

def decodeLoop : Nat → Bytes → List Value → Except Fault (List Value)
  | _, [], out => .ok out
  | 0, _ :: _, _ => .error .fuel
  | fuel + 1, t :: bs, out => do
      let (v, rest) ← decodeValue t bs
      decodeLoop fuel rest (out ++ [v])

/-- `DecodeValues(in, &out)`: the new content of `out`. -/
def decodeValues (bs : Bytes) (out : List Value) : Except Fault (List Value) :=
  decodeLoop bs.length bs out

end Svacara.Kvstore
