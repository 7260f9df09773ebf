/-
`internal/protocol/protocol.go`: frames and result payloads as bytes.

A frame is a type byte, the length of the payload as a big-endian uint32
and the payload. Both length fields are conversions of an int, so they
keep the low 32 or 16 bits of it, and the slice bounds of the decoders
are sums in the width of the field that was read.
-/
import Svacara.Basic

namespace Svacara.Protocol

open Buf

-- =================================================== message types

def msgQuery : UInt8 := 0x01
def msgBegin : UInt8 := 0x04
def msgCommit : UInt8 := 0x05
def msgAbort : UInt8 := 0x06
def msgResult : UInt8 := 0x10
def msgError : UInt8 := 0x11
def msgReady : UInt8 := 0x20

-- ========================================================== frames

/-- `data[lo:hi]`. -/
def subslice (data : Bytes) (lo hi : Nat) : Except Fault Bytes :=
  if lo ≤ hi ∧ hi ≤ data.length then .ok (slice data lo (hi - lo)) else .error .index

def encodeMessage (msgType : UInt8) (payload : Bytes) : Bytes :=
  msgType :: (beBytes 4 (payload.length % 2 ^ 32) ++ payload)

/-- The type and the payload, `none` where the source reports false. -/
def decodeMessage (data : Bytes) : Except Fault (Option (UInt8 × Bytes)) :=
  if data.length < 5 then .ok none
  else
    let msgType := data.headD 0
    let length := beNat (slice data 1 4)
    if data.length < 5 + length then .ok none
    else do
      let payload ← subslice data 5 ((5 + length) % 2 ^ 32)
      return some (msgType, payload)

-- ========================================================= strings

def encodeString (s : Bytes) : Bytes := beBytes 2 (s.length % 2 ^ 16) ++ s

/-- The string and the bytes it took; nothing and 0 where it is cut. -/
def decodeString (data : Bytes) : Except Fault (Bytes × Nat) :=
  if data.length < 2 then .ok ([], 0)
  else
    let length := beNat (slice data 0 2)
    if data.length < 2 + length then .ok ([], 0)
    else do
      let s ← subslice data 2 ((2 + length) % 2 ^ 16)
      return (s, 2 + length)

-- ========================================================= results

/-- `map[string]string`. -/
abbrev Row := Bytes → Option Bytes

/-- `row[c]`: a missing key reads as the empty string. -/
def Row.at (row : Row) (c : Bytes) : Bytes := (row c).getD []

/-- The payload `EncodeResult` builds: the number of columns as one byte,
their names, and the values row by row. -/
def resultPayload (cols : List Bytes) (rows : List Row) : Bytes :=
  UInt8.ofNat cols.length :: (cols.flatMap encodeString
    ++ rows.flatMap fun row => cols.flatMap fun c => encodeString (row.at c))

def encodeResult (cols : List Bytes) (rows : List Row) : Bytes :=
  encodeMessage msgResult (resultPayload cols rows)

end Svacara.Protocol
