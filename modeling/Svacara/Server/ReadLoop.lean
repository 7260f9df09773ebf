/-
`internal/server/server.go`: the read loop of `handleConn`.

Behind the authentication and the `Acquire`, the loop reads into a buffer
of 4096 bytes and decodes what one read has put there. `handleMessage`
returns nothing the loop looks at, so what the loop does with a sequence
of reads is the sequence of its calls: a message handed on, or a report
of an invalid one. The end of the reads is the read error that ends the
loop.
-/
import Svacara.Protocol.Message

namespace Svacara.Serving

open Protocol

/-- `make([]byte, 4096)`. -/
def bufSize : Nat := 4096

/-- What the loop does with one read. -/
inductive LoopCall where
  | handleMessage (msgType : UInt8) (payload : Bytes)
  | sendError (err : String)
  deriving DecidableEq

/-- One round of the loop, behind the read. -/
def handleRead (data : Bytes) : Except Fault LoopCall := do
  match ← decodeMessage data with
  | none => return .sendError "invalid message"
  | some (msgType, payload) => return .handleMessage msgType payload

def readLoop : List Bytes → Except Fault (List LoopCall)
  | [] => .ok []
  | data :: reads => do
      let call ← handleRead data
      let calls ← readLoop reads
      return call :: calls

end Svacara.Serving
