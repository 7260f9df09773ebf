/-
`internal/btree/node.go`: the layout of a node inside its page buffer,
the accessors, the append of one entry, the binary search, and the key
comparison.

A node is a flat byte buffer

    type u16 | nkeys u16 | nkeys pointers u64 | nkeys offsets u16 | entries

where entry `i` is `klen u16 | vlen u16 | key | val`, offsets are
relative to the first entry, and offset 0 is not stored. Every position
the source computes is a `uint16`; here it is a `Nat` reduced by `u16`
at the points where the source's arithmetic wraps.

Buffers come from `make`, so their capacity is their length, and a
reslice past the length is the index fault that `sliceAt` reports.
-/
import Svacara.Basic

namespace Svacara.Btree

open Buf

-- ======================================================= constants

def header : Nat := 4

def btreePageSize : Nat := 4096

def btreeMaxKeySize : Nat := 1000

def btreeMaxValSize : Nat := 3000

def bnodeInternal : Nat := 1

def bnodeLeaf : Nat := 2

/-- `type BNode []byte`. -/
abbrev BNode := Bytes

-- ======================================= machine words and buffers

/-- Reduction to `uint16`. -/
def u16 (n : Nat) : Nat := n % 65536

/-- `a - b` on `uint16`. -/
def u16sub (a b : Nat) : Nat := u16 (a + 65536 - b)

/-- `binary.LittleEndian.UintW(node[pos:])`, `w` bytes wide. -/
def uintAt (w : Nat) (node : BNode) (pos : Nat) : Except Fault Nat :=
  if pos + w ≤ node.length then .ok (leNat (slice node pos w))
  else .error .index

/-- `binary.LittleEndian.PutUintW(node[pos:], v)`, `w` bytes wide. -/
def putUintAt (w : Nat) (node : BNode) (pos v : Nat) : Except Fault BNode :=
  if pos + w ≤ node.length then .ok (splice node (leBytes w v) pos)
  else .error .index

/-- `node[pos:][:len]`. -/
def sliceAt (node : BNode) (pos len : Nat) : Except Fault Bytes :=
  if pos + len ≤ node.length then .ok (slice node pos len)
  else .error .index

/-- `copy(node[pos:], src)`: what does not fit is dropped. -/
def copyAt (node : BNode) (pos : Nat) (src : Bytes) : Except Fault BNode :=
  if pos ≤ node.length then
    .ok (splice node (src.take (node.length - pos)) pos)
  else .error .index

-- ======================================================= accessors

def btype (node : BNode) : Except Fault Nat := uintAt 2 node 0

def nkeys (node : BNode) : Except Fault Nat := uintAt 2 node 2

def setHeader (node : BNode) (btype nkeys : Nat) : Except Fault BNode := do
  let node ← putUintAt 2 node 0 btype
  putUintAt 2 node 2 nkeys

def getPtr (node : BNode) (idx : Nat) : Except Fault Ptr := do
  let v ← uintAt 8 node (u16 (header + 8 * idx))
  return UInt64.ofNat v

def setPtr (node : BNode) (idx : Nat) (val : Ptr) : Except Fault BNode :=
  putUintAt 8 node (u16 (header + 8 * idx)) val.toNat

def offsetPos (node : BNode) (idx : Nat) : Except Fault Nat := do
  let n ← nkeys node
  return u16 (header + 8 * n + 2 * u16sub idx 1)

def getOffset (node : BNode) (idx : Nat) : Except Fault Nat := do
  if idx = 0 then return 0
  let pos ← offsetPos node idx
  uintAt 2 node pos

def setOffset (node : BNode) (idx offset : Nat) : Except Fault BNode := do
  let pos ← offsetPos node idx
  putUintAt 2 node pos offset

def kvPos (node : BNode) (idx : Nat) : Except Fault Nat := do
  let n ← nkeys node
  let off ← getOffset node idx
  return u16 (header + 8 * n + 2 * n + off)

def nbytes (node : BNode) : Except Fault Nat := do
  let n ← nkeys node
  kvPos node n

def getKey (node : BNode) (idx : Nat) : Except Fault Bytes := do
  let pos ← kvPos node idx
  let klen ← uintAt 2 node pos
  sliceAt node (u16 (pos + 4)) klen

def getVal (node : BNode) (idx : Nat) : Except Fault Bytes := do
  let pos ← kvPos node idx
  let klen ← uintAt 2 node pos
  let vlen ← uintAt 2 node (u16 (pos + 2))
  sliceAt node (u16 (pos + 4 + klen)) vlen

-- ======================================================== building

def nodeAppendKV (new : BNode) (idx : Nat) (ptr : Ptr) (key val : Bytes) :
    Except Fault BNode := do
  let new ← setPtr new idx ptr
  let pos ← kvPos new idx
  let new ← putUintAt 2 new pos (u16 key.length)
  let new ← putUintAt 2 new (u16 (pos + 2)) (u16 val.length)
  let new ← copyAt new (u16 (pos + 4)) key
  let new ← copyAt new (u16 (pos + 4 + u16 key.length)) val
  let off ← getOffset new idx
  setOffset new (u16 (idx + 1)) (u16 (off + 4 + u16 (key.length + val.length)))

/-- One round of `nodeAppendRange`'s loop. -/
def appendRangeStep (old : BNode) (dstNew srcOld : Nat) (new : BNode) (i : Nat) :
    Except Fault BNode := do
  let ptr ← getPtr old (u16 (srcOld + i))
  let key ← getKey old (u16 (srcOld + i))
  let val ← getVal old (u16 (srcOld + i))
  nodeAppendKV new (u16 (dstNew + i)) ptr key val

def nodeAppendRange (new old : BNode) (dstNew srcOld n : Nat) :
    Except Fault BNode :=
  (List.range n).foldlM (appendRangeStep old dstNew srcOld) new

-- =========================================== comparison and search

/-- Byte-wise comparison, a proper prefix first. -/
def cmp : Bytes → Bytes → Int
  | [], [] => 0
  | [], _ :: _ => -1
  | _ :: _, [] => 1
  | a :: as, b :: bs => if a < b then -1 else if b < a then 1 else cmp as bs

def compareKeys (a b : Bytes) : Int := cmp a b

/-- The loop of `nodeLookupLE`. Each round shrinks the window `[lo, hi)`,
so `hi - lo` rounds are enough and the fuel never cuts it off. -/
def lookupLoop (node : BNode) (key : Bytes) : Nat → Nat → Nat → Except Fault Nat
  | 0, lo, _ => .ok lo
  | fuel + 1, lo, hi =>
      if lo < hi then do
        let mid := u16 (lo + (hi - lo) / 2)
        let k ← getKey node mid
        if cmp k key ≤ 0 then lookupLoop node key fuel (u16 (mid + 1)) hi
        else lookupLoop node key fuel lo mid
      else .ok lo

def nodeLookupLE (node : BNode) (key : Bytes) : Except Fault Nat := do
  let n ← nkeys node
  let lo ← lookupLoop node key n 0 n
  return if lo = 0 then 0 else lo - 1

end Svacara.Btree
