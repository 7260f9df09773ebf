/-
`internal/storage/recovery.go`: the checksum of the meta page.

The sum covers the page from byte 4 up to the sum itself, so the first
four bytes of the signature are not covered. `checksumIEEE` is Go's
`crc32.ChecksumIEEE`, a bit at a time.
-/
import Svacara.Storage.Page

namespace Svacara.Storage

-- ========================================================== CRC-32

def crcBit (c : UInt32) : UInt32 :=
  if c &&& 1 = 1 then (c >>> 1) ^^^ 0xEDB88320 else c >>> 1

def crcByte (c : UInt32) (b : UInt8) : UInt32 :=
  Nat.iterate crcBit 8 (c ^^^ b.toUInt32)

def checksumIEEE (b : Bytes) : UInt32 := ~~~ b.foldl crcByte 0xFFFFFFFF

-- The check value of CRC-32: the sum of the text `123456789`.
example : checksumIEEE [49, 50, 51, 52, 53, 54, 55, 56, 57] = 0xCBF43926 := by
  decide +kernel

-- =================================================== the meta page

def checksumOff : Nat := pageSize - 4

def checksum (page : Bytes) : Except Fault UInt32 := do
  let covered ← Btree.sliceAt page 4 (checksumOff - 4)
  return checksumIEEE covered

def writeMetaFull (page : Bytes) (d : Meta) : Except Fault Bytes := do
  let page ← writeMeta page d
  let sum ← checksum page
  Btree.putUintAt 4 page checksumOff sum.toNat

def verifyMeta (page : Bytes) : Except Fault Bool := do
  let stored ← Btree.uintAt 4 page checksumOff
  let computed ← checksum page
  return UInt32.ofNat stored = computed

/-- `ReadMetaSafe`: `none` for a page that is not a valid meta page. -/
def readMetaSafe (page : Bytes) : Except Fault (Option Meta) := do
  let valid ← verifyMeta page
  if !valid then return none
  readMeta page

end Svacara.Storage
