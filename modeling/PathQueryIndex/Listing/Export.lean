/-
Module: PathQueryIndex.Listing.Export
Layer: Export
Purpose: Exports: a header and a listing in one sequence of bytes. The header repeats the depth and the
  numbers of blocks and pairs and carries the checksum, and its length stands before it. An export is
  read back only if all of this agrees.
Imports: PathQueryIndex.Listing.Wire
Main exports: Header, Header.validate, Listing.toExport, Listing.ofExport, Index.exported, Index.verify
-/
import PathQueryIndex.Listing.Wire

namespace PathQueryIndex

/-- What precedes a listing. -/
structure Header where
  magic : List UInt8
  version : UInt8
  depth : UInt64
  blockCount : UInt64
  pairCount : UInt64
  checksum : UInt64
deriving DecidableEq, Repr

namespace Header

/-- The bytes that mark an export: `CPQX`. -/
def exportMagic : List UInt8 := [0x43, 0x50, 0x51, 0x58]

/-- The version of the format. -/
def exportVersion : UInt8 := 1

/-- The header of a listing. -/
def ofListing (l : Listing) : Header where
  magic := exportMagic
  version := exportVersion
  depth := l.depth
  blockCount := UInt64.ofNat l.blocks.length
  pairCount := UInt64.ofNat l.pairCount
  checksum := l.checksum

/-- Fail unless the header marks an export of this version. -/
def validate (h : Header) : Except Error Unit := do
  if h.magic ≠ exportMagic then throw (.codec .fileFormat)
  if h.version ≠ exportVersion then throw (.codec .version)

/-- The bytes of a header. -/
def encode (h : Header) : List UInt8 :=
  h.magic ++ [h.version] ++ Wire.number h.depth.toNat ++ Wire.number h.blockCount.toNat ++
    Wire.number h.pairCount.toNat ++ Wire.number h.checksum.toNat

/-- The header at the front of some bytes. -/
def reader : Wire.Reader Header := do
  let magic ← Wire.Reader.times 4 Wire.Reader.byte
  let version ← Wire.Reader.byte
  let depth ← Wire.Reader.word64
  let blockCount ← Wire.Reader.word64
  let pairCount ← Wire.Reader.word64
  let checksum ← Wire.Reader.word64
  return { magic, version, depth, blockCount, pairCount, checksum }

end Header

/-- A number in four bytes, the lowest first. -/
def lengthBytes (n : Nat) : List UInt8 :=
  [UInt8.ofNat n, UInt8.ofNat (n / 256), UInt8.ofNat (n / 65536), UInt8.ofNat (n / 16777216)]

namespace Listing

/-- The bytes of an export. -/
def toExport (l : Listing) : List UInt8 :=
  let header := (Header.ofListing l).encode
  lengthBytes header.length ++ header ++ Wire.listing l

/-- Run a reader; what it leaves is ignored. -/
def readAll {α : Type} (fault : CodecFault) (reader : Wire.Reader α) (bytes : List UInt8) :
    Except Error α :=
  match reader bytes with
  | some (a, _) => .ok a
  | none => .error (.codec fault)

/-- Fail unless a listing is the one that a header announces. -/
def checkHeader (h : Header) (l : Listing) : Except Error Unit := do
  if l.checksum ≠ h.checksum then throw (.codec (.checksum h.checksum l.checksum))
  if l.depth ≠ h.depth then throw (.codec .depth)
  if l.blocks.length ≠ h.blockCount.toNat then throw (.codec .blocks)
  if l.pairCount ≠ h.pairCount.toNat then throw (.codec .pairs)

/-- The listing of an export. The announced numbers are bounded before the listing is read. -/
def ofExport (bytes : List UInt8) : Except Error Listing :=
  match bytes with
  | a :: b :: c :: d :: rest => do
    let length := a.toNat + 256 * (b.toNat + 256 * (c.toNat + 256 * d.toNat))
    if rest.length < length then throw (.codec .tooShortForHeader)
    let header ← readAll .header Header.reader (rest.take length)
    header.validate
    if maxListedBlocks < header.blockCount then throw (.codec (.blockCount header.blockCount))
    if maxListedPairs < header.pairCount then throw (.codec (.pairCount header.pairCount))
    let listing ← readAll .data Wire.Reader.listing (rest.drop length)
    checkHeader header listing
    return listing
  | _ => .error (.codec .tooShort)

end Listing

namespace Index

/-- The checksum of the listing of an index. -/
def checksum (index : Index) : UInt64 := (Listing.ofIndex index).checksum

/-- The export of an index. -/
def exported (index : Index) : List UInt8 := (Listing.ofIndex index).toExport

/-- Whether an export lists exactly the contents of the index. -/
def verify (index : Index) (bytes : List UInt8) : Except Error Bool := do
  return (← Listing.ofExport bytes) == Listing.ofIndex index

end Index

end PathQueryIndex
