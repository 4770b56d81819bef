/-
Module: PathQueryIndex.Listing
Layer: Export
Purpose: Listings: the contents of an index in one fixed order, without the ids that depend on how it was
  built. Two indexes with the same blocks have the same listing. The checksum of a listing combines all
  its numbers, each rotated by an amount that depends on its role and place.
Imports: PathQueryIndex.Index
Main exports: ListedBlock, Listing, Listing.sort, Listing.ofIndex, Listing.pairCount, Listing.checksum
-/
import PathQueryIndex.Index

namespace PathQueryIndex

open Std

/-- A block as it is listed: its pairs, its layer, its label sequences with labels in their signed code,
    and the codes of its cores. -/
structure ListedBlock where
  pairs : List Pair
  layer : UInt64
  labels : List (List Int32)
  cores : List (List UInt8)
deriving DecidableEq, Repr, Inhabited

namespace ListedBlock

/-- Blocks ascend by their pairs, then by layer, label sequences and cores; lists ascend element by
    element. -/
instance : Ord ListedBlock :=
  ⟨compareLex (compareOn pairs)
    (compareLex (compareOn layer) (compareLex (compareOn labels) (compareOn cores)))⟩

instance : TransOrd ListedBlock :=
  inferInstanceAs (TransCmp (compareLex (compareOn pairs)
    (compareLex (compareOn layer) (compareLex (compareOn labels) (compareOn cores)))))

/-- A block of an index, with everything ascending. -/
def ofBlock (b : Block) : ListedBlock where
  pairs := sorted b.pairs
  layer := UInt64.ofNat b.layer
  labels := b.labels.toList.map fun s => s.labels.map Label.signed
  cores := b.coreHashes.toList

end ListedBlock

/-- A depth and some blocks. -/
structure Listing where
  depth : UInt64
  blocks : List ListedBlock
deriving DecidableEq, Repr

/-- The bits of a word moved up by some places, those that leave it coming back from below. -/
def rotateLeft (x : UInt64) (places : Nat) : UInt64 :=
  (x <<< UInt64.ofNat (places % 64)) ||| (x >>> UInt64.ofNat (64 - places % 64))

namespace ListedBlock

/-- What the labels of a sequence add to a checksum: each label, widened with its sign, is moved by
    its place in the sequence. -/
def labelWords (sequence : List Int32) : List UInt64 :=
  sequence.zipIdx.map fun (label, i) => rotateLeft label.toInt64.toUInt64 (i * 5 + 11)

/-- What the bytes of a core add to a checksum: each byte is moved by its place. -/
def coreWords (core : List UInt8) : List UInt64 :=
  core.zipIdx.map fun (byte, i) => rotateLeft byte.toUInt64 (i * 8 + 23)

/-- What a block at some position adds to a checksum. -/
def words (b : ListedBlock) (position : Nat) : List UInt64 :=
  [rotateLeft (UInt64.ofNat position) 31, rotateLeft b.layer 3] ++
  b.pairs.flatMap (fun p => [rotateLeft p.source.toUInt64 13, rotateLeft p.target.toUInt64 7]) ++
  b.labels.flatMap (fun s => rotateLeft (UInt64.ofNat s.length) 19 :: labelWords s) ++
  b.cores.flatMap coreWords

end ListedBlock

namespace Listing

/-- The listing with its blocks ascending. -/
def sort (l : Listing) : Listing := { l with blocks := sorted l.blocks }

/-- The listing of an index. -/
def ofIndex (index : Index) : Listing :=
  sort ⟨UInt64.ofNat index.depth, index.blocks.map ListedBlock.ofBlock⟩

/-- How many pairs the blocks have together. -/
def pairCount (l : Listing) : Nat := sumOf (l.blocks.map (·.pairs.length))

/-- All words that make up the checksum. -/
def words (l : Listing) : List UInt64 :=
  l.blocks.zipIdx.flatMap (fun (b, i) => b.words i) ++ [rotateLeft l.depth 29]

/-- The exclusive or of all words. It tells changed contents apart, not forged ones. -/
def checksum (l : Listing) : UInt64 := l.words.foldl (· ^^^ ·) 0

end Listing

end PathQueryIndex
