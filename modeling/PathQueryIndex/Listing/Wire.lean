/-
Module: PathQueryIndex.Listing.Wire
Layer: Export
Purpose: Listings as bytes. A number is written in groups of seven bits, the lowest first, with a mark
  on every group but the last; a signed number is folded so that small magnitudes stay short; a list is
  its length and its items; a byte is itself. Reading accepts any number of groups up to those that the
  greatest number needs, and refuses numbers that are too wide.
Imports: PathQueryIndex.Listing
Main exports: Wire.number, Wire.fold, Wire.listing, Wire.Reader, Wire.Reader.number,
  Wire.Reader.listing
-/
import PathQueryIndex.Listing

namespace PathQueryIndex.Wire

/-- A number in groups of seven bits. -/
def number (n : Nat) : List UInt8 :=
  if n < 128 then [UInt8.ofNat n] else UInt8.ofNat (n % 128 + 128) :: number (n / 128)
termination_by n
decreasing_by omega

/-- A signed number as an unsigned one: 0, -1, 1, -2, … become 0, 1, 2, 3, … -/
def fold (v : Int32) : UInt32 :=
  if 0 ≤ v then v.toUInt32 * 2 else (-(v + 1)).toUInt32 * 2 + 1

/-- The signed number of an unsigned one. -/
def unfold (n : UInt32) : Int32 :=
  if n % 2 = 0 then (n / 2).toInt32 else -(n / 2).toInt32 - 1

/-- A list: its length and its items. -/
def list {α : Type} (item : α → List UInt8) (xs : List α) : List UInt8 :=
  number xs.length ++ xs.flatMap item

/-- A pair of vertices. -/
def pair (p : Pair) : List UInt8 := number p.source.toNat ++ number p.target.toNat

/-- A block. -/
def block (b : ListedBlock) : List UInt8 :=
  list pair b.pairs ++ number b.layer.toNat ++
    list (list fun v => number (fold v).toNat) b.labels ++ list (list fun byte => [byte]) b.cores

/-- A listing. -/
def listing (l : Listing) : List UInt8 := number l.depth.toNat ++ list block l.blocks

/-- A computation that reads from the front of some bytes, and may fail. -/
abbrev Reader := StateT (List UInt8) Option

namespace Reader

/-- The next byte. -/
def byte : Reader UInt8 := fun bytes =>
  match bytes with
  | [] => none
  | b :: rest => some (b, rest)

/-- A number of at most the given number of groups. -/
def groups : Nat → Reader Nat
  | 0 => fun _ => none
  | n + 1 => do
    let b ← byte
    if b.toNat < 128 then return b.toNat
    else return b.toNat - 128 + 128 * (← groups n)

/-- A number of at most the given number of bits. -/
def number (bits : Nat) : Reader Nat := do
  let n ← groups ((bits + 6) / 7)
  if n < 1 <<< bits then return n else fun _ => none

/-- A 32-bit number. -/
def word32 : Reader UInt32 := do return UInt32.ofNat (← number 32)

/-- A 64-bit number. -/
def word64 : Reader UInt64 := do return UInt64.ofNat (← number 64)

/-- The same reading several times over. -/
def times {α : Type} : Nat → Reader α → Reader (List α)
  | 0, _ => pure []
  | n + 1, item => do
    let x ← item
    let xs ← times n item
    return x :: xs

/-- A list. -/
def list {α : Type} (item : Reader α) : Reader (List α) := do times (← number 64) item

/-- A pair of vertices. -/
def pair : Reader Pair := do return ⟨← word32, ← word32⟩

/-- A block. -/
def block : Reader ListedBlock := do
  let pairs ← list pair
  let layer ← word64
  let labels ← list (list do return unfold (← word32))
  let cores ← list (list byte)
  return { pairs, layer, labels, cores }

/-- A listing. -/
def listing : Reader Listing := do
  let depth ← word64
  let blocks ← list block
  return { depth, blocks }

end Reader

end PathQueryIndex.Wire
