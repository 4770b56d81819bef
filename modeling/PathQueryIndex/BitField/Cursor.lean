/-
Module: PathQueryIndex.BitField.Cursor
Layer: Core
Purpose: Bit fields in place. A field is cut into pieces that fit the bytes it reaches, and each piece is
  shifted to its place and set there; reading takes the pieces out again. A writing cursor counts the free
  bits of its byte and leaves a byte that is full, other than the last one; a reading cursor counts the bits
  that it has passed. Fields are written and read one after the other, whether some are refused or not.
Imports: PathQueryIndex.BitField
Main exports: lowBits, WriteCursor, WriteCursor.place, WriteCursor.write, WriteCursor.writeEach, ReadCursor,
  ReadCursor.gather, ReadCursor.read, ReadCursor.readEach, BitWriter.writeEach, BitReader.readEach
-/
import PathQueryIndex.BitField

namespace PathQueryIndex

/-- The word whose low `width` bits are set. -/
def lowBits (width : Nat) : UInt64 := (1 <<< UInt64.ofNat width) - 1

/-- A buffer, the number of the byte that is being filled, and how many of its bits are free. -/
structure WriteCursor where
  data : List UInt8
  byte : Nat
  free : Nat
deriving DecidableEq, Repr

namespace WriteCursor

/-- A buffer of zeros for `bits` bits, rounded up to whole bytes. -/
def ofBits (bits : Nat) : WriteCursor := ⟨List.replicate ((bits + 7) / 8) 0, 0, 8⟩

/-- How many bits the buffer holds in all. -/
def capacity (w : WriteCursor) : Nat := 8 * w.data.length

/-- How many bits have been written. -/
def position (w : WriteCursor) : Nat := 8 * w.byte + (8 - w.free)

/-- Set bits of the current byte. -/
def set (w : WriteCursor) (bits : UInt64) : WriteCursor :=
  { w with data := w.data.modify w.byte (· ||| bits.toUInt8) }

/-- Go on to the next byte. -/
def advance (w : WriteCursor) : WriteCursor := { w with byte := w.byte + 1, free := 8 }

/-- Set the low `remaining` bits of a value behind what is there. As long as they are more than the current
    byte has free, the highest of them finish it. -/
def place (value : UInt64) (remaining : Nat) (w : WriteCursor) : WriteCursor :=
  if w.free < remaining then
    let high := (value >>> UInt64.ofNat (remaining - w.free)) &&& lowBits w.free
    place value (remaining - w.free) (w.set high).advance
  else
    let low := value &&& lowBits remaining
    let w : WriteCursor :=
      { w.set (low <<< UInt64.ofNat (w.free - remaining)) with free := w.free - remaining }
    if w.free = 0 ∧ w.byte + 1 < w.data.length then w.advance else w
termination_by remaining + (9 - w.free)
decreasing_by simp only [advance]; omega

/-- Write the low `width` bits of a value, or refuse to; a field without bits is written as it is. -/
def write (w : WriteCursor) (value : UInt32) (width : Nat) : Except Error Unit × WriteCursor :=
  match checkWidth width with
  | .error e => (.error e, w)
  | .ok () =>
    if width = 0 then (.ok (), w)
    else if w.capacity < w.position + width then
      (.error (.bitOverflow w.capacity (w.position + width)), w)
    else (.ok (), w.place (value.toUInt64 &&& lowBits width) width)

/-- Write one field after the other: those that are not refused, and the cursor at the end. -/
def writeEach (w : WriteCursor) : List (UInt32 × Nat) → List (UInt32 × Nat) × WriteCursor
  | [] => ([], w)
  | (value, width) :: fields =>
    match w.write value width with
    | (.ok (), next) =>
      let (written, last) := next.writeEach fields
      ((value, width) :: written, last)
    | (.error _, next) => next.writeEach fields

end WriteCursor

/-- Some bytes and how many of their bits have been read. -/
structure ReadCursor where
  data : List UInt8
  bit : Nat
deriving DecidableEq, Repr

namespace ReadCursor

/-- Read some bytes from the front. -/
def ofBytes (data : List UInt8) : ReadCursor := ⟨data, 0⟩

/-- How many bits the bytes have in all. -/
def capacity (c : ReadCursor) : Nat := 8 * c.data.length

/-- How many bits are left. -/
def remaining (c : ReadCursor) : Nat := c.capacity - c.bit

/-- Take `remaining` bits from the bit `bit` on in behind a value, as many at a time as their byte has. -/
def gather (data : List UInt8) (value : UInt64) (remaining bit : Nat) : UInt64 × Nat :=
  if remaining = 0 then (value, bit)
  else
    let byte := (data.getD (bit / 8) 0).toUInt64
    let free := 8 - bit % 8
    let taken := min remaining free
    let piece := (byte >>> UInt64.ofNat (free - taken)) &&& lowBits taken
    gather data ((value <<< UInt64.ofNat taken) ||| piece) (remaining - taken) (bit + taken)
termination_by remaining
decreasing_by omega

/-- The number in the next `width` bits, unless there are fewer. -/
def read (c : ReadCursor) (width : Nat) : Except Error UInt32 × ReadCursor :=
  match checkWidth width with
  | .error e => (.error e, c)
  | .ok () =>
    if c.remaining < width then (.error (.bitOverflow c.capacity (c.bit + width)), c)
    else
      let (value, bit) := gather c.data 0 width c.bit
      (.ok value.toUInt32, { c with bit })

/-- Read one field after the other. -/
def readEach (c : ReadCursor) : List Nat → List (Except Error UInt32) × ReadCursor
  | [] => ([], c)
  | width :: widths =>
    let (value, next) := c.read width
    let (values, last) := next.readEach widths
    (value :: values, last)

end ReadCursor

/-- Write one field after the other: those that are not refused, and the writer at the end. -/
def BitWriter.writeEach (w : BitWriter) : List (Nat × Nat) → List (Nat × Nat) × BitWriter
  | [] => ([], w)
  | (value, width) :: fields =>
    match w.write value width with
    | .ok next =>
      let (written, last) := next.writeEach fields
      ((value, width) :: written, last)
    | .error _ => w.writeEach fields

/-- Read one field after the other, going on from the same place after one that is refused. -/
def BitReader.readEach (r : BitReader) : List Nat → List (Except Error Nat) × BitReader
  | [] => ([], r)
  | width :: widths =>
    match r.read width with
    | .ok (value, next) =>
      let (values, last) := next.readEach widths
      (.ok value :: values, last)
    | .error e =>
      let (values, last) := r.readEach widths
      (.error e :: values, last)

end PathQueryIndex
