/-
Module: PathQueryIndex.BitField
Layer: Core
Purpose: Numbers packed into bytes, field after field, the most significant bit first. A writer has a
  fixed capacity in whole bytes and refuses a field that would end past it; a reader refuses a field
  that ends past its bytes. Both are seen through their bits: a writer through the bits it holds, a
  reader through the bits it has not read yet.
Imports: PathQueryIndex.Error
Main exports: fieldBits, bitsValue, byteBits, bytesBits, packBytes, BitWriter, BitWriter.write,
  BitWriter.bytes, BitReader, BitReader.read, binaryText
-/
import PathQueryIndex.Error

namespace PathQueryIndex

/-- The low `width` bits of a number, the highest first. -/
def fieldBits (value : Nat) : Nat → List Bool
  | 0 => []
  | width + 1 => value.testBit width :: fieldBits value width

/-- The number that a list of bits writes, the highest first. -/
def bitsValue (bits : List Bool) : Nat :=
  bits.foldl (fun acc b => 2 * acc + b.toNat) 0

/-- The eight bits of a byte. -/
def byteBits (byte : UInt8) : List Bool := fieldBits byte.toNat 8

/-- All bits of some bytes, in order. -/
def bytesBits (bytes : List UInt8) : List Bool := bytes.flatMap byteBits

/-- Fill `count` bytes with bits, in order; bits that are missing are zero. -/
def packBytes : Nat → List Bool → List UInt8
  | 0, _ => []
  | count + 1, bits =>
    let byte := bits.take 8
    UInt8.ofNat (bitsValue byte <<< (8 - byte.length)) :: packBytes count (bits.drop 8)

@[simp] theorem length_fieldBits (value width : Nat) : (fieldBits value width).length = width := by
  induction width with
  | zero => rfl
  | succ width ih => simp [fieldBits, ih]

@[simp] theorem length_bytesBits (bytes : List UInt8) :
    (bytesBits bytes).length = 8 * bytes.length := by
  induction bytes with
  | nil => rfl
  | cons byte bytes ih =>
    simp only [bytesBits, List.flatMap_cons, List.length_append, List.length_cons] at ih ⊢
    rw [ih]
    simp only [byteBits, length_fieldBits]
    omega

/-- Fail on a width that no field can have. -/
def checkWidth (width : Nat) : Except Error Unit :=
  if maxFieldWidth < width then .error (.argument (.fieldWidth width)) else .ok ()

/-!
### Writing

The bits written so far are kept in reverse, so that a field costs no more than its own width. The
bytes are packed when they are asked for.
-/

/-- A buffer of `size` bytes, filled from the front. -/
structure BitWriter where
  size : Nat
  reversed : List Bool
  position : Nat
  length_reversed : reversed.length = position := by rfl
  position_le : position ≤ 8 * size := by omega

namespace BitWriter

/-- A buffer for `bits` bits, rounded up to whole bytes. -/
def ofBits (bits : Nat) : BitWriter where
  size := (bits + 7) / 8
  reversed := []
  position := 0

/-- How many bits the buffer holds in all. -/
def capacity (w : BitWriter) : Nat := 8 * w.size

/-- The bits written so far. -/
def bits (w : BitWriter) : List Bool := w.reversed.reverse

/-- The buffer; what has not been written is zero. -/
def bytes (w : BitWriter) : List UInt8 := packBytes w.size w.bits

@[simp] theorem length_bits (w : BitWriter) : w.bits.length = w.position := by
  simp [bits, w.length_reversed]

/-- Write the low `width` bits of `value` after what is there. -/
def write (w : BitWriter) (value width : Nat) : Except Error BitWriter := do
  checkWidth width
  if h : w.position + width ≤ 8 * w.size then
    return { size := w.size
             reversed := (fieldBits value width).reverse ++ w.reversed
             position := w.position + width
             length_reversed := by simp [w.length_reversed, Nat.add_comm]
             position_le := h }
  else throw (.bitOverflow w.capacity (w.position + width))

/-- Write one field after the other. -/
def writeAll (w : BitWriter) : List (Nat × Nat) → Except Error BitWriter
  | [] => .ok w
  | (value, width) :: fields => do (← w.write value width).writeAll fields

end BitWriter

/-!
### Reading
-/

/-- Bits that are still to be read, out of `capacity`. -/
structure BitReader where
  capacity : Nat
  position : Nat
  unread : List Bool
  position_add : position + unread.length = capacity := by simp

namespace BitReader

/-- Read some bytes from the front. -/
def ofBytes (bytes : List UInt8) : BitReader where
  capacity := 8 * bytes.length
  position := 0
  unread := bytesBits bytes

/-- How many bits are left. -/
def remaining (r : BitReader) : Nat := r.capacity - r.position

theorem remaining_eq (r : BitReader) : r.remaining = r.unread.length := by
  have h := r.position_add
  simp only [remaining]
  omega

/-- The number in the next `width` bits, and the reader behind them. -/
def read (r : BitReader) (width : Nat) : Except Error (Nat × BitReader) := do
  checkWidth width
  if h : width ≤ r.remaining then
    return (bitsValue (r.unread.take width),
      { capacity := r.capacity
        position := r.position + width
        unread := r.unread.drop width
        position_add := by
          have h₁ := r.position_add
          have h₂ := r.remaining_eq
          simp only [List.length_drop]
          omega })
  else throw (.bitOverflow r.capacity (r.position + width))

end BitReader

/-- The bits of each byte, bytes separated by spaces. -/
def binaryText (bytes : List UInt8) : String :=
  " ".intercalate
    (bytes.map fun byte => String.ofList ((byteBits byte).map fun b => if b then '1' else '0'))

end PathQueryIndex
