/-
Module: PathQueryIndex.Proofs.BitField.WriteCursor
Layer: Proofs
Purpose: Setting fields by shifts and masks. A writing cursor holds the bits of the fields that it has written
  and zeros behind them; placing a field sets its bits next to them, over however many bytes it reaches. So a
  cursor and a writer that is seen through its bits accept the same fields, fail alike, and have the same bytes.
Imports: PathQueryIndex.BitField.Cursor, PathQueryIndex.Proofs.BitField
Main exports: toNat_and_lowBits, bytesBits_modify_or, WriteCursor.Holds, WriteCursor.Holds.place,
  WriteCursor.write_refused_iff, WriteCursor.Holds.write_cases, WriteCursor.Shows, WriteCursor.Shows.write,
  WriteCursor.Shows.writeEach, WriteCursor.holds_writeEach
-/
import PathQueryIndex.BitField.Cursor
import PathQueryIndex.Proofs.BitField

namespace PathQueryIndex

variable {value : UInt64} {width shift remaining free i : Nat} {bits xs ys : List Bool}
  {data : List UInt8} {b c : UInt8}

/-! ### Words -/

theorem toNat_ofNat_shift (h : shift ≤ maxFieldWidth) : (UInt64.ofNat shift).toNat % 64 = shift := by
  have hlt : shift < 64 := Nat.lt_of_le_of_lt h (by decide)
  rw [UInt64.toNat_ofNat_of_lt' (Nat.lt_trans hlt (by decide)), Nat.mod_eq_of_lt hlt]

theorem toNat_lowBits (h : width ≤ maxFieldWidth) : (lowBits width).toNat = 2 ^ width - 1 := by
  have hpow : 2 ^ width ≤ 2 ^ maxFieldWidth := Nat.pow_le_pow_right Nat.zero_lt_two h
  have hshift : ((1 : UInt64) <<< UInt64.ofNat width).toNat = 2 ^ width := by
    rw [UInt64.toNat_shiftLeft, toNat_ofNat_shift h, UInt64.toNat_one, Nat.one_shiftLeft,
      Nat.mod_eq_of_lt (Nat.lt_of_le_of_lt hpow (by decide))]
  have hone : (1 : UInt64) ≤ 1 <<< UInt64.ofNat width := by
    rw [UInt64.le_iff_toNat_le, hshift, UInt64.toNat_one]
    exact Nat.one_le_two_pow
  rw [lowBits, UInt64.toNat_sub_of_le _ _ hone, hshift, UInt64.toNat_one]

/-- A mask keeps the low bits. -/
theorem toNat_and_lowBits (h : width ≤ maxFieldWidth) :
    (value &&& lowBits width).toNat = value.toNat % 2 ^ width := by
  rw [UInt64.toNat_and, toNat_lowBits h, Nat.and_two_pow_sub_one_eq_mod]

theorem toNat_shiftRight_ofNat (h : shift ≤ maxFieldWidth) :
    (value >>> UInt64.ofNat shift).toNat = value.toNat >>> shift := by
  rw [UInt64.toNat_shiftRight, toNat_ofNat_shift h]

theorem toNat_shiftLeft_ofNat (h : shift ≤ maxFieldWidth) :
    (value <<< UInt64.ofNat shift).toNat = (value.toNat <<< shift) % 2 ^ 64 := by
  rw [UInt64.toNat_shiftLeft, toNat_ofNat_shift h]

theorem byteBits_toUInt8 (value : UInt64) : byteBits value.toUInt8 = fieldBits value.toNat 8 := by
  rw [byteBits, UInt64.toNat_toUInt8, fieldBits_mod]

/-- A piece at the end of a byte. -/
theorem byteBits_high (value : UInt64) (hfree : free ≤ 8) (hshift : shift ≤ maxFieldWidth) :
    byteBits ((value >>> UInt64.ofNat shift) &&& lowBits free).toUInt8 =
      List.replicate (8 - free) false ++ fieldBits (value.toNat >>> shift) free := by
  have hmask : free ≤ maxFieldWidth := Nat.le_trans hfree (by decide)
  rw [byteBits_toUInt8, toNat_and_lowBits hmask, toNat_shiftRight_ofNat hshift, ← fieldBits_mod_add,
    Nat.sub_add_cancel hfree]

/-- A piece in the middle of a byte. -/
theorem byteBits_low (value : UInt64) (hfree : free ≤ 8) (hle : remaining ≤ free) :
    byteBits ((value &&& lowBits remaining) <<< UInt64.ofNat (free - remaining)).toUInt8 =
      List.replicate (8 - free) false ++
        (fieldBits value.toNat remaining ++ List.replicate (free - remaining) false) := by
  have hmask : remaining ≤ maxFieldWidth := Nat.le_trans hle (Nat.le_trans hfree (by decide))
  have hshift : free - remaining ≤ maxFieldWidth :=
    Nat.le_trans (Nat.sub_le ..) (Nat.le_trans hfree (by decide))
  have hbyte : 8 = 8 - free + remaining + (free - remaining) := by omega
  rw [byteBits_toUInt8, toNat_shiftLeft_ofNat hshift, toNat_and_lowBits hmask,
    fieldBits_mod_of_le _ (by decide), hbyte, fieldBits_shiftLeft, fieldBits_mod_add, List.append_assoc,
    ← hbyte]

/-! ### Setting bits of a byte -/

theorem zipWith_or_zeros (xs : List Bool) : List.zipWith or xs (List.replicate xs.length false) = xs := by
  induction xs with
  | nil => rfl
  | cons x xs ih => rw [List.length_cons, List.replicate_succ, List.zipWith_cons_cons, ih, Bool.or_false]

theorem zipWith_zeros_or (ys : List Bool) : List.zipWith or (List.replicate ys.length false) ys = ys := by
  induction ys with
  | nil => rfl
  | cons y ys ih => rw [List.length_cons, List.replicate_succ, List.zipWith_cons_cons, ih, Bool.false_or]

theorem byteBits_or (b c : UInt8) : byteBits (b ||| c) = List.zipWith or (byteBits b) (byteBits c) := by
  rw [byteBits, UInt8.toNat_or, fieldBits_or]
  rfl

/-- Bits that are set where a byte has zeros come behind the bits that it has. -/
theorem byteBits_or_of_free (hb : byteBits b = xs ++ List.replicate ys.length false)
    (hc : byteBits c = List.replicate xs.length false ++ ys) : byteBits (b ||| c) = xs ++ ys := by
  rw [byteBits_or, hb, hc, List.zipWith_append (List.length_replicate ..).symm, zipWith_or_zeros,
    zipWith_zeros_or]

/-- Bits that are set in the byte where the zeros of a buffer begin come behind the bits that it holds. -/
theorem bytesBits_modify_or (hi : i < data.length) (hfree : bits.length + ys.length = 8 * (i + 1))
    (hbyte : ys.length ≤ 8)
    (hdata : bytesBits data = bits ++ List.replicate (8 * data.length - bits.length) false)
    (hc : byteBits c = List.replicate (8 - ys.length) false ++ ys) :
    bytesBits (data.modify i (· ||| c)) =
      bits ++ ys ++ List.replicate (8 * data.length - 8 * (i + 1)) false := by
  have hzeros : 8 * data.length - bits.length = ys.length + (8 * data.length - 8 * (i + 1)) := by omega
  -- the bits of the bytes in front, and those that the byte has already
  obtain ⟨front, pre, rfl, hfront⟩ : ∃ front pre, bits = front ++ pre ∧ front.length = 8 * i := by
    refine ⟨bits.take (8 * i), bits.drop (8 * i), (List.take_append_drop ..).symm, ?_⟩
    rw [List.length_take]
    omega
  rw [List.length_append, hfront] at hfree
  have hpre : 8 - ys.length = pre.length := by omega
  rw [bytesBits_split hi, hzeros, List.append_assoc, ← List.replicate_append_replicate,
    ← List.append_assoc pre] at hdata
  have htake : (bytesBits (data.take i)).length = front.length := by
    rw [length_bytesBits, List.length_take, Nat.min_eq_left (Nat.le_of_lt hi), hfront]
  obtain ⟨hbefore, hbehind⟩ := List.append_inj hdata htake
  have hsame : (byteBits data[i]).length = (pre ++ List.replicate ys.length false).length := by
    rw [byteBits, length_fieldBits, List.length_append, List.length_replicate]
    omega
  obtain ⟨hat, hafter⟩ := List.append_inj hbehind hsame
  rw [List.modify_eq_take_cons_drop hi, bytesBits_append, bytesBits_cons, hbefore,
    byteBits_or_of_free hat (hpre ▸ hc), hafter, List.append_assoc, List.append_assoc, List.append_assoc]

namespace WriteCursor

variable {w : WriteCursor}

/-- The cursor has written some bits: they stand at the front of its buffer with zeros behind them, and it
    stands behind them. Only in a buffer that is full it stands in a byte with no bit free. -/
structure Holds (w : WriteCursor) (bits : List Bool) : Prop where
  free_le : w.free ≤ 8
  position : w.position = bits.length
  data : bytesBits w.data = bits ++ List.replicate (w.capacity - bits.length) false
  full : w.free = 0 → w.position = w.capacity

theorem capacity_set (w : WriteCursor) (piece : UInt64) : (w.set piece).capacity = w.capacity :=
  congrArg (8 * ·) (List.length_modify ..)

/-- As long as there is room the cursor stands in a byte of the buffer, which has a bit free. -/
theorem Holds.free_pos (h : w.Holds bits) (hroom : bits.length < w.capacity) :
    0 < w.free ∧ w.byte < w.data.length ∧ bits.length + w.free = 8 * (w.byte + 1) := by
  have hposition : 8 * w.byte + (8 - w.free) = bits.length := h.position
  have hcapacity : w.capacity = 8 * w.data.length := rfl
  have hle := h.free_le
  -- with no bit free it would stand at the end of a full buffer
  have hfree : w.free ≠ 0 := by
    intro hzero
    rw [← h.position, h.full hzero] at hroom
    exact Nat.lt_irrefl _ hroom
  omega

/-- What is set in the byte of the cursor comes behind the bits that it has written. -/
theorem Holds.set (h : w.Holds bits) (hroom : bits.length < w.capacity) {piece : UInt64}
    (hlen : ys.length = w.free)
    (hpiece : byteBits piece.toUInt8 = List.replicate (8 - w.free) false ++ ys) :
    bytesBits (w.set piece).data =
      bits ++ ys ++ List.replicate (w.capacity - 8 * (w.byte + 1)) false := by
  obtain ⟨_, hbyte, hend⟩ := h.free_pos hroom
  rw [← hlen] at hend hpiece
  exact bytesBits_modify_or hbyte hend (hlen ▸ h.free_le) h.data hpiece

/-- The step: the highest bits of a field that is wider than what is free finish the byte. -/
theorem Holds.finish (h : w.Holds bits) (value : UInt64) (hwide : w.free < remaining)
    (hle : remaining ≤ maxFieldWidth) (hroom : bits.length + remaining ≤ w.capacity) :
    (w.set ((value >>> UInt64.ofNat (remaining - w.free)) &&& lowBits w.free)).advance.Holds
      (bits ++ fieldBits (value.toNat >>> (remaining - w.free)) w.free) := by
  have hlt : bits.length < w.capacity := by omega
  obtain ⟨hfree, hbyte, hend⟩ := h.free_pos hlt
  have hpiece := byteBits_high value h.free_le (Nat.le_trans (Nat.sub_le _ w.free) hle)
  have hset := h.set hlt (length_fieldBits ..) hpiece
  constructor
  case free_le => exact Nat.le_refl 8
  case position =>
    rw [List.length_append, length_fieldBits, hend]
    rfl
  case data =>
    rw [List.length_append, length_fieldBits, hend]
    refine hset.trans ?_
    rw [← capacity_set w]
    rfl
  case full => exact fun hzero => nomatch hzero

/-- The end: a field that is no wider than what is free is set there, and a byte that is full is left unless
    it is the last one. -/
theorem Holds.last (h : w.Holds bits) (value : UInt64) (next : WriteCursor) (hpos : 0 < remaining)
    (hle : remaining ≤ w.free) (hroom : bits.length + remaining ≤ w.capacity)
    (hnext : next = { w.set ((value &&& lowBits remaining) <<< UInt64.ofNat (w.free - remaining)) with
      free := w.free - remaining }) :
    (if next.free = 0 ∧ next.byte + 1 < next.data.length then next.advance else next).Holds
      (bits ++ fieldBits value.toNat remaining) := by
  have hlt : bits.length < w.capacity := by omega
  obtain ⟨_, hbyte, hend⟩ := h.free_pos hlt
  have hset := h.set hlt (by rw [List.length_append, length_fieldBits, List.length_replicate]; omega)
    (byteBits_low value h.free_le hle)
  have hcapacity : next.capacity = w.capacity := by
    rw [hnext]
    exact capacity_set w _
  have hzeros : w.free - remaining + (w.capacity - 8 * (w.byte + 1)) =
      w.capacity - (bits.length + remaining) := by
    have hle : w.capacity = 8 * w.data.length := rfl
    omega
  have hdata : bytesBits next.data = bits ++ fieldBits value.toNat remaining ++
      List.replicate (w.capacity - (bits ++ fieldBits value.toNat remaining).length) false := by
    rw [hnext, List.length_append, length_fieldBits, ← hzeros, ← List.replicate_append_replicate]
    simpa only [List.append_assoc] using hset
  have hfree : next.free = w.free - remaining := by rw [hnext]
  have hplace : next.byte = w.byte := by rw [hnext]; rfl
  have hcount : next.capacity = 8 * next.data.length := rfl
  split
  · rename_i hfull
    constructor
    case free_le => exact Nat.le_refl 8
    case position =>
      change 8 * (next.byte + 1) + (8 - 8) = _
      rw [List.length_append, length_fieldBits]
      omega
    case data => exact hcapacity ▸ hdata
    case full => exact fun hzero => nomatch hzero
  · rename_i hmore
    have hle := h.free_le
    constructor
    case free_le => omega
    case position =>
      change 8 * next.byte + (8 - next.free) = _
      rw [List.length_append, length_fieldBits]
      omega
    case data => exact hcapacity ▸ hdata
    case full =>
      intro hzero
      change 8 * next.byte + (8 - next.free) = _
      omega

/-- A field that is placed comes behind the bits that the cursor has written: by induction on the bytes that it
    reaches. -/
theorem Holds.place (h : w.Holds bits) (value : UInt64) (hpos : 0 < remaining)
    (hle : remaining ≤ maxFieldWidth) (hroom : bits.length + remaining ≤ w.capacity) :
    (place value remaining w).Holds (bits ++ fieldBits value.toNat remaining) ∧
      (place value remaining w).data.length = w.data.length := by
  fun_induction WriteCursor.place value remaining w generalizing bits
  case case1 remaining w hwide high ih =>
      have hfree : w.free + (remaining - w.free) = remaining := Nat.add_sub_of_le (Nat.le_of_lt hwide)
      have hfinish := h.finish value hwide hle hroom
      have hcapacity : (w.set high).advance.capacity = w.capacity := capacity_set w high
      obtain ⟨hholds, hlen⟩ := ih hfinish (Nat.sub_pos_of_lt hwide) (Nat.le_trans (Nat.sub_le ..) hle) (by
        rw [List.length_append, length_fieldBits, hcapacity]
        omega)
      refine ⟨?_, hlen.trans (List.length_modify ..)⟩
      rwa [List.append_assoc, ← fieldBits_add, hfree] at hholds
  case case2 remaining w hwide low next hfull =>
      have hlast := h.last value next hpos (Nat.le_of_not_lt hwide) hroom rfl
      rw [if_pos hfull] at hlast
      exact ⟨hlast, List.length_modify ..⟩
  case case3 remaining w hwide low next hfull =>
      have hlast := h.last value next hpos (Nat.le_of_not_lt hwide) hroom rfl
      rw [if_neg hfull] at hlast
      exact ⟨hlast, List.length_modify ..⟩

/-! ### Fields that are written and fields that are refused -/

variable {writer : BitWriter}

/-- A field that is refused leaves the cursor as it is. -/
theorem write_of_wide (h : maxFieldWidth < width) (w : WriteCursor) (value : UInt32) :
    w.write value width = (.error (.argument (.fieldWidth width)), w) := by
  unfold WriteCursor.write checkWidth
  rw [if_pos h]

theorem write_of_past (hle : width ≤ maxFieldWidth) (hpos : 0 < width)
    (hpast : w.capacity < w.position + width) (value : UInt32) :
    w.write value width = (.error (.bitOverflow w.capacity (w.position + width)), w) := by
  unfold WriteCursor.write checkWidth
  rw [if_neg (Nat.not_lt.2 hle)]
  simp only
  rw [if_neg (Nat.ne_of_gt hpos), if_pos hpast]

/-- A field without bits is written, and there is nothing to do for it. -/
theorem write_zero (w : WriteCursor) (value : UInt32) : w.write value 0 = (.ok (), w) := rfl

theorem write_of_room (hle : width ≤ maxFieldWidth) (hpos : 0 < width)
    (hroom : w.position + width ≤ w.capacity) (value : UInt32) :
    w.write value width = (.ok (), w.place (value.toUInt64 &&& lowBits width) width) := by
  unfold WriteCursor.write checkWidth
  rw [if_neg (Nat.not_lt.2 hle)]
  simp only
  rw [if_neg (Nat.ne_of_gt hpos), if_neg (Nat.not_lt.2 hroom)]

/-- A field is refused if no field is that wide, or if it has bits and would end past the buffer. -/
theorem write_refused_iff (w : WriteCursor) (value : UInt32) (width : Nat) :
    (∃ e, w.write value width = (.error e, w)) ↔
      maxFieldWidth < width ∨ (0 < width ∧ w.capacity < w.position + width) := by
  constructor
  · rintro ⟨e, he⟩
    by_contra hnot
    rw [not_or, Nat.not_lt, not_and, Nat.not_lt] at hnot
    rcases Nat.eq_zero_or_pos width with rfl | hpos
    · cases he
    · rw [write_of_room hnot.1 hpos (hnot.2 hpos)] at he
      cases he
  · intro h
    by_cases hwide : maxFieldWidth < width
    · exact ⟨_, write_of_wide hwide w value⟩
    · obtain ⟨hpos, hpast⟩ := h.resolve_left hwide
      exact ⟨_, write_of_past (Nat.not_lt.1 hwide) hpos hpast value⟩

/-- The step: a field that is not refused comes behind the bits that the cursor has written. -/
theorem Holds.write (h : w.Holds bits) (value : UInt32)
    (hfits : ¬ (maxFieldWidth < width ∨ (0 < width ∧ w.capacity < w.position + width))) :
    ∃ next, w.write value width = (.ok (), next) ∧ next.Holds (bits ++ fieldBits value.toNat width) ∧
      next.data.length = w.data.length := by
  rw [not_or, Nat.not_lt, not_and, Nat.not_lt] at hfits
  rcases Nat.eq_zero_or_pos width with rfl | hpos
  · exact ⟨w, write_zero w value, (List.append_nil bits).symm ▸ h, rfl⟩
  · have hroom := hfits.2 hpos
    obtain ⟨hholds, hlen⟩ := h.place (value.toUInt64 &&& lowBits width) hpos hfits.1
      (h.position ▸ hroom)
    rw [toNat_and_lowBits hfits.1, fieldBits_mod, UInt32.toNat_toUInt64] at hholds
    exact ⟨_, write_of_room hfits.1 hpos hroom value, hholds, hlen⟩

/-- A field is either refused or written. -/
theorem Holds.write_cases (h : w.Holds bits) (value : UInt32) (width : Nat) :
    (∃ e, w.write value width = (.error e, w)) ∨
      ∃ next, w.write value width = (.ok (), next) ∧ next.Holds (bits ++ fieldBits value.toNat width) ∧
        next.data.length = w.data.length := by
  by_cases hrefused : ∃ e, w.write value width = (.error e, w)
  · exact .inl hrefused
  · rw [write_refused_iff] at hrefused
    exact .inr (h.write value hrefused)

/-- Before anything is written there are only zeros. -/
theorem holds_ofBits (size : Nat) : (ofBits size).Holds [] := by
  constructor
  case free_le => exact Nat.le_refl 8
  case position => rfl
  case data =>
    rw [capacity, ofBits, List.length_replicate]
    exact bytesBits_replicate_zero _
  case full => exact fun hzero => nomatch hzero

/-- The fields that are not refused come one after the other. -/
theorem bits_of_writeEach (writer : BitWriter) (fields : List (Nat × Nat)) :
    (writer.writeEach fields).2.size = writer.size ∧
      (writer.writeEach fields).2.bits = writer.bits ++ fieldsBits (writer.writeEach fields).1 := by
  induction fields generalizing writer with
  | nil => exact ⟨rfl, (List.append_nil _).symm⟩
  | cons field fields ih =>
      obtain ⟨value, width⟩ := field
      unfold BitWriter.writeEach
      cases hwrite : writer.write value width with
      | error e => exact ih writer
      | ok next =>
          obtain ⟨hsize, hbits⟩ := BitWriter.bits_of_write hwrite
          obtain ⟨hsize', hbits'⟩ := ih next
          refine ⟨hsize'.trans hsize, hbits'.trans ?_⟩
          rw [hbits, List.append_assoc]
          rfl

/-- A cursor and a writer that is seen through its bits are at the same place of the same buffer. -/
structure Shows (w : WriteCursor) (writer : BitWriter) : Prop where
  holds : w.Holds writer.bits
  size : w.data.length = writer.size

theorem shows_ofBits (size : Nat) : (ofBits size).Shows (BitWriter.ofBits size) :=
  ⟨holds_ofBits size, List.length_replicate⟩

theorem Shows.capacity (h : w.Shows writer) : w.capacity = writer.capacity := congrArg (8 * ·) h.size

theorem Shows.position (h : w.Shows writer) : w.position = writer.position :=
  h.holds.position.trans writer.length_bits

/-- Bits that are packed at the end are the bytes in which they have been set one field at a time. -/
theorem Shows.data_eq (h : w.Shows writer) : w.data = writer.bytes := by
  have hfits : writer.bits.length ≤ 8 * writer.size := writer.length_bits ▸ writer.position_le
  rw [← bytesBits_inj, h.holds.data, BitWriter.bytes, bytesBits_packBytes hfits, h.capacity]
  rfl

/-- The step: both refuse a field with the same error, or both write it and stay at the same place. -/
theorem Shows.write (h : w.Shows writer) (value : UInt32) (width : Nat) :
    Alike (fun next _ => (w.write value width).2.Shows next) (writer.write value.toNat width)
      (w.write value width).1 := by
  by_cases hwide : maxFieldWidth < width
  · rw [write_of_wide hwide, BitWriter.write, checkWidth, if_pos hwide]
    exact .error _
  by_cases hroom : writer.position + width ≤ 8 * writer.size
  · obtain ⟨next, hnext⟩ := BitWriter.exists_write value.toNat (Nat.not_lt.1 hwide) hroom
    obtain ⟨hsize, hbits⟩ := BitWriter.bits_of_write hnext
    have hfits : ¬ (0 < width ∧ w.capacity < w.position + width) := by
      rw [h.capacity, h.position, not_and, Nat.not_lt]
      exact fun _ => hroom
    obtain ⟨last, hlast, hholds, hlen⟩ := h.holds.write value (not_or.2 ⟨hwide, hfits⟩)
    rw [hnext, hlast]
    exact .ok ⟨hbits ▸ hholds, hlen.trans (h.size.trans hsize.symm)⟩
  · have hpast : w.capacity < w.position + width := by
      rw [h.capacity, h.position]
      exact Nat.not_le.1 hroom
    have hpos : 0 < width := by
      have hle := writer.position_le
      omega
    rw [write_of_past (Nat.not_lt.1 hwide) hpos hpast, BitWriter.write, checkWidth, if_neg hwide, h.capacity,
      h.position]
    simp only [dif_neg hroom]
    exact .error _

/-- The fields of some words, as numbers. -/
def numbers (fields : List (UInt32 × Nat)) : List (Nat × Nat) :=
  fields.map fun (value, width) => (value.toNat, width)

theorem widths_numbers (fields : List (UInt32 × Nat)) :
    (numbers fields).map Prod.snd = fields.map Prod.snd := List.map_map

theorem fieldsBits_numbers (fields : List (UInt32 × Nat)) :
    fieldsBits (numbers fields) = fields.flatMap fun (value, width) => fieldBits value.toNat width :=
  List.flatMap_map ..

/-- The run, by induction on the fields: both write the same fields, and are at the same place then. -/
theorem Shows.writeEach (h : w.Shows writer) (fields : List (UInt32 × Nat)) :
    (writer.writeEach (numbers fields)).1 = numbers (w.writeEach fields).1 ∧
      (w.writeEach fields).2.Shows (writer.writeEach (numbers fields)).2 := by
  induction fields generalizing w writer with
  | nil => exact ⟨rfl, h⟩
  | cons field fields ih =>
      obtain ⟨value, width⟩ := field
      have hwrite := h.write value width
      change (writer.writeEach ((value.toNat, width) :: numbers fields)).1 = _ ∧
        Shows _ (writer.writeEach ((value.toNat, width) :: numbers fields)).2
      unfold WriteCursor.writeEach BitWriter.writeEach
      rcases h.holds.write_cases value width with ⟨e, he⟩ | ⟨next, hnext, _⟩
      · rw [he] at hwrite ⊢
        generalize writer.write value.toNat width = refused at hwrite
        cases hwrite
        exact ih h
      · rw [hnext] at hwrite ⊢
        generalize writer.write value.toNat width = written at hwrite
        cases hwrite with
        | ok hshows =>
            obtain ⟨hwritten, hshows⟩ := ih hshows
            exact ⟨congrArg ((value.toNat, width) :: ·) hwritten, hshows⟩

/-- From the start on, a cursor holds the fields that it has not refused. -/
theorem holds_writeEach (size : Nat) (fields : List (UInt32 × Nat)) :
    ((ofBits size).writeEach fields).2.Holds (fieldsBits (numbers ((ofBits size).writeEach fields).1)) := by
  obtain ⟨hwritten, hshows⟩ := (shows_ofBits size).writeEach fields
  have hbits := (bits_of_writeEach (BitWriter.ofBits size) (numbers fields)).2
  rw [hwritten] at hbits
  have hholds := hshows.holds
  rwa [hbits] at hholds

/-- No field that is written is wider than a field can be. -/
theorem width_le_of_mem_writeEach (w : WriteCursor) (fields : List (UInt32 × Nat)) :
    ∀ field ∈ (w.writeEach fields).1, field.2 ≤ maxFieldWidth := by
  induction fields generalizing w with
  | nil => exact fun _ hmem => nomatch hmem
  | cons field fields ih =>
      obtain ⟨value, width⟩ := field
      unfold WriteCursor.writeEach
      match hresult : w.write value width with
      | (.ok (), next) =>
          rw [List.forall_mem_cons]
          refine ⟨?_, ih next⟩
          by_contra hwide
          rw [write_of_wide (Nat.not_le.1 hwide)] at hresult
          cases hresult
      | (.error e, next) => exact ih next

end WriteCursor

end PathQueryIndex
