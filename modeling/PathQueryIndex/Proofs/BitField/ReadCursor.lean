/-
Module: PathQueryIndex.Proofs.BitField.ReadCursor
Layer: Proofs
Purpose: Taking fields out by shifts and masks. A reading cursor gathers the bits that stand next, however
  many bytes they come from, so it reads what a reader does that is seen through its bits. What one cursor has
  written the other one reads back, reduced to the widths of the fields.
Imports: PathQueryIndex.Proofs.BitField.WriteCursor
Main exports: toNat_piece, ReadCursor.gather_eq, ReadCursor.read_refused_iff, ReadCursor.read_cases,
  ReadCursor.readEach_of_bits, ReadCursor.readEach_written, ReadCursor.Shows, ReadCursor.Shows.read,
  ReadCursor.Shows.readEach, cursors_keep_fields
-/
import PathQueryIndex.Proofs.BitField.WriteCursor

namespace PathQueryIndex

variable {value : UInt64} {width taken remaining bit off i : Nat} {xs rest : List Bool}
  {bytes : List UInt8} {c : ReadCursor}

/-! ### Bits that are taken out of a byte -/

/-- The bits from somewhere in a byte on. -/
theorem drop_bytesBits (hi : i < bytes.length) (hoff : off ≤ 8) :
    (bytesBits bytes).drop (8 * i + off) =
      fieldBits bytes[i].toNat (8 - off) ++ bytesBits (bytes.drop (i + 1)) := by
  have htake : (bytesBits (bytes.take i)).length = 8 * i := by
    rw [length_bytesBits, List.length_take, Nat.min_eq_left (Nat.le_of_lt hi)]
  have hbyte : off ≤ (byteBits bytes[i]).length := by
    rw [byteBits, length_fieldBits]
    exact hoff
  rw [bytesBits_split hi, ← List.drop_drop, List.drop_left' htake, List.drop_append_of_le_length hbyte, byteBits,
    drop_fieldBits _ hoff]

/-- A piece of a byte that is shifted to the end is the number that its bits write. -/
theorem toNat_piece (hi : i < bytes.length) (hoff : off ≤ 8) (htaken : taken ≤ 8 - off) :
    ((bytes[i].toUInt64 >>> UInt64.ofNat (8 - off - taken)) &&& lowBits taken).toNat =
      bitsValue (((bytesBits bytes).drop (8 * i + off)).take taken) := by
  have hmask : taken ≤ maxFieldWidth := Nat.le_trans htaken (Nat.le_trans (Nat.sub_le ..) (by decide))
  have hshift : 8 - off - taken ≤ maxFieldWidth :=
    Nat.le_trans (Nat.sub_le ..) (Nat.le_trans (Nat.sub_le ..) (by decide))
  have htake : taken ≤ (fieldBits bytes[i].toNat (8 - off)).length := by
    rw [length_fieldBits]
    exact htaken
  rw [toNat_and_lowBits hmask, toNat_shiftRight_ofNat hshift, drop_bytesBits hi hoff,
    List.take_append_of_le_length htake, take_fieldBits _ htaken, bitsValue_fieldBits_eq_mod,
    UInt8.toNat_toUInt64]

namespace ReadCursor

/-- Gathering, by induction on the bits that are missing: as long as a word has room for all of them, it is the
    number that the bits gathered so far and those that stand next write. -/
theorem gather_eq (hvalue : value.toNat = bitsValue xs) (hlen : xs.length + remaining ≤ maxFieldWidth)
    (hroom : bit + remaining ≤ 8 * bytes.length) :
    (gather bytes value remaining bit).1.toNat = bitsValue (xs ++ ((bytesBits bytes).drop bit).take remaining) ∧
      (gather bytes value remaining bit).2 = bit + remaining := by
  fun_induction ReadCursor.gather bytes value remaining bit generalizing xs
  case case1 value bit =>
      rw [List.take_zero, List.append_nil]
      exact ⟨hvalue, rfl⟩
  case case2 value remaining bit hmore byte free taken piece ih =>
      have hi : bit / 8 < bytes.length := by omega
      have hoff : bit % 8 ≤ 8 := Nat.le_of_lt (Nat.mod_lt bit (by decide))
      have htaken : taken ≤ 8 - bit % 8 := Nat.min_le_right ..
      have hle : taken ≤ remaining := Nat.min_le_left ..
      -- what has been gathered and the piece behind it
      have hpiece := toNat_piece hi hoff htaken
      rw [Nat.div_add_mod] at hpiece
      have hpieces : (((bytesBits bytes).drop bit).take taken).length = taken := by
        rw [List.length_take, List.length_drop, length_bytesBits]
        omega
      have hshifted : value.toNat <<< taken < 2 ^ 64 := by
        have hlt := bitsValue_lt (xs ++ List.replicate taken false)
        rw [bitsValue_append_replicate, List.length_append, List.length_replicate] at hlt
        rw [hvalue]
        exact Nat.lt_of_lt_of_le hlt (Nat.pow_le_pow_right Nat.zero_lt_two (by
          rw [maxFieldWidth] at hlen
          omega))
      have hnext : ((value <<< UInt64.ofNat taken) ||| piece).toNat =
          bitsValue (xs ++ ((bytesBits bytes).drop bit).take taken) := by
        have hbyte : byte = bytes[bit / 8].toUInt64 := by
          change (bytes.getD (bit / 8) 0).toUInt64 = _
          rw [List.getD_eq_getElem?_getD, List.getElem?_eq_getElem hi, Option.getD_some]
        rw [UInt64.toNat_or, toNat_shiftLeft_ofNat (by omega), Nat.mod_eq_of_lt hshifted, bitsValue_append,
          hpieces, hvalue, ← hpiece, ← hbyte]
      obtain ⟨hgather, hbit⟩ := ih hnext (by rw [List.length_append, hpieces]; omega) (by omega)
      refine ⟨?_, hbit.trans (by omega)⟩
      rw [hgather, List.append_assoc, ← List.drop_drop, ← List.take_add, Nat.add_sub_of_le hle]

/-! ### Fields that are read and reads that are refused -/

theorem read_of_wide (h : maxFieldWidth < width) (c : ReadCursor) :
    c.read width = (.error (.argument (.fieldWidth width)), c) := by
  unfold ReadCursor.read checkWidth
  rw [if_pos h]

theorem read_of_past (hle : width ≤ maxFieldWidth) (hpast : c.remaining < width) :
    c.read width = (.error (.bitOverflow c.capacity (c.bit + width)), c) := by
  unfold ReadCursor.read checkWidth
  rw [if_neg (Nat.not_lt.2 hle)]
  simp only
  rw [if_pos hpast]

/-- The step: a cursor that is not past its bytes reads the number in the bits that stand next. -/
theorem read_of_room (hle : width ≤ maxFieldWidth) (hroom : c.bit + width ≤ c.capacity) :
    ∃ v : UInt32, c.read width = (.ok v, ⟨c.data, c.bit + width⟩) ∧
      v.toNat = bitsValue (((bytesBits c.data).drop c.bit).take width) := by
  have hremaining : ¬ c.remaining < width := by
    rw [remaining]
    omega
  have hempty : (0 : UInt64).toNat = bitsValue [] := rfl
  have hend : c.bit + width ≤ 8 * c.data.length := hroom
  obtain ⟨hvalue, hbit⟩ := gather_eq hempty (by rw [List.length_nil, Nat.zero_add]; exact hle) hend
  rw [List.nil_append] at hvalue
  refine ⟨(gather c.data 0 width c.bit).1.toUInt32, ?_, ?_⟩
  · unfold ReadCursor.read checkWidth
    rw [if_neg (Nat.not_lt.2 hle)]
    simp only
    rw [if_neg hremaining, hbit]
  · have hlt := bitsValue_lt (((bytesBits c.data).drop c.bit).take width)
    rw [UInt64.toNat_toUInt32, hvalue]
    refine Nat.mod_eq_of_lt (Nat.lt_of_lt_of_le hlt (Nat.pow_le_pow_right Nat.zero_lt_two ?_))
    exact Nat.le_trans (List.length_take_le ..) hle

/-- A read is refused if no field is that wide, or if the field would end past the bytes. -/
theorem read_refused_iff (hbit : c.bit ≤ c.capacity) (width : Nat) :
    (∃ e, c.read width = (.error e, c)) ↔ maxFieldWidth < width ∨ c.capacity < c.bit + width := by
  constructor
  · rintro ⟨e, he⟩
    by_contra hnot
    rw [not_or, Nat.not_lt, Nat.not_lt] at hnot
    obtain ⟨v, hv, _⟩ := read_of_room hnot.1 hnot.2
    rw [hv] at he
    cases he
  · intro h
    by_cases hwide : maxFieldWidth < width
    · exact ⟨_, read_of_wide hwide c⟩
    · have hpast : c.remaining < width := by
        have hend := h.resolve_left hwide
        rw [remaining]
        omega
      exact ⟨_, read_of_past (Nat.not_lt.1 hwide) hpast⟩

/-- A field is either refused or read. -/
theorem read_cases (hbit : c.bit ≤ c.capacity) (width : Nat) :
    (∃ e, c.read width = (.error e, c)) ∨ ∃ v, c.read width = (.ok v, ⟨c.data, c.bit + width⟩) := by
  by_cases hrefused : ∃ e, c.read width = (.error e, c)
  · exact .inl hrefused
  · rw [read_refused_iff hbit, not_or, Nat.not_lt, Nat.not_lt] at hrefused
    obtain ⟨v, hv, _⟩ := read_of_room hrefused.1 hrefused.2
    exact .inr ⟨v, hv⟩

/-- The run, by induction on the fields whose bits stand next: each of them is read, reduced to its width. -/
theorem readEach_of_bits {fields : List (Nat × Nat)} (hwidth : ∀ field ∈ fields, field.2 ≤ maxFieldWidth)
    (hbit : c.bit ≤ c.capacity) (hbits : (bytesBits c.data).drop c.bit = fieldsBits fields ++ rest) :
    c.readEach (fields.map Prod.snd) =
      (fields.map fun (value, width) => .ok (UInt32.ofNat (value % 2 ^ width)),
        ⟨c.data, c.bit + sumOf (fields.map Prod.snd)⟩) := by
  induction fields generalizing c with
  | nil => rfl
  | cons field fields ih =>
      obtain ⟨value, width⟩ := field
      rw [List.forall_mem_cons] at hwidth
      change _ = fieldBits value width ++ fieldsBits fields ++ rest at hbits
      rw [List.append_assoc] at hbits
      have hroom : c.bit + width ≤ c.capacity := by
        have hlen := congrArg List.length hbits
        rw [List.length_drop, length_bytesBits, List.length_append, length_fieldBits] at hlen
        change c.capacity - _ = _ at hlen
        omega
      obtain ⟨v, hread, hv⟩ := read_of_room hwidth.1 hroom
      have hvalue : v = UInt32.ofNat (value % 2 ^ width) := by
        rw [← UInt32.ofNat_toNat (x := v), hv, hbits, List.take_left' (length_fieldBits ..),
          bitsValue_fieldBits_eq_mod]
      have hnext : (bytesBits c.data).drop (c.bit + width) = fieldsBits fields ++ rest := by
        rw [← List.drop_drop, hbits, List.drop_left' (length_fieldBits ..)]
      have hrest := ih (c := ⟨c.data, c.bit + width⟩) hwidth.2 hroom hnext
      simp only at hrest
      rw [List.map_cons, readEach, hread]
      simp only
      rw [hrest, hvalue, List.map_cons, sumOf_cons, Nat.add_assoc]

/-- What a cursor has written is read back, reduced to the widths of the fields. -/
theorem readEach_written {w : WriteCursor} {written : List (UInt32 × Nat)}
    (h : w.Holds (fieldsBits (WriteCursor.numbers written)))
    (hwidth : ∀ field ∈ written, field.2 ≤ maxFieldWidth) :
    (ofBytes w.data).readEach (written.map Prod.snd) =
      (written.map fun (value, width) => .ok (UInt32.ofNat (value.toNat % 2 ^ width)),
        ⟨w.data, sumOf (written.map Prod.snd)⟩) := by
  have hnumbers : ∀ field ∈ WriteCursor.numbers written, field.2 ≤ maxFieldWidth :=
    List.forall_mem_map.2 hwidth
  have hread := readEach_of_bits (c := ofBytes w.data) hnumbers (Nat.zero_le _) h.data
  rw [WriteCursor.widths_numbers] at hread
  refine hread.trans (Prod.ext List.map_map ?_)
  exact congrArg (ReadCursor.mk w.data) (Nat.zero_add _)

/-- A cursor and a reader that is seen through its bits are at the same place of the same bytes. -/
structure Shows (c : ReadCursor) (reader : BitReader) : Prop where
  capacity : c.capacity = reader.capacity
  position : c.bit = reader.position
  unread : reader.unread = (bytesBits c.data).drop c.bit

theorem Shows.bit_le {reader : BitReader} (h : c.Shows reader) : c.bit ≤ c.capacity := by
  rw [h.capacity, h.position, ← reader.position_add]
  exact Nat.le_add_right ..

theorem shows_ofBytes (bytes : List UInt8) : (ofBytes bytes).Shows (BitReader.ofBytes bytes) := ⟨rfl, rfl, rfl⟩

/-- The step: both refuse to read a field with the same error, or both read the same number from it and stay
    at the same place. -/
theorem Shows.read {reader : BitReader} (h : c.Shows reader) (width : Nat) :
    Alike (fun got v => got.1 = v.toNat ∧ (c.read width).2.Shows got.2) (reader.read width)
      (c.read width).1 := by
  have hremaining : reader.remaining = c.remaining := by
    rw [BitReader.remaining, remaining, h.capacity, h.position]
  by_cases hwide : maxFieldWidth < width
  · rw [read_of_wide hwide, BitReader.read, checkWidth, if_pos hwide]
    exact .error _
  by_cases hpast : c.remaining < width
  · rw [read_of_past (Nat.not_lt.1 hwide) hpast, BitReader.read, checkWidth, if_neg hwide, h.capacity,
      h.position]
    simp only [hremaining, dif_neg (Nat.not_le.2 hpast)]
    exact .error _
  · have hroom : c.bit + width ≤ c.capacity := by
      have hbit := h.bit_le
      rw [remaining] at hpast
      omega
    obtain ⟨v, hv, hvalue⟩ := read_of_room (Nat.not_lt.1 hwide) hroom
    rw [hv, BitReader.read, checkWidth, if_neg hwide]
    simp only [hremaining, dif_pos (Nat.not_lt.1 hpast)]
    refine .ok ⟨?_, h.capacity, congrArg (· + width) h.position, ?_⟩
    · exact (congrArg (fun bits => bitsValue (bits.take width)) h.unread).trans hvalue.symm
    · exact (congrArg (List.drop width) h.unread).trans List.drop_drop

/-- The run, by induction on the widths: both read the same numbers, and are at the same place then. -/
theorem Shows.readEach {reader : BitReader} (h : c.Shows reader) (widths : List Nat) :
    (reader.readEach widths).1 = (c.readEach widths).1.map (Except.map UInt32.toNat) ∧
      (c.readEach widths).2.Shows (reader.readEach widths).2 := by
  induction widths generalizing c reader with
  | nil => exact ⟨rfl, h⟩
  | cons width widths ih =>
      have hread := h.read width
      unfold ReadCursor.readEach BitReader.readEach
      rcases read_cases h.bit_le width with ⟨e, he⟩ | ⟨v, hv⟩
      · rw [he] at hread ⊢
        generalize reader.read width = refused at hread
        cases hread
        obtain ⟨hvalues, hshows⟩ := ih h
        exact ⟨congrArg (.error e :: ·) hvalues, hshows⟩
      · rw [hv] at hread ⊢
        generalize reader.read width = got at hread
        cases hread with
        | @ok got _ hgot =>
            obtain ⟨value, next⟩ := got
            obtain ⟨hvalue, hshows⟩ := hgot
            obtain ⟨hvalues, hshows⟩ := ih hshows
            refine ⟨?_, hshows⟩
            rw [List.map_cons, ← hvalues]
            exact congrArg (Except.ok · :: (next.readEach widths).1) hvalue

end ReadCursor

/-- What the two cursors promise, for a buffer of any size and any fields that are written to it one after
    the other, whether they are refused or not. -/
theorem cursors_keep_fields (size : Nat) (fields : List (UInt32 × Nat)) :
    let written := ((WriteCursor.ofBits size).writeEach fields).1
    let w := ((WriteCursor.ofBits size).writeEach fields).2
    let length := sumOf (written.map Prod.snd)
    -- a field is either refused, and then the cursor and its buffer stay as they are, or written
    (∀ value width, (∃ e, w.write value width = (.error e, w)) ∨
      ∃ next, w.write value width = (.ok (), next)) ∧
    (∀ value width, (∃ e, w.write value width = (.error e, w)) ↔
      32 < width ∨ (0 < width ∧ w.capacity < w.position + width)) ∧
    -- the buffer has the fields that were written, and zeros up to its end
    w.capacity = 8 * ((size + 7) / 8) ∧
    w.position = length ∧
    bytesBits w.data =
      (written.flatMap fun (value, width) => fieldBits value.toNat width) ++
        List.replicate (w.capacity - length) false ∧
    -- they are read back, reduced to their widths
    (ReadCursor.ofBytes w.data).readEach (written.map Prod.snd) =
      (written.map fun (value, width) => .ok (UInt32.ofNat (value.toNat % 2 ^ width)), ⟨w.data, length⟩) ∧
    -- a read of any bytes fails if it is too wide or goes past the end, and then the cursor does not move
    (∀ bytes widths width, let c := ((ReadCursor.ofBytes bytes).readEach widths).2
      ((∃ e, c.read width = (.error e, c)) ∨ ∃ v, c.read width = (.ok v, ⟨c.data, c.bit + width⟩)) ∧
      ((∃ e, c.read width = (.error e, c)) ↔ 32 < width ∨ c.capacity < c.bit + width)) ∧
    -- the writer and the reader that are seen through their bits do the same
    ((BitWriter.ofBits size).writeEach (WriteCursor.numbers fields)).1 = WriteCursor.numbers written ∧
    ((BitWriter.ofBits size).writeEach (WriteCursor.numbers fields)).2.bytes = w.data ∧
    ((BitWriter.ofBits size).writeEach (WriteCursor.numbers fields)).2.position = w.position ∧
    ∀ bytes widths,
      ((BitReader.ofBytes bytes).readEach widths).1 =
        ((ReadCursor.ofBytes bytes).readEach widths).1.map (Except.map UInt32.toNat) ∧
      ((BitReader.ofBytes bytes).readEach widths).2.position =
        ((ReadCursor.ofBytes bytes).readEach widths).2.bit := by
  intro written w length
  obtain ⟨hwritten, hshows⟩ := (WriteCursor.shows_ofBits size).writeEach fields
  have hsize := (WriteCursor.bits_of_writeEach (BitWriter.ofBits size) (WriteCursor.numbers fields)).1
  have hholds : w.Holds (fieldsBits (WriteCursor.numbers written)) := WriteCursor.holds_writeEach size fields
  have hlength : (fieldsBits (WriteCursor.numbers written)).length = length := by
    rw [length_fieldsBits, WriteCursor.widths_numbers]
  have hdata := hlength ▸ hholds.data
  have hcapacity : w.capacity = 8 * ((size + 7) / 8) := hshows.capacity.trans (congrArg (8 * ·) hsize)
  refine ⟨?_, WriteCursor.write_refused_iff w, hcapacity, hholds.position.trans hlength, ?_, ?_, ?_, hwritten,
    hshows.data_eq.symm, hshows.position.symm, ?_⟩
  · exact fun value width => (hholds.write_cases value width).imp_right fun ⟨next, hnext, _⟩ => ⟨next, hnext⟩
  · exact hdata.trans (congrArg (· ++ _) (WriteCursor.fieldsBits_numbers written))
  · exact ReadCursor.readEach_written hholds (WriteCursor.width_le_of_mem_writeEach _ fields)
  · intro bytes widths width c
    have hbit := ((ReadCursor.shows_ofBytes bytes).readEach widths).2.bit_le
    exact ⟨ReadCursor.read_cases hbit width, ReadCursor.read_refused_iff hbit width⟩
  · intro bytes widths
    obtain ⟨hvalues, hshows⟩ := (ReadCursor.shows_ofBytes bytes).readEach widths
    exact ⟨hvalues, hshows.position.symm⟩

end PathQueryIndex
