/-
Module: PathQueryIndex.Proofs.BitField
Layer: Proofs
Purpose: Reading bit fields back. A number that fits its field is the number that the bits of the field
  write, bytes keep the bits that are packed into them, and what a writer has written is what a reader
  of its bytes finds, followed by less than a byte of zeros.
Imports: PathQueryIndex.BitField, PathQueryIndex.Proofs.Outcome, PathQueryIndex.Sums,
  Mathlib.Algebra.Group.Nat.Defs
Main exports: bitsValue_fieldBits, fieldBits_bitsValue, bitsValue_append, fieldBits_add, bytesBits_inj,
  bytesBits_split, bytesBits_packBytes, fieldsBits, BitWriter.bits_of_writeAll, BitWriter.exists_writeAll,
  BitWriter.bytesBits_of_writeAll
-/
import PathQueryIndex.BitField
import PathQueryIndex.Proofs.Outcome
import PathQueryIndex.Sums
import Mathlib.Algebra.Group.Nat.Defs

namespace PathQueryIndex

variable {value width k n : Nat} {bits xs : List Bool}

/-! ### Numbers and their bits -/

/-- The lowest bit of a field comes last. -/
theorem fieldBits_succ (value width : Nat) :
    fieldBits value (width + 1) = fieldBits (value / 2) width ++ [value.testBit 0] := by
  induction width with
  | zero => rfl
  | succ width ih =>
      rw [fieldBits, ih, fieldBits, Nat.testBit_succ, List.cons_append]

theorem bitsValue_append_singleton (xs : List Bool) (b : Bool) :
    bitsValue (xs ++ [b]) = 2 * bitsValue xs + b.toNat := by
  rw [bitsValue, List.foldl_append]
  rfl

theorem toNat_testBit_zero (value : Nat) : (value.testBit 0).toNat = value % 2 := by
  rw [Nat.testBit_zero]
  rcases Nat.mod_two_eq_zero_or_one value with h | h <;> rw [h] <;> rfl

/-- A number that fits the field is what its bits write. -/
theorem bitsValue_fieldBits (h : value < 2 ^ width) : bitsValue (fieldBits value width) = value := by
  induction width generalizing value with
  | zero =>
      have hzero : value = 0 := Nat.lt_one_iff.1 h
      rw [hzero]
      rfl
  | succ width ih =>
      have hhalf : value / 2 < 2 ^ width := by
        rw [Nat.pow_succ] at h
        omega
      rw [fieldBits_succ, bitsValue_append_singleton, ih hhalf, toNat_testBit_zero]
      omega

theorem exists_append_singleton (h : xs.length = n + 1) :
    ∃ ys b, xs = ys ++ [b] ∧ ys.length = n := by
  have hne : xs ≠ [] := List.ne_nil_of_length_eq_add_one h
  refine ⟨xs.dropLast, xs.getLast hne, (List.dropLast_concat_getLast hne).symm, ?_⟩
  rw [List.length_dropLast, h, Nat.add_sub_cancel]

/-- Some bits are the bits of the number that they write. -/
theorem fieldBits_bitsValue (xs : List Bool) : fieldBits (bitsValue xs) xs.length = xs := by
  induction h : xs.length generalizing xs with
  | zero =>
      rw [List.length_eq_zero_iff.1 h]
      rfl
  | succ n ih =>
      obtain ⟨ys, b, rfl, hlen⟩ := exists_append_singleton h
      have hhalf : (2 * bitsValue ys + b.toNat) / 2 = bitsValue ys := by
        have hb := b.toNat_le
        omega
      have hlast : (2 * bitsValue ys + b.toNat).testBit 0 = b := by
        rw [Nat.testBit_zero]
        cases b <;> simp
      rw [bitsValue_append_singleton, fieldBits_succ, hhalf, hlast, ih ys hlen]

theorem bitsValue_lt (xs : List Bool) : bitsValue xs < 2 ^ xs.length := by
  induction h : xs.length generalizing xs with
  | zero =>
      rw [List.length_eq_zero_iff.1 h]
      exact Nat.zero_lt_one
  | succ n ih =>
      obtain ⟨ys, b, rfl, hlen⟩ := exists_append_singleton h
      have hys := ih ys hlen
      have hb := b.toNat_le
      rw [bitsValue_append_singleton, Nat.pow_succ]
      omega

/-- Bits behind a number shift it. -/
theorem bitsValue_append (xs ys : List Bool) :
    bitsValue (xs ++ ys) = bitsValue xs <<< ys.length ||| bitsValue ys := by
  rw [← Nat.shiftLeft_add_eq_or_of_lt (bitsValue_lt ys)]
  induction h : ys.length generalizing ys with
  | zero =>
      rw [List.length_eq_zero_iff.1 h, List.append_nil]
      rfl
  | succ n ih =>
      obtain ⟨ys, b, rfl, hlen⟩ := exists_append_singleton h
      rw [← List.append_assoc, bitsValue_append_singleton, bitsValue_append_singleton, ih ys hlen,
        Nat.shiftLeft_succ]
      omega

/-- Zeros behind some bits shift the number that they write. -/
theorem bitsValue_append_replicate (xs : List Bool) (k : Nat) :
    bitsValue (xs ++ List.replicate k false) = bitsValue xs <<< k := by
  induction k with
  | zero =>
      rw [List.replicate_zero, List.append_nil]
      rfl
  | succ k ih =>
      rw [List.replicate_succ', ← List.append_assoc, bitsValue_append_singleton, ih,
        Nat.shiftLeft_succ]
      rfl

/-- A field has the low bits of a number only. -/
theorem fieldBits_mod_of_le (value : Nat) (h : n ≤ width) :
    fieldBits (value % 2 ^ width) n = fieldBits value n := by
  induction n with
  | zero => rfl
  | succ n ih =>
      rw [fieldBits, fieldBits, ih (Nat.le_of_succ_le h), Nat.testBit_mod_two_pow,
        decide_eq_true (Nat.lt_of_succ_le h), Bool.true_and]

theorem fieldBits_mod (value width : Nat) : fieldBits (value % 2 ^ width) width = fieldBits value width :=
  fieldBits_mod_of_le value (Nat.le_refl width)

/-- The bits of a field write the number reduced to it. -/
theorem bitsValue_fieldBits_eq_mod (value width : Nat) :
    bitsValue (fieldBits value width) = value % 2 ^ width := by
  rw [← fieldBits_mod]
  exact bitsValue_fieldBits (Nat.mod_lt _ (Nat.two_pow_pos width))

/-- A field is one of the high bits and then one of the low bits. -/
theorem fieldBits_add (value m n : Nat) :
    fieldBits value (m + n) = fieldBits (value >>> n) m ++ fieldBits value n := by
  induction m with
  | zero => rw [Nat.zero_add, fieldBits, List.nil_append]
  | succ m ih =>
      rw [Nat.add_right_comm, fieldBits, fieldBits, ih, Nat.testBit_shiftRight, Nat.add_comm n m,
        List.cons_append]

theorem take_fieldBits (value : Nat) (h : k ≤ n) :
    (fieldBits value n).take k = fieldBits (value >>> (n - k)) k := by
  conv_lhs => rw [← Nat.add_sub_of_le h, fieldBits_add]
  exact List.take_left' (length_fieldBits ..)

theorem drop_fieldBits (value : Nat) (h : k ≤ n) : (fieldBits value n).drop k = fieldBits value (n - k) := by
  conv_lhs => rw [← Nat.add_sub_of_le h, fieldBits_add]
  exact List.drop_left' (length_fieldBits ..)

theorem fieldBits_zero (n : Nat) : fieldBits 0 n = List.replicate n false := by
  induction n with
  | zero => rfl
  | succ n ih => rw [fieldBits, ih, Nat.zero_testBit, List.replicate_succ]

/-- A number that is shorter than its field has zeros in front. -/
theorem fieldBits_mod_add (value m n : Nat) :
    fieldBits (value % 2 ^ n) (m + n) = List.replicate m false ++ fieldBits value n := by
  have hhigh : (value % 2 ^ n) >>> n = 0 := by
    rw [Nat.shiftRight_eq_div_pow]
    exact Nat.div_eq_of_lt (Nat.mod_lt _ (Nat.two_pow_pos n))
  rw [fieldBits_add, hhigh, fieldBits_zero, fieldBits_mod]

/-- A number that is shifted has zeros behind it. -/
theorem fieldBits_shiftLeft (value m n : Nat) :
    fieldBits (value <<< n) (m + n) = fieldBits value m ++ List.replicate n false := by
  have hlow : (value <<< n) % 2 ^ n = 0 := by rw [Nat.shiftLeft_eq, Nat.mul_mod_left]
  rw [fieldBits_add, Nat.shiftLeft_shiftRight, ← fieldBits_mod (value <<< n), hlow, fieldBits_zero]

theorem fieldBits_or (a b n : Nat) :
    fieldBits (a ||| b) n = List.zipWith or (fieldBits a n) (fieldBits b n) := by
  induction n with
  | zero => rfl
  | succ n ih => rw [fieldBits, fieldBits, fieldBits, ih, Nat.testBit_or, List.zipWith_cons_cons]

/-! ### Bytes -/

theorem byteBits_inj {b c : UInt8} : byteBits b = byteBits c ↔ b = c := by
  constructor
  · intro h
    have hvalue := congrArg bitsValue h
    rw [byteBits, byteBits, bitsValue_fieldBits b.toNat_lt, bitsValue_fieldBits c.toNat_lt] at hvalue
    exact UInt8.toNat_inj.1 hvalue
  · exact congrArg byteBits

/-- Bytes are told apart by their bits. -/
theorem bytesBits_inj {bytes bytes' : List UInt8} :
    bytesBits bytes = bytesBits bytes' ↔ bytes = bytes' := by
  constructor
  · intro h
    induction bytes generalizing bytes' with
    | nil =>
        cases bytes' with
        | nil => rfl
        | cons c bytes' => cases h
    | cons b bytes ih =>
        cases bytes' with
        | nil => cases h
        | cons c bytes' =>
            obtain ⟨hfirst, hrest⟩ := List.append_inj h (by simp [byteBits])
            rw [byteBits_inj.1 hfirst, ih hrest]
  · exact congrArg bytesBits

theorem bytesBits_append (bytes bytes' : List UInt8) :
    bytesBits (bytes ++ bytes') = bytesBits bytes ++ bytesBits bytes' := List.flatMap_append

theorem bytesBits_cons (b : UInt8) (bytes : List UInt8) :
    bytesBits (b :: bytes) = byteBits b ++ bytesBits bytes := List.flatMap_cons

theorem bytesBits_replicate_zero (n : Nat) : bytesBits (List.replicate n 0) = List.replicate (8 * n) false := by
  induction n with
  | zero => rfl
  | succ n ih =>
      have hbyte : byteBits 0 = List.replicate 8 false := rfl
      rw [List.replicate_succ, bytesBits_cons, ih, hbyte, List.replicate_append_replicate, Nat.mul_succ,
        Nat.add_comm]

/-- The bits in front of a byte, those in it, and those behind it. -/
theorem bytesBits_split {bytes : List UInt8} {i : Nat} (hi : i < bytes.length) :
    bytesBits bytes = bytesBits (bytes.take i) ++ (byteBits bytes[i] ++ bytesBits (bytes.drop (i + 1))) := by
  rw [← bytesBits_cons, ← bytesBits_append, ← List.drop_eq_getElem_cons hi, List.take_append_drop]

/-- A byte has the bits that are packed into it, and zeros behind them. -/
theorem byteBits_pack (h : xs.length ≤ 8) :
    byteBits (UInt8.ofNat (bitsValue xs <<< (8 - xs.length))) =
      xs ++ List.replicate (8 - xs.length) false := by
  have hlen : (xs ++ List.replicate (8 - xs.length) false).length = 8 := by
    rw [List.length_append, List.length_replicate]
    omega
  have hlt := bitsValue_lt (xs ++ List.replicate (8 - xs.length) false)
  rw [hlen] at hlt
  rw [← bitsValue_append_replicate, byteBits, UInt8.toNat_ofNat_of_lt' hlt]
  have hbits := fieldBits_bitsValue (xs ++ List.replicate (8 - xs.length) false)
  rw [hlen] at hbits
  exact hbits

/-- Bytes keep the bits that are packed into them, and have zeros behind them. -/
theorem bytesBits_packBytes (h : bits.length ≤ 8 * n) :
    bytesBits (packBytes n bits) = bits ++ List.replicate (8 * n - bits.length) false := by
  induction n generalizing bits with
  | zero =>
      rw [List.length_eq_zero_iff.1 (Nat.le_zero.1 h)]
      rfl
  | succ n ih =>
      have hfirst : (bits.take 8).length ≤ 8 := List.length_take_le ..
      have hrest : (bits.drop 8).length ≤ 8 * n := by
        rw [List.length_drop]
        omega
      rw [packBytes, bytesBits, List.flatMap_cons, byteBits_pack hfirst]
      change _ ++ bytesBits (packBytes n (bits.drop 8)) = _
      rw [ih hrest]
      by_cases hlong : 8 ≤ bits.length
      · have htake : (bits.take 8).length = 8 := by
          rw [List.length_take]
          omega
        have hzeros : 8 * n - (bits.drop 8).length = 8 * (n + 1) - bits.length := by
          rw [List.length_drop]
          omega
        rw [htake, hzeros, Nat.sub_self, List.replicate_zero, List.append_nil, ← List.append_assoc,
          List.take_append_drop]
      · have hle : bits.length ≤ 8 := by omega
        have hzeros : 8 * (n + 1) - bits.length = (8 - bits.length) + 8 * n := by omega
        rw [List.take_of_length_le hle, List.drop_of_length_le hle, hzeros,
          ← List.replicate_append_replicate, List.append_assoc]
        rfl

/-! ### Writing -/

/-- The bits of some fields, one after the other. -/
def fieldsBits (fields : List (Nat × Nat)) : List Bool :=
  fields.flatMap fun (value, width) => fieldBits value width

theorem length_fieldsBits (fields : List (Nat × Nat)) :
    (fieldsBits fields).length = sumOf (fields.map Prod.snd) := by
  induction fields with
  | nil => rfl
  | cons field fields ih =>
      rw [fieldsBits, List.flatMap_cons, List.length_append, length_fieldBits]
      exact congrArg (field.2 + ·) ih

namespace BitWriter

variable {w next : BitWriter} {fields : List (Nat × Nat)}

theorem bits_of_write (h : w.write value width = .ok next) :
    next.size = w.size ∧ next.bits = w.bits ++ fieldBits value width := by
  obtain ⟨_, _, hrest⟩ := bind_eq_ok.1 h
  split at hrest
  · rw [← pure_eq_ok.1 hrest]
    refine ⟨rfl, ?_⟩
    change ((fieldBits value width).reverse ++ w.reversed).reverse = _
    rw [List.reverse_append, List.reverse_reverse]
    rfl
  · cases hrest

/-- Fields are written one after the other. -/
theorem bits_of_writeAll (h : w.writeAll fields = .ok next) :
    next.size = w.size ∧ next.bits = w.bits ++ fieldsBits fields := by
  induction fields generalizing w with
  | nil =>
      cases h
      exact ⟨rfl, (List.append_nil _).symm⟩
  | cons field fields ih =>
      obtain ⟨middle, hmiddle, hrest⟩ := bind_eq_ok.1 h
      obtain ⟨hsize, hbits⟩ := bits_of_write hmiddle
      obtain ⟨hsize', hbits'⟩ := ih hrest
      refine ⟨hsize'.trans hsize, ?_⟩
      rw [hbits', hbits, List.append_assoc]
      rfl

/-- A field that ends in the buffer is written. -/
theorem exists_write (value : Nat) (hwidth : width ≤ maxFieldWidth)
    (hroom : w.position + width ≤ 8 * w.size) : ∃ next, w.write value width = .ok next := by
  unfold write
  simp only [checkWidth, if_neg (Nat.not_lt.2 hwidth), dif_pos hroom]
  exact ⟨_, rfl⟩

/-- Fields that end in the buffer are written. -/
theorem exists_writeAll (hwidth : ∀ field ∈ fields, field.2 ≤ maxFieldWidth)
    (hroom : w.position + sumOf (fields.map Prod.snd) ≤ 8 * w.size) :
    ∃ next, w.writeAll fields = .ok next := by
  induction fields generalizing w with
  | nil => exact ⟨w, rfl⟩
  | cons field fields ih =>
      have hsum : w.position + (field.2 + sumOf (fields.map Prod.snd)) ≤ 8 * w.size := hroom
      obtain ⟨middle, hmiddle⟩ := exists_write field.1 (hwidth _ (List.mem_cons_self ..))
        (show w.position + field.2 ≤ 8 * w.size by omega)
      obtain ⟨hsize, hbits⟩ := bits_of_write hmiddle
      have hposition := congrArg List.length hbits
      rw [List.length_append, length_bits, length_bits, length_fieldBits] at hposition
      obtain ⟨next, hnext⟩ := ih (w := middle) (fun f hf => hwidth f (List.mem_cons_of_mem _ hf))
        (by rw [hsize, hposition]; omega)
      exact ⟨next, bind_eq_ok.2 ⟨middle, hmiddle, hnext⟩⟩

/-- The bytes of a buffer that was made for some fields have the bits of the fields, and less than a byte
    of zeros behind them. -/
theorem bytesBits_of_writeAll
    (h : (ofBits (sumOf (fields.map Prod.snd))).writeAll fields = .ok next) :
    ∃ k < 8, bytesBits next.bytes = fieldsBits fields ++ List.replicate k false := by
  obtain ⟨hsize, hbits⟩ := bits_of_writeAll h
  have hsize : next.size = (sumOf (fields.map Prod.snd) + 7) / 8 := hsize
  have hbits : next.bits = fieldsBits fields := hbits
  have hlen := length_fieldsBits fields
  refine ⟨8 * next.size - (fieldsBits fields).length, ?_, ?_⟩
  · omega
  · rw [bytes, hbits]
    apply bytesBits_packBytes
    omega

end BitWriter

end PathQueryIndex
