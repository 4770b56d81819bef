/-
Module: PathQueryIndex.Proofs.Listing.SignedCode
Layer: Proofs
Purpose: Signed numbers by their words. A signed number and its complement add up to the greatest word, and
  it is negative if its word is in the upper half. Folding sends the lower half to the even words and the
  upper half to the odd ones, so nothing is lost; and the signed code of a label tells the two directions of
  a predicate apart as long as its number is in the lower half.
Imports: PathQueryIndex.Listing.Wire, Mathlib.Algebra.Ring.Nat
Main exports: SignedCode.nonneg_iff, Wire.unfold_fold, Label.eq_of_signed_eq
-/
import Mathlib.Algebra.Ring.Nat
import PathQueryIndex.Listing.Wire

namespace PathQueryIndex

/-! ### Words of signed numbers -/

namespace SignedCode

variable {v w : Int32}

theorem ext (h : v.toUInt32.toNat = w.toUInt32.toNat) : v = w := by
  have hword := UInt32.toNat_inj.1 h
  cases v
  cases w
  cases hword
  rfl

/-- The numbers that are not negative have the words of the lower half. -/
theorem nonneg_iff : 0 ≤ v ↔ v.toUInt32.toNat < 2 ^ 31 := by
  rw [Int32.le_iff_toInt_le]
  change (0 : Int) ≤ v.toBitVec.toInt ↔ v.toBitVec.toNat < 2 ^ 31
  have hlt := v.toBitVec.isLt
  rw [BitVec.toInt_eq_toNat_cond]
  split <;> omega

/-- The word of the complement of a number. -/
theorem toNat_neg_sub_one (v : Int32) : (-v - 1).toUInt32.toNat = 2 ^ 32 - 1 - v.toUInt32.toNat := by
  change (-v.toBitVec - 1#32).toNat = 2 ^ 32 - 1 - v.toBitVec.toNat
  have hlt := v.toBitVec.isLt
  bv_omega

/-- Adding one and changing the sign gives the complement too. -/
theorem toNat_neg_add_one (v : Int32) : (-(v + 1)).toUInt32.toNat = 2 ^ 32 - 1 - v.toUInt32.toNat := by
  change (-(v.toBitVec + 1#32)).toNat = 2 ^ 32 - 1 - v.toBitVec.toNat
  have hlt := v.toBitVec.isLt
  bv_omega

end SignedCode

/-! ### Folded numbers -/

namespace Wire

open SignedCode

theorem toNat_fold (v : Int32) : (fold v).toNat =
    if 0 ≤ v then v.toUInt32.toNat * 2 else (2 ^ 32 - 1 - v.toUInt32.toNat) * 2 + 1 := by
  unfold fold
  split
  · rename_i h
    have hlow := nonneg_iff.1 h
    rw [UInt32.toNat_mul]
    change v.toUInt32.toNat * 2 % 2 ^ 32 = _
    omega
  · rename_i h
    have hhigh := mt nonneg_iff.2 h
    have hlt := v.toUInt32.toNat_lt
    rw [UInt32.toNat_add, UInt32.toNat_mul, toNat_neg_add_one]
    change ((2 ^ 32 - 1 - v.toUInt32.toNat) * 2 % 2 ^ 32 + 1) % 2 ^ 32 = _
    omega

/-- A number in the first half of the words is folded to an even word, others to an odd one. -/
theorem fold_even_iff (v : Int32) : fold v % 2 = 0 ↔ 0 ≤ v := by
  have hmod : (fold v % 2).toNat = (fold v).toNat % 2 := UInt32.toNat_mod ..
  have hfold := toNat_fold v
  rw [← UInt32.toNat_inj, hmod]
  change (fold v).toNat % 2 = 0 ↔ 0 ≤ v
  split at hfold
  · rename_i h
    exact iff_of_true (by omega) h
  · rename_i h
    exact iff_of_false (by omega) h

/-- Unfolding a folded number gives it back. -/
theorem unfold_fold (v : Int32) : unfold (fold v) = v := by
  have hhalf : (fold v / 2).toNat = (fold v).toNat / 2 := UInt32.toNat_div ..
  have hfold := toNat_fold v
  have hlt := v.toUInt32.toNat_lt
  apply SignedCode.ext
  simp only [unfold, fold_even_iff]
  split
  · rename_i h
    change (fold v / 2).toNat = v.toUInt32.toNat
    rw [if_pos h] at hfold
    omega
  · rename_i h
    rw [toNat_neg_sub_one]
    change 2 ^ 32 - 1 - (fold v / 2).toNat = v.toUInt32.toNat
    rw [if_neg h] at hfold
    omega

end Wire

/-! ### Labels -/

namespace Label

variable {l m : Label}

theorem toNat_signed (l : Label) :
    l.signed.toUInt32.toNat = if l.inverse then 2 ^ 32 - 1 - l.id.toNat else l.id.toNat := by
  unfold signed
  split
  · exact SignedCode.toNat_neg_sub_one _
  · rfl

/-- Labels of the lower half are determined by their signed codes. -/
theorem eq_of_signed_eq (hl : l.id.toNat < 2 ^ 31) (hm : m.id.toNat < 2 ^ 31)
    (h : l.signed = m.signed) : l = m := by
  have hcode := congrArg (fun v : Int32 => v.toUInt32.toNat) h
  simp only [toNat_signed] at hcode
  obtain ⟨id, inverse⟩ := l
  obtain ⟨id', inverse'⟩ := m
  have hsame : id.toNat = id'.toNat ∧ inverse = inverse' := by
    cases inverse <;> cases inverse' <;> simp at hcode hl hm ⊢ <;> omega
  rw [UInt32.toNat_inj.1 hsame.1, hsame.2]

end Label

end PathQueryIndex
