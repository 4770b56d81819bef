/-
Module: PathQueryIndex.Text.CodeRanges
Layer: Core
Purpose: Sets of code points, written as closed ranges in ascending order with a gap between any two.
  Membership is looked up from the lowest range on and stops at the first range that starts too high.
Imports: none
Main exports: CodeRanges, CodeRanges.contains, CodeRanges.ascending, CodeRanges.contains_iff
-/

namespace PathQueryIndex.Text

/-- The first and the last code point of each range. -/
abbrev CodeRanges := List (Nat × Nat)

namespace CodeRanges

/-- Whether a code point lies in one of the ranges. -/
def contains : CodeRanges → Nat → Bool
  | [], _ => false
  | (first, last) :: rest, n => first ≤ n && (n ≤ last || contains rest n)

/-- Whether all ranges start at `low` or above, and each of them above the one before it. -/
def ascendingFrom (low : Nat) : CodeRanges → Bool
  | [] => true
  | (first, last) :: rest => low ≤ first && first ≤ last && ascendingFrom (last + 2) rest

/-- Whether the ranges are in order, with a gap between any two. -/
def ascending (r : CodeRanges) : Bool := ascendingFrom 0 r

theorem le_of_contains {r : CodeRanges} {low n : Nat} (h : ascendingFrom low r = true)
    (hn : contains r n = true) : low ≤ n := by
  cases r with
  | nil => cases hn
  | cons p rest =>
    simp only [ascendingFrom, Bool.and_eq_true, decide_eq_true_eq] at h
    simp only [contains, Bool.and_eq_true, decide_eq_true_eq] at hn
    omega

/-- In ascending ranges the search does not stop too early. -/
theorem contains_iff {r : CodeRanges} {low n : Nat} (h : ascendingFrom low r = true) :
    contains r n = true ↔ ∃ p ∈ r, p.1 ≤ n ∧ n ≤ p.2 := by
  induction r generalizing low with
  | nil => simp [contains]
  | cons p rest ih =>
    simp only [ascendingFrom, Bool.and_eq_true, decide_eq_true_eq] at h
    simp only [contains, Bool.and_eq_true, Bool.or_eq_true, decide_eq_true_eq, ih h.2,
      List.mem_cons, exists_eq_or_imp]
    constructor
    · rintro ⟨hp, hn | hn⟩
      · exact .inl ⟨hp, hn⟩
      · exact .inr hn
    · rintro (hn | hn)
      · exact ⟨hn.1, .inl hn.2⟩
      · have := le_of_contains h.2 ((ih h.2).2 hn)
        exact ⟨by omega, .inr hn⟩

end CodeRanges

end PathQueryIndex.Text
