/-
Module: PathQueryIndex.Label
Layer: Core
Purpose: Edge labels, which are followed forwards or backwards, and non-empty sequences of them. A
  label has a signed code in which `n` stands for the label `n` and `-n - 1` for its inverse.
Imports: PathQueryIndex.OrderedSet, PathQueryIndex.Text.Numeral
Main exports: Label, Label.flip, Label.signed, Label.ofSigned, Label.text, LabelSequence,
  LabelSequence.concat, LabelSequence.text
-/
import PathQueryIndex.OrderedSet
import PathQueryIndex.Text.Numeral

namespace PathQueryIndex

open Std

/-- One way of following edges: along the edges of a predicate, or against them. -/
structure Label where
  id : UInt32
  inverse : Bool
deriving DecidableEq, Repr, Inhabited

namespace Label

/-- Labels ascend by predicate, forward before inverse. -/
instance : Ord Label := ⟨compareLex (compareOn id) (compareOn inverse)⟩

instance : TransOrd Label :=
  inferInstanceAs (TransCmp (compareLex (compareOn id) (compareOn inverse)))

instance : LawfulEqOrd Label where
  eq_of_compare {a b} h := by
    have h : (compareLex (compareOn id) (compareOn inverse)) a b = .eq := h
    simp only [compareLex_eq_eq, compareOn, LawfulEqCmp.compare_eq_iff_eq] at h
    cases a; cases b; simp_all

/-- Follow the edges of a predicate. -/
def forward (id : UInt32) : Label := ⟨id, false⟩

/-- Follow the edges of a predicate backwards. -/
def backward (id : UInt32) : Label := ⟨id, true⟩

/-- The same predicate in the other direction. -/
def flip (l : Label) : Label := { l with inverse := !l.inverse }

@[simp] theorem flip_flip (l : Label) : l.flip.flip = l := by
  cases l; simp [flip]

/-- The signed code: the predicate read as a 32-bit integer, and `-n - 1` for its inverse. -/
def signed (l : Label) : Int32 :=
  if l.inverse then -l.id.toInt32 - 1 else l.id.toInt32

/-- The label of a signed code. -/
def ofSigned (v : Int32) : Label :=
  if 0 ≤ v then forward v.toUInt32 else backward (-(v + 1)).toUInt32

/-- The mark after the number of an inverse label. -/
def inverseMark : Char := '⁻'

/-- The number of the predicate, and the mark of the inverse. -/
def chars (l : Label) : List Char :=
  Text.numeral l.id.toNat ++ if l.inverse then [inverseMark] else []

/-- The displayed form, `3` or `3⁻`. -/
def text (l : Label) : String := String.ofList l.chars

end Label

/-- A non-empty sequence of labels, the trace of a walk. -/
structure LabelSequence where
  labels : List Label
  nonempty : labels ≠ []
deriving DecidableEq

namespace LabelSequence

theorem eq_of_labels_eq {s t : LabelSequence} (h : s.labels = t.labels) : s = t := by
  cases s; cases t; cases h; rfl

/-- Shorter sequences come first; those of one length ascend label by label. -/
instance : Ord LabelSequence := ⟨compareLex (compareOn (·.labels.length)) (compareOn labels)⟩

instance : TransOrd LabelSequence :=
  inferInstanceAs (TransCmp (compareLex (compareOn (fun s : LabelSequence => s.labels.length))
    (compareOn labels)))

instance : LawfulEqOrd LabelSequence where
  eq_of_compare {a b} h := by
    have h : (compareLex (compareOn (fun s : LabelSequence => s.labels.length))
      (compareOn labels)) a b = .eq := h
    simp only [compareLex_eq_eq, compareOn, LawfulEqCmp.compare_eq_iff_eq] at h
    exact eq_of_labels_eq h.2

/-- The sequence of one label. -/
def single (l : Label) : LabelSequence := ⟨[l], List.cons_ne_nil _ _⟩

instance : Inhabited LabelSequence := ⟨single default⟩

/-- One sequence after the other. -/
def concat (s t : LabelSequence) : LabelSequence :=
  ⟨s.labels ++ t.labels, List.append_ne_nil_of_left_ne_nil s.nonempty _⟩

@[simp] theorem labels_concat (s t : LabelSequence) :
    (s.concat t).labels = s.labels ++ t.labels := rfl

/-- How many labels the sequence has. -/
def length (s : LabelSequence) : Nat := s.labels.length

/-- The labels written one after the other. -/
def text (s : LabelSequence) : String := String.ofList (s.labels.flatMap Label.chars)

end LabelSequence

end PathQueryIndex
