/-
Module: PathQueryIndex.Sums
Layer: Core
Purpose: Sums over lists of natural numbers. They measure what a search has still to do, and they count
  what an index holds.
Imports: none
Main exports: sumOf, sumOf_cons, sumOf_append, sumOf_map_length
-/

namespace PathQueryIndex

/-- The sum of some numbers. -/
def sumOf : List Nat → Nat
  | [] => 0
  | n :: ns => n + sumOf ns

@[simp] theorem sumOf_nil : sumOf [] = 0 := rfl

@[simp] theorem sumOf_cons (n : Nat) (ns : List Nat) : sumOf (n :: ns) = n + sumOf ns := rfl

@[simp] theorem sumOf_append (ns ms : List Nat) : sumOf (ns ++ ms) = sumOf ns + sumOf ms := by
  induction ns with
  | nil => simp
  | cons n ns ih => simp [ih, Nat.add_assoc]

/-- The lengths of the parts of a list add up to its length. -/
theorem sumOf_map_length {α β : Type} (f : α → List β) (xs : List α) :
    sumOf (xs.map fun x => (f x).length) = (xs.flatMap f).length := by
  induction xs with
  | nil => rfl
  | cons x xs ih => rw [List.map_cons, sumOf_cons, ih, List.flatMap_cons, List.length_append]

end PathQueryIndex
