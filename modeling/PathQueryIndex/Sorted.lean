/-
Module: PathQueryIndex.Sorted
Layer: Core
Purpose: Sorting lists by the order of their elements, and cutting a list where neighbours differ.
  Sorting is stable. Cutting loses nothing and leaves no empty stretch.
Imports: none
Main exports: sorted, pairwise_sorted, sortedOn, runs, flatten_runs, ne_nil_of_mem_runs, groupByKey
-/

namespace PathQueryIndex

open Std

universe u

variable {α : Type u}

section Order

variable [Ord α]

/-- The list in ascending order; elements that compare equal keep their places. -/
def sorted (xs : List α) : List α := xs.mergeSort fun a b => (compare a b).isLE

theorem pairwise_sorted [TransOrd α] (xs : List α) :
    (sorted xs).Pairwise fun a b => (compare a b).isLE = true :=
  List.pairwise_mergeSort
    (fun a b c (hab : (compare a b).isLE = true) (hbc : (compare b c).isLE = true) =>
      TransCmp.isLE_trans hab hbc)
    (fun a b => by
      have hswap : compare b a = (compare a b).swap := OrientedCmp.eq_swap
      rw [hswap]
      cases compare a b <;> rfl)
    xs

@[simp] theorem mem_sorted {x : α} {xs : List α} : x ∈ sorted xs ↔ x ∈ xs :=
  List.mem_mergeSort

theorem sorted_perm (xs : List α) : (sorted xs).Perm xs := List.mergeSort_perm ..

@[simp] theorem length_sorted (xs : List α) : (sorted xs).length = xs.length :=
  List.length_mergeSort xs

end Order

/-- The list in the ascending order of a key; elements with equal keys keep their places. -/
def sortedOn {κ : Type u} [Ord κ] (key : α → κ) (xs : List α) : List α :=
  xs.mergeSort fun a b => (compare (key a) (key b)).isLE

@[simp] theorem mem_sortedOn {κ : Type u} [Ord κ] {key : α → κ} {x : α} {xs : List α} :
    x ∈ sortedOn key xs ↔ x ∈ xs :=
  List.mem_mergeSort

/-- The longest stretches in which neighbours are the same. -/
def runs (same : α → α → Bool) : List α → List (List α)
  | [] => []
  | x :: xs =>
    match runs same xs with
    | (y :: ys) :: rest =>
      if same x y then (x :: y :: ys) :: rest else [x] :: (y :: ys) :: rest
    | rest => [x] :: rest

theorem flatten_runs (same : α → α → Bool) (xs : List α) : (runs same xs).flatten = xs := by
  induction xs with
  | nil => rfl
  | cons x xs ih =>
    simp only [runs]
    split
    · rename_i y ys rest hruns
      rw [hruns] at ih
      split <;> simpa using ih
    · simpa using ih

theorem ne_nil_of_mem_runs {same : α → α → Bool} {xs r : List α} (h : r ∈ runs same xs) :
    r ≠ [] := by
  induction xs generalizing r with
  | nil => simp [runs] at h
  | cons x xs ih =>
    simp only [runs] at h
    split at h
    · rename_i y ys rest hruns
      rw [hruns] at ih
      split at h
      · rcases List.mem_cons.1 h with rfl | h
        · simp
        · exact ih (List.mem_cons_of_mem _ h)
      · rcases List.mem_cons.1 h with rfl | h
        · simp
        · exact ih h
    · rcases List.mem_cons.1 h with rfl | h
      · simp
      · exact ih h

theorem mem_of_mem_runs {same : α → α → Bool} {xs r : List α} {x : α} (h : r ∈ runs same xs)
    (hx : x ∈ r) : x ∈ xs := by
  rw [← flatten_runs same xs]
  exact List.mem_flatten.2 ⟨r, h, hx⟩

/-- The values that go with each key, keys ascending, the values of a key in their order. -/
def groupByKey {κ : Type u} [Ord κ] (xs : List (κ × α)) : List (κ × List α) :=
  (runs (fun a b => compare a.1 b.1 == .eq) (sortedOn Prod.fst xs)).filterMap fun run =>
    run.head?.map fun (key, _) => (key, run.map Prod.snd)

end PathQueryIndex
