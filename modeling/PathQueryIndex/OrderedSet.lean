/-
Module: PathQueryIndex.OrderedSet
Layer: Core
Purpose: Finite sets kept as the strictly ascending list of their elements. Edges, labels, vertex
  pairs and canonical codes are all compared through `compare`, and a set is printed, compared and
  walked in that order, so the order is part of the type and two sets with the same members are equal.
Imports: PathQueryIndex.Sorted
Main exports: OrderedSet, OrderedSet.ofList, OrderedSet.insert, OrderedSet.mem_ofList,
  OrderedSet.mem_insert, OrderedSet.nodup_toList, OrderedSet.ext_mem
-/
import PathQueryIndex.Sorted

namespace PathQueryIndex

open Std

universe u

variable {α : Type u} [Ord α]

/-- A list whose neighbours ascend strictly; with a transitive order, so does every pair. -/
abbrev Ascending (xs : List α) : Prop :=
  xs.Pairwise fun a b => compare a b = .lt

/-- A finite set, held as its elements in strictly ascending order. -/
structure OrderedSet (α : Type u) [Ord α] where
  toList : List α
  ascending : Ascending toList

namespace OrderedSet

instance : Membership α (OrderedSet α) := ⟨fun s x => x ∈ s.toList⟩

theorem mem_iff {s : OrderedSet α} {x : α} : x ∈ s ↔ x ∈ s.toList := Iff.rfl

instance [DecidableEq α] (x : α) (s : OrderedSet α) : Decidable (x ∈ s) :=
  inferInstanceAs (Decidable (x ∈ s.toList))

theorem eq_of_toList_eq {s t : OrderedSet α} (h : s.toList = t.toList) : s = t := by
  cases s; cases t; cases h; rfl

instance [DecidableEq α] : DecidableEq (OrderedSet α) := fun s t =>
  if h : s.toList = t.toList then isTrue (eq_of_toList_eq h)
  else isFalse fun e => h (by rw [e])

/-- The set without elements. -/
def empty : OrderedSet α := ⟨[], .nil⟩

instance : EmptyCollection (OrderedSet α) := ⟨empty⟩

instance : Inhabited (OrderedSet α) := ⟨empty⟩

/-- How many elements the set has. -/
def size (s : OrderedSet α) : Nat := s.toList.length

/-- Whether the set has no element. -/
def isEmpty (s : OrderedSet α) : Bool := s.toList.isEmpty

/-- Whether some element compares equal to `x`. -/
def contains (s : OrderedSet α) (x : α) : Bool :=
  s.toList.any fun y => compare x y == .eq

/-- Put `x` before the first greater element, unless an equal one stands there already. -/
def insertInto (x : α) : List α → List α
  | [] => [x]
  | y :: ys =>
    match compare x y with
    | .lt => x :: y :: ys
    | .eq => y :: ys
    | .gt => y :: insertInto x ys

theorem mem_insertInto_imp {x z : α} {xs : List α} (h : z ∈ insertInto x xs) :
    z = x ∨ z ∈ xs := by
  induction xs with
  | nil => simpa [insertInto] using h
  | cons y ys ih =>
    simp only [insertInto] at h
    split at h
    · simpa using h
    · exact .inr h
    · rcases List.mem_cons.1 h with rfl | h
      · exact .inr (List.mem_cons_self ..)
      · rcases ih h with h | h
        · exact .inl h
        · exact .inr (List.mem_cons_of_mem _ h)

theorem mem_insertInto [LawfulEqOrd α] {x z : α} {xs : List α} :
    z ∈ insertInto x xs ↔ z = x ∨ z ∈ xs := by
  refine ⟨mem_insertInto_imp, ?_⟩
  induction xs with
  | nil => simp [insertInto]
  | cons y ys ih =>
    intro h
    simp only [insertInto]
    split
    · simpa using h
    · rename_i heq
      have hxy : x = y := LawfulEqCmp.eq_of_compare heq
      subst hxy
      simpa using h
    · rcases h with h | h
      · exact List.mem_cons_of_mem _ (ih (.inl h))
      · rcases List.mem_cons.1 h with h | h
        · exact h ▸ List.mem_cons_self ..
        · exact List.mem_cons_of_mem _ (ih (.inr h))

theorem ascending_insertInto [TransOrd α] {x : α} {xs : List α} (h : Ascending xs) :
    Ascending (insertInto x xs) := by
  induction xs with
  | nil => simp [insertInto, Ascending]
  | cons y ys ih =>
    have hy := (List.pairwise_cons.1 h).1
    have hys := (List.pairwise_cons.1 h).2
    simp only [insertInto]
    split
    · rename_i hlt
      refine List.pairwise_cons.2 ⟨fun z hz => ?_, h⟩
      rcases List.mem_cons.1 hz with rfl | hz
      · exact hlt
      · exact TransCmp.lt_trans hlt (hy z hz)
    · exact h
    · rename_i hgt
      refine List.pairwise_cons.2 ⟨fun z hz => ?_, ih hys⟩
      rcases mem_insertInto_imp hz with rfl | hz
      · exact OrientedCmp.lt_of_gt hgt
      · exact hy z hz

/-- The set with `x` added; an element equal to `x` that is already there stays. -/
def insert [TransOrd α] (x : α) (s : OrderedSet α) : OrderedSet α :=
  ⟨insertInto x s.toList, ascending_insertInto s.ascending⟩

@[simp] theorem mem_insert [TransOrd α] [LawfulEqOrd α] {x z : α} {s : OrderedSet α} :
    z ∈ s.insert x ↔ z = x ∨ z ∈ s :=
  mem_insertInto

/-!
### From lists

A list is sorted and, of neighbours that compare equal, the first is kept. Sorting is stable, so the
survivor of equal elements is the one that stood first in the list.
-/

/-- Keep the first of each stretch of elements that compare equal to it. -/
def dropRepeats : List α → List α
  | [] => []
  | x :: xs =>
    match dropRepeats xs with
    | [] => [x]
    | y :: ys => if compare x y == .eq then x :: ys else x :: y :: ys

theorem mem_of_mem_dropRepeats {x : α} {xs : List α} (h : x ∈ dropRepeats xs) : x ∈ xs := by
  induction xs with
  | nil => simp [dropRepeats] at h
  | cons y ys ih =>
    simp only [dropRepeats] at h
    split at h
    · rename_i hnil
      simp at h
      exact h ▸ List.mem_cons_self ..
    · rename_i z zs hcons
      rw [hcons] at ih
      split at h
      · rcases List.mem_cons.1 h with rfl | h
        · exact List.mem_cons_self ..
        · exact List.mem_cons_of_mem _ (ih (List.mem_cons_of_mem _ h))
      · rcases List.mem_cons.1 h with rfl | h
        · exact List.mem_cons_self ..
        · exact List.mem_cons_of_mem _ (ih h)

theorem mem_dropRepeats [LawfulEqOrd α] {x : α} {xs : List α} :
    x ∈ dropRepeats xs ↔ x ∈ xs := by
  refine ⟨mem_of_mem_dropRepeats, ?_⟩
  induction xs with
  | nil => simp
  | cons y ys ih =>
    intro h
    simp only [dropRepeats]
    split
    · rename_i hnil
      rw [hnil] at ih
      rcases List.mem_cons.1 h with h | h
      · simp [h]
      · exact absurd (ih h) (by simp)
    · rename_i z zs hcons
      rw [hcons] at ih
      split
      · rename_i heq
        have hyz : y = z := by simpa using heq
        rcases List.mem_cons.1 h with h | h
        · simp [h]
        · simpa [hyz] using ih h
      · rcases List.mem_cons.1 h with h | h
        · simp [h]
        · exact List.mem_cons_of_mem _ (ih h)

theorem length_dropRepeats_le (xs : List α) : (dropRepeats xs).length ≤ xs.length := by
  induction xs with
  | nil => exact Nat.le_refl 0
  | cons x xs ih =>
    simp only [dropRepeats]
    split
    · exact Nat.succ_le_succ (Nat.zero_le _)
    · rename_i y ys hcons
      rw [hcons] at ih
      split
      · exact Nat.le_succ_of_le ih
      · exact Nat.succ_le_succ ih

theorem ascending_dropRepeats [TransOrd α] {xs : List α}
    (h : xs.Pairwise fun a b => (compare a b).isLE = true) : Ascending (dropRepeats xs) := by
  induction xs with
  | nil => simp [dropRepeats, Ascending]
  | cons x xs ih =>
    have hx := (List.pairwise_cons.1 h).1
    have ih := ih (List.pairwise_cons.1 h).2
    simp only [dropRepeats]
    split
    · simp [Ascending]
    · rename_i y ys hcons
      rw [hcons] at ih
      have hy := (List.pairwise_cons.1 ih).1
      have hys := (List.pairwise_cons.1 ih).2
      have hxy : (compare x y).isLE = true :=
        hx y (mem_of_mem_dropRepeats (hcons ▸ List.mem_cons_self ..))
      split
      · rename_i heq
        refine List.pairwise_cons.2 ⟨fun z hz => ?_, hys⟩
        exact TransCmp.lt_of_isLE_of_lt hxy (hy z hz)
      · rename_i hne
        have hlt : compare x y = .lt := by
          cases hc : compare x y with
          | lt => rfl
          | eq => simp [hc] at hne
          | gt => simp [hc] at hxy
        refine List.pairwise_cons.2 ⟨fun z hz => ?_, ih⟩
        rcases List.mem_cons.1 hz with rfl | hz
        · exact hlt
        · exact TransCmp.lt_trans hlt (hy z hz)

/-- The set of the elements of a list. -/
def ofList [TransOrd α] (xs : List α) : OrderedSet α :=
  ⟨dropRepeats (sorted xs), ascending_dropRepeats (pairwise_sorted xs)⟩

@[simp] theorem mem_ofList [TransOrd α] [LawfulEqOrd α] {x : α} {xs : List α} :
    x ∈ ofList xs ↔ x ∈ xs :=
  mem_dropRepeats.trans mem_sorted

/-- Elements that are equal are counted once. -/
theorem size_ofList_le [TransOrd α] (xs : List α) : (ofList xs).size ≤ xs.length := by
  calc
    (ofList xs).size ≤ (sorted xs).length := length_dropRepeats_le _
    _ = xs.length := length_sorted xs

/-- The set holding one element. -/
def singleton (x : α) : OrderedSet α := ⟨[x], List.pairwise_singleton _ _⟩

@[simp] theorem mem_singleton {x z : α} : z ∈ singleton x ↔ z = x := List.mem_singleton

/-- The elements that satisfy `p`. -/
def filter (p : α → Bool) (s : OrderedSet α) : OrderedSet α :=
  ⟨s.toList.filter p, s.ascending.filter p⟩

@[simp] theorem mem_filter {p : α → Bool} {x : α} {s : OrderedSet α} :
    x ∈ s.filter p ↔ x ∈ s ∧ p x = true := List.mem_filter

theorem contains_iff [LawfulEqOrd α] {s : OrderedSet α} {x : α} :
    s.contains x = true ↔ x ∈ s := by
  simp only [contains, List.any_eq_true, beq_iff_eq, LawfulEqCmp.compare_eq_iff_eq]
  exact ⟨fun ⟨y, hy, h⟩ => h ▸ hy, fun h => ⟨x, h, rfl⟩⟩

/-- No element of a set is listed twice. -/
theorem nodup_toList [TransOrd α] (s : OrderedSet α) : s.toList.Nodup := by
  apply s.ascending.imp
  intro a b hlt heq
  rw [heq, compare_self] at hlt
  cases hlt

/-- Two strictly ascending lists with the same members are the same list. -/
theorem eq_of_ascending [TransOrd α] {xs ys : List α} (hx : Ascending xs) (hy : Ascending ys)
    (h : ∀ z, z ∈ xs ↔ z ∈ ys) : xs = ys := by
  induction xs generalizing ys with
  | nil =>
    cases ys with
    | nil => rfl
    | cons y ys => exact absurd ((h y).2 (List.mem_cons_self ..)) (by simp)
  | cons x xs ih =>
    cases ys with
    | nil => exact absurd ((h x).1 (List.mem_cons_self ..)) (by simp)
    | cons y ys =>
      have hx₁ := (List.pairwise_cons.1 hx).1
      have hy₁ := (List.pairwise_cons.1 hy).1
      have hxy : x = y := by
        rcases List.mem_cons.1 ((h x).1 (List.mem_cons_self ..)) with e | hxys
        · exact e
        · rcases List.mem_cons.1 ((h y).2 (List.mem_cons_self ..)) with e | hyxs
          · exact e.symm
          · have h₁ := hx₁ y hyxs
            have h₂ := hy₁ x hxys
            have hself : compare x x = .lt := TransCmp.lt_trans h₁ h₂
            rw [compare_self] at hself
            cases hself
      subst hxy
      congr 1
      refine ih (List.pairwise_cons.1 hx).2 (List.pairwise_cons.1 hy).2 fun z => ?_
      have hne : ∀ {zs : List α}, (∀ a ∈ zs, compare x a = .lt) → x ∉ zs := fun hz hm => by
        have hself := hz x hm
        rw [compare_self] at hself
        cases hself
      constructor
      · intro hz
        rcases List.mem_cons.1 ((h z).1 (List.mem_cons_of_mem _ hz)) with e | hz'
        · exact absurd (e ▸ hz) (hne hx₁)
        · exact hz'
      · intro hz
        rcases List.mem_cons.1 ((h z).2 (List.mem_cons_of_mem _ hz)) with e | hz'
        · exact absurd (e ▸ hz) (hne hy₁)
        · exact hz'

/-- A set is determined by its members. -/
theorem ext_mem [TransOrd α] {s t : OrderedSet α} (h : ∀ x, x ∈ s ↔ x ∈ t) : s = t :=
  eq_of_toList_eq (eq_of_ascending s.ascending t.ascending h)

end OrderedSet

end PathQueryIndex
