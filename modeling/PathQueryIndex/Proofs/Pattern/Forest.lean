/-
Module: PathQueryIndex.Proofs.Pattern.Forest
Layer: Proofs
Purpose: What the forest computes. Putting points right below their root changes no root, and putting one root
  below another moves just the points of its class, so making two points equal comes to giving the greater
  of their representatives up for the smaller one, wherever it stands.
Imports: PathQueryIndex.Pattern
Main exports: Forest.root_compress, Forest.root_union, equate, Forest.roots_union
-/
import PathQueryIndex.Pattern

namespace PathQueryIndex

namespace Forest

variable {f : Forest} {v w r a b : Nat}

/-! ### Roots -/

theorem root_of_lt (h : f.parent v < v) : f.root v = f.root (f.parent v) := by
  rw [root, if_pos h]

theorem root_of_not_lt (h : ¬ f.parent v < v) : f.root v = v := by
  rw [root, if_neg h]

theorem root_le (f : Forest) (v : Nat) : f.root v ≤ v := by
  fun_induction root with
  | case1 v hlt ih => exact Nat.le_trans ih (Nat.le_of_lt hlt)
  | case2 v hge => exact Nat.le_refl v

/-- A root has no smaller parent. -/
theorem not_parent_root_lt (f : Forest) (v : Nat) : ¬ f.parent (f.root v) < f.root v := by
  fun_induction root with
  | case1 v hlt ih => exact ih
  | case2 v hge => exact hge

theorem root_root (f : Forest) (v : Nat) : f.root (f.root v) = f.root v :=
  root_of_not_lt (f.not_parent_root_lt v)

theorem parent_setIfInBounds (hv : v < f.size) :
    parent (f.setIfInBounds v r) w = if w = v then r else f.parent w := by
  rw [parent, Array.getD_eq_getD_getElem?, Array.getElem?_setIfInBounds]
  by_cases hw : w = v
  · subst hw
    rw [if_pos rfl, if_pos hv, if_pos rfl, Option.getD_some]
  · rw [if_neg (Ne.symm hw), if_neg hw, parent, Array.getD_eq_getD_getElem?]

/-! ### Shorter ways -/

/-- A point that is put right below its root has the same root, and so has every other point. -/
theorem root_setIfInBounds_root (hv : v < f.size) (w : Nat) :
    root (f.setIfInBounds v (f.root v)) w = f.root w := by
  induction w using Nat.strongRecOn with
  | ind w ih =>
      have hparent := parent_setIfInBounds (r := f.root v) (w := w) hv
      by_cases hw : w = v
      · subst hw
        rw [if_pos rfl] at hparent
        rcases Nat.lt_or_eq_of_le (f.root_le w) with hlt | heq
        · rw [root_of_lt (hparent.symm ▸ hlt), hparent, ih _ hlt, root_root]
        · have hge : ¬ parent (f.setIfInBounds w (f.root w)) w < w := by
            rw [hparent, heq]
            exact Nat.lt_irrefl w
          rw [root_of_not_lt hge, heq]
      · rw [if_neg hw] at hparent
        by_cases hlt : f.parent w < w
        · rw [root_of_lt (hparent.symm ▸ hlt), hparent, ih _ hlt, ← root_of_lt hlt]
        · rw [root_of_not_lt (hparent.symm ▸ hlt), root_of_not_lt hlt]

/-- A point that is put right below its root leaves its parent with that root. -/
theorem lt_size_and_root_setIfInBounds (hv : v < f.size) (hlt : f.parent v < v) :
    f.parent v < (f.setIfInBounds v (f.root v)).size ∧
      root (f.setIfInBounds v (f.root v)) (f.parent v) = f.root v := by
  rw [Array.size_setIfInBounds, root_setIfInBounds_root hv, ← root_of_lt hlt]
  exact ⟨Nat.lt_trans hlt hv, rfl⟩

theorem size_compress (f : Forest) (r v : Nat) : (f.compress r v).size = f.size := by
  fun_induction compress with
  | case1 f v heq => rfl
  | case2 f v hne hlt ih => rw [ih, Array.size_setIfInBounds]
  | case3 f v hne hge => rfl

/-- Shortening the ways changes no root. -/
theorem root_compress (hv : v < f.size) (hr : f.root v = r) (w : Nat) :
    (f.compress r v).root w = f.root w := by
  fun_induction compress with
  | case1 f v heq => rfl
  | case2 f v hne hlt ih =>
      subst hr
      obtain ⟨hsize, habove⟩ := lt_size_and_root_setIfInBounds hv hlt
      rw [ih hsize habove, root_setIfInBounds_root hv]
  | case3 f v hne hge => rfl

/-! ### Classes that become one -/

/-- A root that is put below a smaller one takes its class along. -/
theorem root_setIfInBounds_of_lt (ha : a < f.size) (hroot : f.root a = a) (hroot' : f.root b = b)
    (hlt : b < a) (w : Nat) :
    root (f.setIfInBounds a b) w = if f.root w = a then b else f.root w := by
  induction w using Nat.strongRecOn with
  | ind w ih =>
      have hparent := parent_setIfInBounds (r := b) (w := w) ha
      by_cases hw : w = a
      · subst hw
        rw [if_pos rfl] at hparent
        rw [root_of_lt (hparent.symm ▸ hlt), hparent, ih b hlt, hroot', hroot, if_pos rfl,
          if_neg (Nat.ne_of_lt hlt)]
      · rw [if_neg hw] at hparent
        by_cases hstep : f.parent w < w
        · rw [root_of_lt (hparent.symm ▸ hstep), hparent, ih _ hstep, ← root_of_lt hstep]
        · rw [root_of_not_lt (hparent.symm ▸ hstep), root_of_not_lt hstep, if_neg hw]

theorem size_link (f : Forest) (a b : Nat) : (f.link a b).size = f.size := by
  unfold link
  split
  · rfl
  · exact Array.size_setIfInBounds

theorem root_link (ha : a < f.size) (hb : b < f.size) (hroot : f.root a = a) (hroot' : f.root b = b)
    (w : Nat) : (f.link a b).root w = if f.root w = max a b then min a b else f.root w := by
  unfold link
  rcases Nat.lt_trichotomy a b with hlt | heq | hlt
  · rw [if_neg (Nat.ne_of_lt hlt), Nat.max_eq_right (Nat.le_of_lt hlt),
      Nat.min_eq_left (Nat.le_of_lt hlt), root_setIfInBounds_of_lt hb hroot' hroot hlt]
  · rw [if_pos heq, ← heq, Nat.max_self, Nat.min_self]
    split
    · rename_i hw
      exact hw
    · rfl
  · rw [if_neg (Nat.ne_of_gt hlt), Nat.max_eq_left (Nat.le_of_lt hlt),
      Nat.min_eq_right (Nat.le_of_lt hlt), root_setIfInBounds_of_lt ha hroot hroot' hlt]

/-- Looking the two roots up comes before they are linked. -/
theorem union_eq (f : Forest) (a b : Nat) : f.union a b =
    link ((f.find a).2.find b).2 (f.root a) ((f.find a).2.root b) := rfl

theorem size_find (f : Forest) (v : Nat) : (f.find v).2.size = f.size := size_compress f _ v

theorem size_union (f : Forest) (a b : Nat) : (f.union a b).size = f.size := by
  rw [union_eq, size_link, size_find, size_find]

theorem root_find (hv : v < f.size) (w : Nat) : (f.find v).2.root w = f.root w :=
  root_compress hv rfl w

/-- Looking up the two points that are to be joined changes no root. -/
theorem root_find_find (ha : a < f.size) (hb : b < f.size) (w : Nat) :
    ((f.find a).2.find b).2.root w = f.root w := by
  have hb' : b < (f.find a).2.size := by
    rw [size_find]
    exact hb
  rw [root_find hb', root_find ha]

theorem root_lt_size (hv : v < f.size) : f.root v < f.size := Nat.lt_of_le_of_lt (f.root_le v) hv

/-- When two points become equal, the points of the class with the greater root get the smaller one. -/
theorem root_union (ha : a < f.size) (hb : b < f.size) (w : Nat) :
    (f.union a b).root w =
      if f.root w = max (f.root a) (f.root b) then min (f.root a) (f.root b) else f.root w := by
  have hroot := root_find_find ha hb
  have hlt : ∀ v < f.size, f.root v < ((f.find a).2.find b).2.size := by
    intro v hv
    rw [size_find, size_find]
    exact root_lt_size hv
  rw [union_eq, root_find ha, root_link (hlt a ha) (hlt b hb), hroot]
  · rw [hroot, root_root]
  · rw [hroot, root_root]

/-! ### New points -/

/-- A new point is its own parent, as it was before it was added. -/
theorem parent_push (f : Forest) (v : Nat) : parent (f.push f.size) v = f.parent v := by
  rw [parent, parent, Array.getD_eq_getD_getElem?, Array.getD_eq_getD_getElem?, Array.getElem?_push]
  split
  · rename_i heq
    rw [heq, Array.getElem?_eq_none (Nat.le_refl _)]
    rfl
  · rfl

/-- Roots depend on parents only. -/
theorem root_congr {g : Forest} (h : ∀ v, f.parent v = g.parent v) (v : Nat) : f.root v = g.root v := by
  induction v using Nat.strongRecOn with
  | ind v ih =>
      have hv := h v
      by_cases hlt : f.parent v < v
      · rw [root_of_lt hlt, ih _ hlt, hv, ← root_of_lt (hv ▸ hlt)]
      · rw [root_of_not_lt hlt, root_of_not_lt (hv ▸ hlt)]

end Forest

/-! ### Points that are made equal -/

/-- Make two points equal: the greater of their representatives gives way to the smaller. -/
def equate (least : Array Nat) (e : Nat × Nat) : Array Nat :=
  let a := least.getD e.1 e.1
  let b := least.getD e.2 e.2
  let keep := min a b
  let drop := max a b
  least.map fun v => if v = drop then keep else v

variable {f : Forest}

theorem Forest.roots_discrete (count : Nat) : (discrete count).roots = Array.range count := by
  have hroot : ∀ v, (discrete count).root v = v := by
    intro v
    apply root_of_not_lt
    rw [parent, discrete, Array.getD_eq_getD_getElem?, Array.getElem?_range]
    split <;> exact Nat.lt_irrefl v
  rw [roots, discrete, Array.size_range]
  exact (Array.map_congr_left fun v _ => hroot v).trans (Array.map_id _)

theorem Forest.getD_roots {v : Nat} (hv : v < f.size) : f.roots.getD v v = f.root v := by
  rw [roots, Array.getD_eq_getD_getElem?, Array.getElem?_map, Array.getElem?_range, if_pos hv]
  rfl

theorem Forest.roots_push (f : Forest) : roots (f.push f.size) = f.roots.push f.size := by
  have hroot : root (f.push f.size) = f.root := funext (root_congr f.parent_push)
  have hsize : f.root f.size = f.size := by
    apply root_of_not_lt
    rw [parent, Array.getD_eq_getD_getElem?, Array.getElem?_eq_none (Nat.le_refl _)]
    exact Nat.lt_irrefl _
  rw [roots, hroot, Array.size_push, Array.range_succ, Array.map_append, Array.map_singleton, hsize,
    Array.append_singleton]
  rfl

theorem Forest.roots_find {v : Nat} (hv : v < f.size) : (f.find v).2.roots = f.roots := by
  rw [roots, size_find, roots]
  exact Array.map_congr_left fun w _ => root_find hv w

theorem Forest.roots_union {e : Nat × Nat} (h₁ : e.1 < f.size) (h₂ : e.2 < f.size) :
    (f.union e.1 e.2).roots = equate f.roots e := by
  rw [equate, getD_roots h₁, getD_roots h₂, roots, roots, size_union, Array.map_map]
  exact Array.map_congr_left fun v _ => root_union h₁ h₂ v

end PathQueryIndex
