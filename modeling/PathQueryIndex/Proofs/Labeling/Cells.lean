/-
Module: PathQueryIndex.Proofs.Labeling.Cells
Layer: Proofs
Purpose: Cells of nodes under splitting. Splitting by what the nodes see, and putting a node in front of
  its cell, both cut cells in place, and so does any number of such steps, so that the nodes of a cell
  keep their stretch of the order. The tables of cells and of places name for each node the one cell
  or the one place where it stands.
Imports: PathQueryIndex.Labeling.Equitable, PathQueryIndex.Proofs.Grouping, Mathlib.Data.List.Nodup
Main exports: Cells.Refines.trans, Cells.Covers.of_refines, Cells.exists_parts, Neighbours.split_eq,
  Neighbours.refines_refine, Cells.refines_individualize, Cells.getD_index, getD_placesOf
-/
import PathQueryIndex.Labeling.Equitable
import PathQueryIndex.Proofs.Grouping
import Mathlib.Data.List.Nodup

namespace PathQueryIndex

open Std

/-! ### Cells cut in place -/

namespace Cells

variable {a b c d cells before after : Cells} {cell : List Nat} {n v : Nat}

namespace Refines

theorem refl (h : ∀ cell ∈ cells, cell ≠ []) : Refines cells cells := by
  induction cells with
  | nil => exact .nil
  | cons cell cells ih =>
      have hcell := h cell (List.mem_cons_self ..)
      change Refines ([cell] ++ cells) (cell :: cells)
      refine .cons (List.cons_ne_nil _ _) (fun part hpart => ?_) ?_ (ih ?_)
      · rw [List.mem_singleton.1 hpart]
        exact hcell
      · rw [List.flatten_singleton]
      · exact fun c hc => h c (List.mem_cons_of_mem _ hc)

theorem flatten_perm (h : Refines a b) : a.flatten.Perm b.flatten := by
  induction h with
  | nil => exact .refl _
  | cons _ _ hperm _ ih =>
      rw [List.flatten_append, List.flatten_cons]
      exact hperm.append ih

theorem ne_nil (h : Refines a b) : ∀ cell ∈ a, cell ≠ [] := by
  induction h with
  | nil => exact fun _ hcell => nomatch hcell
  | cons _ hparts _ _ ih =>
      intro cell hcell
      rcases List.mem_append.1 hcell with hcell | hcell
      · exact hparts cell hcell
      · exact ih cell hcell

theorem append (hab : Refines a b) (hcd : Refines c d) : Refines (a ++ c) (b ++ d) := by
  induction hab with
  | nil => exact hcd
  | cons hne hparts hperm _ ih =>
      rw [List.append_assoc]
      exact .cons hne hparts hperm ih

/-- What refines two stretches of cells consists of what refines each of them. -/
theorem exists_of_append (h : Refines a (b ++ c)) :
    ∃ a₁ a₂, a = a₁ ++ a₂ ∧ Refines a₁ b ∧ Refines a₂ c := by
  induction b generalizing a with
  | nil => exact ⟨[], a, rfl, .nil, h⟩
  | cons cell b ih =>
      cases h with
      | cons hne hparts hperm hrest =>
          obtain ⟨a₁, a₂, rfl, hb, hc⟩ := ih hrest
          exact ⟨_ ++ a₁, a₂, (List.append_assoc ..).symm, .cons hne hparts hperm hb, hc⟩

theorem ne_nil_of_ne_nil (h : Refines a b) (hb : b ≠ []) : a ≠ [] := by
  cases h with
  | nil => exact absurd rfl hb
  | cons hne _ _ _ => exact List.append_ne_nil_of_left_ne_nil hne _

theorem trans (hab : Refines a b) (hbc : Refines b c) : Refines a c := by
  induction hbc generalizing a with
  | nil => exact hab
  | cons hne hparts hperm _ ih =>
      obtain ⟨a₁, a₂, rfl, hfirst, hrest⟩ := hab.exists_of_append
      exact .cons (hfirst.ne_nil_of_ne_nil hne) hfirst.ne_nil (hfirst.flatten_perm.trans hperm)
        (ih hrest)

end Refines

/-- Cells that are cut in place still cover the nodes. -/
theorem Covers.of_refines (hb : Covers b n) (h : Refines a b) : Covers a n :=
  ⟨h.flatten_perm.trans hb.1, h.ne_nil⟩

theorem Covers.nodup (h : Covers cells n) : cells.flatten.Nodup :=
  h.1.nodup_iff.2 List.nodup_range

theorem Covers.lt_of_mem (h : Covers cells n) (hcell : cell ∈ cells) (hv : v ∈ cell) : v < n :=
  List.mem_range.1 (h.1.subset (List.mem_flatten.2 ⟨cell, hcell, hv⟩))

theorem Covers.nodup_of_mem (h : Covers cells n) (hcell : cell ∈ cells) : cell.Nodup :=
  (List.nodup_flatten.1 h.nodup).1 cell hcell

/-- The order that finer cells give lists the nodes of each cell together, cell after cell. -/
theorem exists_parts (h : Refines a b) :
    ∃ parts : Cells, parts.flatten = a.flatten ∧ List.Forall₂ List.Perm parts b := by
  induction h with
  | nil => exact ⟨[], rfl, .nil⟩
  | cons _ _ hperm _ ih =>
      obtain ⟨parts, hflat, hparts⟩ := ih
      refine ⟨_ :: parts, ?_, .cons hperm hparts⟩
      rw [List.flatten_cons, List.flatten_append, hflat]

/-- A node in front of its cell leaves the rest of the cell behind it. -/
theorem refines_individualize (hne : ∀ c ∈ before ++ cell :: after, c ≠ []) (hnodup : cell.Nodup)
    (hv : v ∈ cell) (hlen : 1 < cell.length) :
    Refines (individualize before cell after v) (before ++ cell :: after) := by
  have hbefore : Refines before before :=
    .refl fun c hc => hne c (List.mem_append.2 (.inl hc))
  have hafter : Refines after after :=
    .refl fun c hc => hne c (List.mem_append.2 (.inr (List.mem_cons_of_mem _ hc)))
  have hperm : (v :: cell.filter (· != v)).Perm cell := by
    have herase := List.perm_cons_erase hv
    rw [hnodup.erase_eq_filter] at herase
    exact herase.symm
  have hrest : cell.filter (· != v) ≠ [] := by
    intro hnil
    have hone := hperm.length_eq
    rw [hnil, List.length_singleton] at hone
    omega
  apply hbefore.append
  change Refines ([[v], cell.filter (· != v)] ++ after) (cell :: after)
  refine .cons (List.cons_ne_nil _ _) (fun c hc => ?_) ?_ hafter
  · rcases List.mem_cons.1 hc with rfl | hc
    · exact List.cons_ne_nil _ _
    · rw [List.mem_singleton.1 hc]
      exact hrest
  · simpa using hperm

end Cells

/-! ### Splitting by what nodes see -/

namespace Sighting

/-- Sightings ordered by what is seen only. -/
def compareSeen : Sighting → Sighting → Ordering :=
  compareLex (compareOn outCells) (compareOn inCells)

instance : TransCmp compareSeen :=
  inferInstanceAs (TransCmp (compareLex (compareOn outCells) (compareOn inCells)))

theorem same_eq : same = fun a b => compareSeen a b == .eq := by
  funext a b
  apply Bool.eq_iff_iff.2
  rw [same, Bool.and_eq_true, beq_iff_eq, beq_iff_eq, beq_iff_eq, compareSeen, compareLex_eq_eq,
    compareOn, compareOn, LawfulEqCmp.compare_eq_iff_eq, LawfulEqCmp.compare_eq_iff_eq]

theorem isLE_compareSeen {a b : Sighting} (h : (compare a b).isLE = true) :
    (compareSeen a b).isLE = true := by
  change (compareLex (compareOn outCells) (compareLex (compareOn inCells) (compareOn node)) a b).isLE
    = true at h
  rw [compareSeen]
  simp only [compareLex] at h ⊢
  cases hout : compareOn outCells a b with
  | lt => rfl
  | gt =>
      rw [hout] at h
      cases h
  | eq =>
      rw [hout, Ordering.eq_then] at h
      rw [Ordering.eq_then]
      cases hin : compareOn inCells a b with
      | lt => rfl
      | eq => rfl
      | gt =>
          rw [hin] at h
          cases h

/-- Sorted sightings ascend by what is seen. -/
theorem pairwise_compareSeen (xs : List Sighting) :
    (sorted xs).Pairwise fun a b => (compareSeen a b).isLE = true :=
  (pairwise_sorted xs).imp isLE_compareSeen

end Sighting

namespace Neighbours

variable {g : Neighbours} {cellOf : Array Nat} {cells : Cells} {cell : List Nat} {n : Nat}

/-- A cell is cut into the runs of its sorted sightings, also if it has one node only. -/
theorem split_eq (g : Neighbours) (cellOf : Array Nat) (cell : List Nat) : g.split cellOf cell =
    (runs Sighting.same (sorted (cell.map (g.sighting cellOf)))).map (List.map Sighting.node) := by
  unfold split
  split
  · rw [List.map_singleton, sorted, List.mergeSort_singleton]
    rfl
  · rfl

theorem flatten_split_perm (g : Neighbours) (cellOf : Array Nat) (cell : List Nat) :
    (g.split cellOf cell).flatten.Perm cell := by
  rw [split_eq, ← List.map_flatten, flatten_runs]
  have hperm := (sorted_perm (cell.map (g.sighting cellOf))).map Sighting.node
  rw [List.map_map] at hperm
  have hnode : cell.map (Sighting.node ∘ g.sighting cellOf) = cell := List.map_id _
  rw [hnode] at hperm
  exact hperm

theorem refines_flatMap_split (g : Neighbours) (cellOf : Array Nat) (hne : ∀ c ∈ cells, c ≠ []) :
    Cells.Refines (cells.flatMap (g.split cellOf)) cells := by
  induction cells with
  | nil => exact .nil
  | cons cell cells ih =>
      have hcell := hne cell (List.mem_cons_self ..)
      refine .cons (fun hnil => ?_) (fun part hpart => ?_) (g.flatten_split_perm cellOf cell)
        (ih fun c hc => hne c (List.mem_cons_of_mem _ hc))
      · have hperm := g.flatten_split_perm cellOf cell
        rw [hnil] at hperm
        exact hcell hperm.nil_eq.symm
      · rw [split_eq] at hpart
        obtain ⟨r, hr, rfl⟩ := List.mem_map.1 hpart
        exact fun hnil => ne_nil_of_mem_runs hr (List.map_eq_nil_iff.1 hnil)

/-- Splitting, however often, cuts the cells in place. -/
theorem refines_refine (hne : ∀ c ∈ cells, c ≠ []) : (g.refine cells).Refines cells := by
  fun_induction refine with
  | case1 cells next hlt ih =>
      have hsplit := g.refines_flatMap_split (cells.index g.out.size) hne
      exact (ih hsplit.ne_nil).trans hsplit
  | case2 cells next hge => exact g.refines_flatMap_split _ hne

end Neighbours

/-! ### The tables of cells and places -/

section Tables

variable {a : Array Nat} {i k v count : Nat} {cell : List Nat} {cells : Cells} {order : List Nat}

/-- Write a number at the nodes of a cell. -/
def fillCell (a : Array Nat) (cell : List Nat) (i : Nat) : Array Nat :=
  cell.foldl (fun a v => a.setIfInBounds v i) a

theorem size_fillCell : (fillCell a cell i).size = a.size := by
  induction cell generalizing a with
  | nil => rfl
  | cons v cell ih => exact ih.trans (Array.size_setIfInBounds ..)

theorem getD_setIfInBounds {w : Nat} :
    (a.setIfInBounds v i).getD w 0 = if v = w ∧ w < a.size then i else a.getD w 0 := by
  rw [Array.getD_eq_getD_getElem?, Array.getD_eq_getD_getElem?, Array.getElem?_setIfInBounds]
  by_cases hv : v = w
  · subst hv
    by_cases hlt : v < a.size
    · rw [if_pos rfl, if_pos hlt, if_pos ⟨rfl, hlt⟩]
      rfl
    · rw [if_pos rfl, if_neg hlt, if_neg fun h => hlt h.2, Array.getElem?_eq_none (Nat.le_of_not_lt hlt)]
  · rw [if_neg hv, if_neg fun h => hv h.1]

theorem getD_fillCell :
    (fillCell a cell i).getD v 0 = if v ∈ cell ∧ v < a.size then i else a.getD v 0 := by
  induction cell generalizing a with
  | nil =>
      rw [if_neg fun h => List.not_mem_nil h.1]
      rfl
  | cons w cell ih =>
      change (fillCell (a.setIfInBounds w i) cell i).getD v 0 = _
      rw [ih, Array.size_setIfInBounds, getD_setIfInBounds]
      by_cases hlt : v < a.size
      · by_cases hcell : v ∈ cell
        · rw [if_pos ⟨hcell, hlt⟩, if_pos ⟨List.mem_cons_of_mem _ hcell, hlt⟩]
        · rw [if_neg fun h => hcell h.1]
          by_cases hw : w = v
          · rw [if_pos ⟨hw, hlt⟩, if_pos ⟨hw ▸ List.mem_cons_self .., hlt⟩]
          · rw [if_neg fun h => hw h.1, if_neg]
            intro h
            rcases List.mem_cons.1 h.1 with heq | hmem
            · exact hw heq.symm
            · exact hcell hmem
      · rw [if_neg fun h => hlt h.2, if_neg fun h => hlt h.2, if_neg fun h => hlt h.2]

/-- Write at the nodes of each cell its place in the list, counted from `k`. -/
def fillCells (a : Array Nat) (cells : Cells) (k : Nat) : Array Nat :=
  (cells.zipIdx k).foldl (fun a (cell, i) => fillCell a cell i) a

theorem getD_fillCells_of_notMem (hv : v ∉ cells.flatten) :
    (fillCells a cells k).getD v 0 = a.getD v 0 := by
  induction cells generalizing a k with
  | nil => rfl
  | cons cell cells ih =>
      rw [List.flatten_cons, List.mem_append] at hv
      change (fillCells (fillCell a cell k) cells (k + 1)).getD v 0 = _
      rw [ih fun h => hv (.inr h), getD_fillCell, if_neg fun h => hv (.inl h.1)]

theorem getD_fillCells (hnodup : cells.flatten.Nodup) (hcell : cells[i]? = some cell) (hv : v ∈ cell)
    (hlt : v < a.size) : (fillCells a cells k).getD v 0 = k + i := by
  induction cells generalizing a k i with
  | nil => cases hcell
  | cons c cells ih =>
      rw [List.flatten_cons, List.nodup_append] at hnodup
      change (fillCells (fillCell a c k) cells (k + 1)).getD v 0 = _
      cases i with
      | zero =>
          cases hcell
          rw [getD_fillCells_of_notMem fun h => hnodup.2.2 v hv v h rfl, getD_fillCell,
            if_pos ⟨hv, hlt⟩]
          rfl
      | succ i =>
          rw [ih hnodup.2.1 hcell (size_fillCell.symm ▸ hlt)]
          omega

/-- The table of cells names the cell where a node stands. -/
theorem Cells.getD_index (hnodup : cells.flatten.Nodup) (hcell : cells[i]? = some cell)
    (hv : v ∈ cell) (hlt : v < count) : (cells.index count).getD v 0 = i := by
  change (fillCells (Array.replicate count 0) cells 0).getD v 0 = i
  rw [getD_fillCells hnodup hcell hv (Array.size_replicate.symm ▸ hlt), Nat.zero_add]

theorem placesOf_eq_index (count : Nat) (order : List Nat) :
    placesOf count order = Cells.index count (order.map fun v => [v]) := by
  rw [placesOf, Cells.index, List.zipIdx_map, List.foldl_map]
  rfl

/-- The table of places names the place where a node stands. -/
theorem getD_placesOf (hnodup : order.Nodup) (hv : order[i]? = some v) (hlt : v < count) :
    (placesOf count order).getD v 0 = i := by
  rw [placesOf_eq_index]
  apply Cells.getD_index _ _ (List.mem_singleton_self v) hlt
  · rw [← List.flatMap_def, List.flatMap_singleton']
    exact hnodup
  · rw [List.getElem?_map, hv]
    rfl

end Tables

end PathQueryIndex
