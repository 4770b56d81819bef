/-
Module: PathQueryIndex.Proofs.Labeling.Contract
Layer: Proofs
Purpose: What the searching labeler promises. A request whose rows name nodes only and whose colors are the
  code of classes that cover the nodes gets an order. The order has every node once and lists the classes
  one after the other, and the graph relabeled by it does not depend on how the nodes are numbered, nor on
  the order of nodes in a class and of neighbours in a row.
Imports: PathQueryIndex.Proofs.Labeling.Requests
Main exports: LabelingRequest.Valid, LabelingRequest.relabeled, canonicalOrder_is_canonical
-/
import PathQueryIndex.Proofs.Labeling.Requests

namespace PathQueryIndex

namespace LabelingRequest

variable {r s : LabelingRequest} {classes classes' : Cells} {order : List Nat} {σ : Nat → Nat}

/-- The rows name nodes only, and the colors are the code of classes that cover the nodes. -/
structure Valid (r : LabelingRequest) (classes : Cells) : Prop where
  row_lt : ∀ row ∈ r.rows, ∀ u ∈ row, u < r.rows.length
  covers : classes.Covers r.rows.length
  colors_eq : r.colors = encodeClasses classes

/-- The graph whose node `i` is the node at place `i` of an order: every neighbour is replaced by its place,
    and rows are sorted. -/
def relabeled (r : LabelingRequest) (order : List Nat) : List (List Nat) :=
  order.map fun v => sorted ((r.rows.getD v []).map order.idxOf)

/-- The search compares the graphs that the orders relabel. -/
theorem renumbered_eq_relabeled (horder : order.Perm (List.range r.rows.length))
    (hrows : ∀ row ∈ r.rows, ∀ u ∈ row, u < r.rows.length) :
    r.neighbours.renumbered order = r.relabeled order := by
  have hnodup : order.Nodup := horder.nodup_iff.2 List.nodup_range
  apply List.map_congr_left
  intro v hv
  have hvlt : v < r.rows.length := List.mem_range.1 (horder.subset hv)
  rw [getD_out]
  congr 1
  apply List.map_congr_left
  intro u hu
  have hult : u < r.rows.length := hrows _ (getD_mem_rows hvlt) u hu
  have hmem : u ∈ order := horder.symm.subset (List.mem_range.2 hult)
  exact getD_placesOf hnodup (List.getElem?_idxOf hmem) hult

namespace Valid

theorem decodeClasses_eq (h : r.Valid classes) :
    decodeClasses r.rows.length r.colors = .ok classes := by
  rw [h.colors_eq]
  exact decodeClasses_encodeClasses h.covers

theorem exists_order (h : r.Valid classes) : ∃ order, canonicalOrder r false = .ok order :=
  exists_canonicalOrder h.decodeClasses_eq (strayNeighbour?_eq_none h.row_lt)

/-- A renamed request is valid too. -/
theorem renamed (h : r.Valid classes) (hren : Renamed σ r s) (himage : Cells.Image σ classes classes')
    (hcolors : s.colors = encodeClasses classes') : s.Valid classes' where
  row_lt := by
    intro row hrow u hu
    obtain ⟨w, hw⟩ := List.mem_iff_getElem?.1 hrow
    have hwlt : w < s.rows.length := (List.getElem?_eq_some_iff.1 hw).1
    obtain ⟨v, hv, rfl⟩ := hren.renames.exists_eq (hren.length_eq ▸ hwlt)
    have hget : s.rows.getD (σ v) [] = row := by
      rw [List.getD_eq_getElem?_getD, hw]
      rfl
    obtain ⟨x, hx, rfl⟩ := List.mem_map.1 ((hren.row_perm v hv).subset (hget ▸ hu))
    rw [hren.length_eq]
    exact hren.renames.lt x (hren.row_lt v hv x hx)
  covers := hren.length_eq ▸ himage.covers hren.renames h.covers
  colors_eq := hcolors

end Valid

end LabelingRequest

/-- A valid request gets an order of its nodes. The order lists the classes one after the other; and
    however the nodes are renamed, with the nodes of every class and the neighbours of every row in any order,
    the renamed request gets an order that relabels it to the same graph. -/
theorem canonicalOrder_is_canonical {r : LabelingRequest} {classes : Cells} (hr : r.Valid classes) :
    ∃ order, canonicalOrder r false = .ok order ∧ order.Perm (List.range r.rows.length) ∧
      (∃ parts : Cells, parts.flatten = order ∧ List.Forall₂ List.Perm parts classes) ∧
      ∀ (σ : Nat → Nat) (s : LabelingRequest) (classes' : Cells), LabelingRequest.Renamed σ r s →
        Cells.Image σ classes classes' → s.colors = encodeClasses classes' →
          ∃ order', canonicalOrder s false = .ok order' ∧ s.relabeled order' = r.relabeled order := by
  obtain ⟨order, horder⟩ := hr.exists_order
  obtain ⟨hperm, hparts⟩ := exists_parts_of_canonicalOrder horder hr.decodeClasses_eq
  refine ⟨order, horder, hperm, hparts, fun σ s classes' hren himage hcolors => ?_⟩
  have hs := hr.renamed hren himage hcolors
  obtain ⟨order', horder'⟩ := hs.exists_order
  have hperm' := (exists_parts_of_canonicalOrder horder' hs.decodeClasses_eq).1
  refine ⟨order', horder', ?_⟩
  rw [← LabelingRequest.renumbered_eq_relabeled hperm hr.row_lt,
    ← LabelingRequest.renumbered_eq_relabeled hperm' hs.row_lt]
  exact hren.renumbered_eq hr.decodeClasses_eq hs.decodeClasses_eq himage horder horder'

/-- A cycle of four nodes of one color, of which every rotation is a symmetry, and the same cycle with two
    neighbours exchanged and the color class written in another order. -/
theorem canonicalOrder_is_canonical_cycle :
    ∃ order order', canonicalOrder ⟨[[1], [2], [3], [0]], [1, 2, 3, -4]⟩ false = .ok order ∧
      order.Perm [0, 1, 2, 3] ∧
      canonicalOrder ⟨[[2], [0], [3], [1]], [3, 4, 1, -2]⟩ false = .ok order' ∧
      LabelingRequest.relabeled ⟨[[2], [0], [3], [1]], [3, 4, 1, -2]⟩ order' =
        LabelingRequest.relabeled ⟨[[1], [2], [3], [0]], [1, 2, 3, -4]⟩ order := by
  have hvalid : LabelingRequest.Valid ⟨[[1], [2], [3], [0]], [1, 2, 3, -4]⟩ [[0, 1, 2, 3]] :=
    ⟨by decide, ⟨by decide, by decide⟩, by decide⟩
  have hren : LabelingRequest.Renamed (fun v => [1, 0, 2, 3].getD v v)
      ⟨[[1], [2], [3], [0]], [1, 2, 3, -4]⟩ ⟨[[2], [0], [3], [1]], [3, 4, 1, -2]⟩ :=
    ⟨rfl, ⟨by decide, by decide⟩, by decide, by decide⟩
  have himage : Cells.Image (fun v => [1, 0, 2, 3].getD v v) [[0, 1, 2, 3]] [[2, 3, 0, 1]] :=
    .cons (by decide) .nil
  obtain ⟨order, horder, hperm, _, hrenamed⟩ := canonicalOrder_is_canonical hvalid
  obtain ⟨order', horder', hsame⟩ := hrenamed _ _ _ hren himage (by decide)
  exact ⟨order, order', horder, hperm, horder', hsame⟩

end PathQueryIndex
