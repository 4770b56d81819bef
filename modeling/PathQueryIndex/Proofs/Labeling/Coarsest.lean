/-
Module: PathQueryIndex.Proofs.Labeling.Coarsest
Layer: Proofs
Purpose: What refining computes. One round of splitting keeps two nodes together if they stand in one cell and
  see the same cells. What nodes see is decided by finer cells, so equitable cells that are finer than
  the cells of a round are finer than those of the next one, and hence than the refined cells. A round
  that splits nothing leaves cells whose nodes see the same, and this is what equitable means.
Imports: PathQueryIndex.Proofs.Labeling.Requests
Main exports: Neighbours.together_splitAll_iff, Neighbours.equitable_iff_same, Neighbours.finer_refine,
  Neighbours.equitable_refine, LabelingRequest.refine_is_coarsest
-/
import PathQueryIndex.Proofs.Labeling.Requests

namespace PathQueryIndex

open Std

/-! ### Finer cells and the numbers of cells -/

namespace Cells

variable {a b fine cells : Cells} {cell row row' : List Nat} {n u v i : Nat}

/-- Cells that are cut in place are finer. -/
theorem Refines.finer (h : Refines a b) : a.Finer b := by
  induction h with
  | nil => exact fun _ _ huv => huv
  | cons _ _ hperm _ ih =>
      intro u v huv
      obtain ⟨part, hpart, hu, hv⟩ := huv
      rcases List.mem_append.1 hpart with hpart | hpart
      · refine ⟨_, List.mem_cons_self .., hperm.subset ?_, hperm.subset ?_⟩
        · exact List.mem_flatten.2 ⟨part, hpart, hu⟩
        · exact List.mem_flatten.2 ⟨part, hpart, hv⟩
      · obtain ⟨cell, hcell, hmem⟩ := ih u v ⟨part, hpart, hu, hv⟩
        exact ⟨cell, List.mem_cons_of_mem _ hcell, hmem⟩

/-- Cutting in place never makes fewer cells. -/
theorem Refines.length_le (h : Refines a b) : b.length ≤ a.length := by
  induction h with
  | nil => exact Nat.le_refl _
  | cons hne _ _ _ ih =>
      have hpos := List.length_pos_iff.2 hne
      rw [List.length_append, List.length_cons]
      omega

/-- If there are no more cells than before, no cell was cut. -/
theorem Refines.forall₂_perm (h : Refines a b) (hlen : a.length ≤ b.length) :
    List.Forall₂ List.Perm a b := by
  induction h with
  | nil => exact .nil
  | @cons parts rest cells cell hne _ hperm hrest ih =>
      have hpos := List.length_pos_iff.2 hne
      have hle := hrest.length_le
      rw [List.length_append, List.length_cons] at hlen
      obtain ⟨part, rfl⟩ := List.length_eq_one_iff.1 (show parts.length = 1 by omega)
      rw [List.flatten_singleton] at hperm
      exact .cons hperm (ih (by omega))

theorem finer_of_forall₂_perm (h : List.Forall₂ List.Perm a b) : b.Finer a := by
  intro u v huv
  obtain ⟨cell, hcell, hu, hv⟩ := huv
  obtain ⟨part, hpart, hperm⟩ := exists_of_mem_right h hcell
  exact ⟨part, hpart, hperm.symm.subset hu, hperm.symm.subset hv⟩

theorem Covers.lt_of_together (hcells : cells.Covers n) (h : cells.Together u v) : u < n ∧ v < n := by
  obtain ⟨cell, hcell, hu, hv⟩ := h
  exact ⟨hcells.lt_of_mem hcell hu, hcells.lt_of_mem hcell hv⟩

/-- The number of a node is the place of the cell where it stands. -/
theorem Covers.exists_place (hcells : cells.Covers n) (hu : u < n) :
    ∃ cell, cells[(cells.index n).getD u 0]? = some cell ∧ u ∈ cell := by
  obtain ⟨cell, hcell, hucell⟩ := List.mem_flatten.1 (hcells.1.symm.subset (List.mem_range.2 hu))
  obtain ⟨i, hi⟩ := List.mem_iff_getElem?.1 hcell
  rw [Cells.getD_index hcells.nodup hi hucell hu]
  exact ⟨cell, hi, hucell⟩

/-- A node has the number of a cell if and only if it stands there. -/
theorem Covers.getD_index_eq_iff (hcells : cells.Covers n) (hcell : cells[i]? = some cell) (hu : u < n) :
    (cells.index n).getD u 0 = i ↔ u ∈ cell := by
  constructor
  · rintro rfl
    obtain ⟨cell', hcell', hmem⟩ := hcells.exists_place hu
    rw [hcell] at hcell'
    cases hcell'
    exact hmem
  · intro hmem
    exact Cells.getD_index hcells.nodup hcell hmem hu

theorem Covers.together_iff (hcells : cells.Covers n) (hu : u < n) (hv : v < n) :
    cells.Together u v ↔ (cells.index n).getD u 0 = (cells.index n).getD v 0 := by
  constructor
  · rintro ⟨cell, hcell, hucell, hvcell⟩
    obtain ⟨i, hi⟩ := List.mem_iff_getElem?.1 hcell
    rw [(hcells.getD_index_eq_iff hi hu).2 hucell, (hcells.getD_index_eq_iff hi hv).2 hvcell]
  · intro heq
    obtain ⟨cell, hcell, hucell⟩ := hcells.exists_place hu
    exact ⟨cell, List.mem_of_getElem? hcell, hucell, (hcells.getD_index_eq_iff hcell hv).1 heq.symm⟩

/-- The number of a node in coarser cells is decided by that in finer ones. -/
theorem Finer.exists_factor (h : fine.Finer cells) (hfine : fine.Covers n) (hcells : cells.Covers n) :
    ∃ f : Nat → Nat, ∀ u < n, f ((fine.index n).getD u 0) = (cells.index n).getD u 0 := by
  refine ⟨fun i => (cells.index n).getD ((fine.getD i []).headD 0) 0, fun u hu => ?_⟩
  obtain ⟨cell, hcell, hucell⟩ := hfine.exists_place hu
  dsimp only
  rw [List.getD_eq_getElem?_getD, hcell, Option.getD_some]
  cases cell with
  | nil => cases hucell
  | cons w rest =>
      have hmem := List.mem_of_getElem? hcell
      have hw := hfine.lt_of_mem hmem (List.mem_cons_self ..)
      exact (hcells.together_iff hw hu).1 (h w u ⟨_, hmem, List.mem_cons_self .., hucell⟩)

/-- Neighbours that stand in the same finer cells stand in the same coarser cells. -/
theorem Finer.perm_map_index (h : fine.Finer cells) (hfine : fine.Covers n) (hcells : cells.Covers n)
    (hrow : ∀ u ∈ row, u < n) (hrow' : ∀ u ∈ row', u < n)
    (hperm : (row.map fun u => (fine.index n).getD u 0).Perm
      (row'.map fun u => (fine.index n).getD u 0)) :
    (row.map fun u => (cells.index n).getD u 0).Perm
      (row'.map fun u => (cells.index n).getD u 0) := by
  obtain ⟨f, hf⟩ := h.exists_factor hfine hcells
  have hmap : ∀ xs : List Nat, (∀ u ∈ xs, u < n) →
      (xs.map fun u => (fine.index n).getD u 0).map f = xs.map fun u => (cells.index n).getD u 0 := by
    intro xs hxs
    rw [List.map_map]
    exact List.map_congr_left fun u hu => hf u (hxs u hu)
  rw [← hmap row hrow, ← hmap row' hrow']
  exact hperm.map f

/-- A cell has as many of the neighbours as its number occurs among theirs. -/
theorem Covers.count_map_index (hcells : cells.Covers n) (hcell : cells[i]? = some cell)
    (hrow : ∀ u ∈ row, u < n) :
    (row.map fun u => (cells.index n).getD u 0).count i = countIn cell row := by
  rw [List.count_eq_countP, List.countP_map]
  apply List.countP_congr
  intro u hu
  rw [Function.comp_apply, beq_iff_eq, List.contains_iff_mem]
  exact hcells.getD_index_eq_iff hcell (hrow u hu)

/-- Neighbours stand in the same cells, with the same multiplicities, if every cell has as many of the
    ones as of the others. -/
theorem Covers.perm_map_index_iff (hcells : cells.Covers n) (hrow : ∀ u ∈ row, u < n)
    (hrow' : ∀ u ∈ row', u < n) :
    (row.map fun u => (cells.index n).getD u 0).Perm (row'.map fun u => (cells.index n).getD u 0) ↔
      ∀ cell ∈ cells, countIn cell row = countIn cell row' := by
  rw [List.perm_iff_count]
  constructor
  · intro h cell hcell
    obtain ⟨i, hi⟩ := List.mem_iff_getElem?.1 hcell
    rw [← hcells.count_map_index hi hrow, ← hcells.count_map_index hi hrow']
    exact h i
  · intro h i
    cases hi : cells[i]? with
    | some cell =>
        rw [hcells.count_map_index hi hrow, hcells.count_map_index hi hrow']
        exact h cell (List.mem_of_getElem? hi)
    | none =>
        -- there is no such cell, so no node has its number
        have hzero : ∀ xs : List Nat, (∀ u ∈ xs, u < n) →
            (xs.map fun u => (cells.index n).getD u 0).count i = 0 := by
          intro xs hxs
          apply List.count_eq_zero.2
          intro hmem
          obtain ⟨u, hu, rfl⟩ := List.mem_map.1 hmem
          obtain ⟨cell, hcell, _⟩ := hcells.exists_place (hxs u hu)
          rw [hi] at hcell
          cases hcell
        rw [hzero row hrow, hzero row' hrow']

end Cells

/-! ### One round -/

namespace Neighbours

variable {g : Neighbours} {cellOf : Array Nat} {fine cells : Cells} {cell : List Nat} {u v : Nat}

/-- The neighbours of nodes are nodes. -/
structure InRange (g : Neighbours) : Prop where
  out_lt : ∀ v < g.out.size, ∀ u ∈ g.out.getD v [], u < g.out.size
  into_lt : ∀ v < g.out.size, ∀ u ∈ g.into.getD v [], u < g.out.size

/-- Nodes see the same if their neighbours have the same numbers, with the same multiplicities. -/
theorem same_sighting_iff :
    Sighting.same (g.sighting cellOf u) (g.sighting cellOf v) = true ↔
      ((g.out.getD u []).map fun w => cellOf.getD w 0).Perm
        ((g.out.getD v []).map fun w => cellOf.getD w 0) ∧
      ((g.into.getD u []).map fun w => cellOf.getD w 0).Perm
        ((g.into.getD v []).map fun w => cellOf.getD w 0) := by
  have hsorted : ∀ xs ys : List Nat, sorted xs = sorted ys ↔ xs.Perm ys := by
    intro xs ys
    constructor
    · intro h
      exact (sorted_perm xs).symm.trans (h ▸ sorted_perm ys)
    · exact sorted_eq_of_perm
  rw [Sighting.same, Bool.and_eq_true, beq_iff_eq, beq_iff_eq]
  exact and_congr (hsorted _ _) (hsorted _ _)

/-- The parts of a cell keep those nodes together that see the same. -/
theorem together_split_iff : Cells.Together (g.split cellOf cell) u v ↔
    u ∈ cell ∧ v ∈ cell ∧ Sighting.same (g.sighting cellOf u) (g.sighting cellOf v) = true := by
  rw [split_eq, Sighting.same_eq, beq_iff_eq]
  have hasc := Sighting.pairwise_compareSeen (cell.map (g.sighting cellOf))
  -- the sighting of a node is the only one that carries the node
  have hmem : ∀ {s : Sighting}, s ∈ sorted (cell.map (g.sighting cellOf)) →
      s.node ∈ cell ∧ g.sighting cellOf s.node = s := by
    intro s hs
    obtain ⟨w, hw, rfl⟩ := List.mem_map.1 (mem_sorted.1 hs)
    exact ⟨hw, rfl⟩
  constructor
  · rintro ⟨part, hpart, hu, hv⟩
    obtain ⟨run, hrun, rfl⟩ := List.mem_map.1 hpart
    obtain ⟨s, hs, rfl⟩ := List.mem_map.1 hu
    obtain ⟨t, ht, rfl⟩ := List.mem_map.1 hv
    obtain ⟨hscell, hseq⟩ := hmem (mem_of_mem_runs hrun hs)
    obtain ⟨htcell, hteq⟩ := hmem (mem_of_mem_runs hrun ht)
    refine ⟨hscell, htcell, ?_⟩
    rw [hseq, hteq]
    exact eq_of_mem_runs hrun hs ht
  · rintro ⟨hu, hv, hsame⟩
    have humem : g.sighting cellOf u ∈ sorted (cell.map (g.sighting cellOf)) :=
      mem_sorted.2 (List.mem_map_of_mem hu)
    have hvmem : g.sighting cellOf v ∈ sorted (cell.map (g.sighting cellOf)) :=
      mem_sorted.2 (List.mem_map_of_mem hv)
    have hflat := humem
    rw [← flatten_runs (fun a b => Sighting.compareSeen a b == .eq)
      (sorted (cell.map (g.sighting cellOf)))] at hflat
    obtain ⟨run, hrun, hurun⟩ := List.mem_flatten.1 hflat
    have hvrun := mem_run_of_eq hasc hrun hurun hvmem hsame
    exact ⟨_, List.mem_map_of_mem hrun, List.mem_map_of_mem (f := Sighting.node) hurun,
      List.mem_map_of_mem (f := Sighting.node) hvrun⟩

/-- The step: one round keeps those nodes of a cell together that see the same cells. -/
theorem together_splitAll_iff : (g.splitAll cells).Together u v ↔ cells.Together u v ∧
    Sighting.same (g.sighting (cells.index g.out.size) u) (g.sighting (cells.index g.out.size) v) =
      true := by
  constructor
  · rintro ⟨part, hpart, hu, hv⟩
    obtain ⟨cell, hcell, hpart⟩ := List.mem_flatMap.1 hpart
    obtain ⟨hucell, hvcell, hsame⟩ := together_split_iff.1 ⟨part, hpart, hu, hv⟩
    exact ⟨⟨cell, hcell, hucell, hvcell⟩, hsame⟩
  · rintro ⟨⟨cell, hcell, hu, hv⟩, hsame⟩
    obtain ⟨part, hpart, hmem⟩ := together_split_iff.2 ⟨hu, hv, hsame⟩
    exact ⟨part, List.mem_flatMap.2 ⟨cell, hcell, hpart⟩, hmem⟩

section Rounds

variable (hg : g.InRange)

include hg

/-- Cells are equitable if and only if the nodes of a cell see the same cells. -/
theorem equitable_iff_same (hcells : cells.Covers g.out.size) :
    g.Equitable cells ↔ ∀ u v, cells.Together u v →
      Sighting.same (g.sighting (cells.index g.out.size) u) (g.sighting (cells.index g.out.size) v) =
        true := by
  refine forall_congr' fun u => forall_congr' fun v => forall_congr' fun huv => ?_
  obtain ⟨hu, hv⟩ := hcells.lt_of_together huv
  rw [same_sighting_iff, hcells.perm_map_index_iff (hg.out_lt u hu) (hg.out_lt v hv),
    hcells.perm_map_index_iff (hg.into_lt u hu) (hg.into_lt v hv)]
  constructor
  · intro h
    exact ⟨fun cell hcell => (h cell hcell).1, fun cell hcell => (h cell hcell).2⟩
  · intro h cell hcell
    exact ⟨h.1 cell hcell, h.2 cell hcell⟩

/-- Nodes that see the same finer cells see the same coarser cells. -/
theorem same_of_finer (h : fine.Finer cells) (hfine : fine.Covers g.out.size)
    (hcells : cells.Covers g.out.size) (hu : u < g.out.size) (hv : v < g.out.size)
    (hsame : Sighting.same (g.sighting (fine.index g.out.size) u)
      (g.sighting (fine.index g.out.size) v) = true) :
    Sighting.same (g.sighting (cells.index g.out.size) u) (g.sighting (cells.index g.out.size) v) =
      true := by
  rw [same_sighting_iff] at hsame ⊢
  exact ⟨h.perm_map_index hfine hcells (hg.out_lt u hu) (hg.out_lt v hv) hsame.1,
    h.perm_map_index hfine hcells (hg.into_lt u hu) (hg.into_lt v hv) hsame.2⟩

/-- The step: equitable cells that are finer than the cells are finer than those of the next round. -/
theorem finer_splitAll (hequitable : g.Equitable fine) (hfine : fine.Covers g.out.size)
    (hcells : cells.Covers g.out.size) (h : fine.Finer cells) : fine.Finer (g.splitAll cells) := by
  intro u v huv
  obtain ⟨hu, hv⟩ := hfine.lt_of_together huv
  have hsame := (equitable_iff_same hg hfine).1 hequitable u v huv
  exact together_splitAll_iff.2 ⟨h u v huv, same_of_finer hg h hfine hcells hu hv hsame⟩

/-- The run: equitable cells that are finer than the cells are finer than the refined cells. -/
theorem finer_refine (hequitable : g.Equitable fine) (hfine : fine.Covers g.out.size)
    (hcells : cells.Covers g.out.size) (h : fine.Finer cells) : fine.Finer (g.refine cells) := by
  fun_induction refine with
  | case1 cells next hlt ih =>
      have hnext := hcells.of_refines (g.refines_flatMap_split (cells.index g.out.size) hcells.2)
      exact ih hnext (finer_splitAll hg hequitable hfine hcells h)
  | case2 cells next hge => exact finer_splitAll hg hequitable hfine hcells h

/-- A round that splits nothing leaves equitable cells. -/
theorem equitable_splitAll (hcells : cells.Covers g.out.size)
    (hge : ¬ cells.length < (g.splitAll cells).length) : g.Equitable (g.splitAll cells) := by
  have hrefines : (g.splitAll cells).Refines cells := g.refines_flatMap_split _ hcells.2
  have hnext := hcells.of_refines hrefines
  have hback := Cells.finer_of_forall₂_perm (hrefines.forall₂_perm (Nat.le_of_not_lt hge))
  apply (equitable_iff_same hg hnext).2
  intro u v huv
  obtain ⟨hu, hv⟩ := hnext.lt_of_together huv
  exact same_of_finer hg hback hcells hnext hu hv (together_splitAll_iff.1 huv).2

theorem equitable_refine (hcells : cells.Covers g.out.size) : g.Equitable (g.refine cells) := by
  fun_induction refine with
  | case1 cells next hlt ih =>
      exact ih (hcells.of_refines (g.refines_flatMap_split (cells.index g.out.size) hcells.2))
  | case2 cells next hge => exact equitable_splitAll hg hcells hge

end Rounds

end Neighbours

/-! ### Refining the cells of a graph -/

namespace LabelingRequest

variable {r : LabelingRequest} {cells : Cells}

theorem inRange_neighbours (hrows : ∀ row ∈ r.rows, ∀ u ∈ row, u < r.rows.length) :
    r.neighbours.InRange where
  out_lt := fun v hv u hu => by
    rw [getD_out] at hu
    exact hrows _ (getD_mem_rows hv) u hu
  into_lt := fun _ hv _ => into_lt hv

/-- Refining gives the coarsest equitable cells. If all neighbours are nodes, then cells that cover the nodes,
    none of them empty, are refined to cells that cover the nodes again: each cell is cut in place, the nodes of
    one cell have as many neighbours in every cell, in both directions, and every equitable division of the nodes
    that is finer than the given cells is finer than the refined cells. -/
theorem refine_is_coarsest (hrows : ∀ row ∈ r.rows, ∀ u ∈ row, u < r.rows.length)
    (hcells : cells.Covers r.rows.length) :
    (r.neighbours.refine cells).Covers r.rows.length ∧ (r.neighbours.refine cells).Refines cells ∧
      r.neighbours.Equitable (r.neighbours.refine cells) ∧
      ∀ fine : Cells, fine.Covers r.rows.length → fine.Finer cells → r.neighbours.Equitable fine →
        fine.Finer (r.neighbours.refine cells) := by
  have hg := inRange_neighbours hrows
  have hrefines := Neighbours.refines_refine (g := r.neighbours) hcells.2
  refine ⟨hcells.of_refines hrefines, hrefines, Neighbours.equitable_refine hg hcells, ?_⟩
  intro fine hfine hfiner hequitable
  exact Neighbours.finer_refine hg hequitable hfine hcells hfiner

/-- Two ways from node 0 to node 3. -/
def twoWays : LabelingRequest := ⟨[[1, 2], [3], [3], []], []⟩

/-- Of two ways from one node to another, all nodes in one cell, the nodes halfway are kept together, since they
    are together in equitable cells. -/
theorem refine_is_coarsest_two_ways :
    (twoWays.neighbours.refine [[0, 1, 2, 3]]).Covers 4 ∧
      (twoWays.neighbours.refine [[0, 1, 2, 3]]).Refines [[0, 1, 2, 3]] ∧
      twoWays.neighbours.Equitable (twoWays.neighbours.refine [[0, 1, 2, 3]]) ∧
      (twoWays.neighbours.refine [[0, 1, 2, 3]]).Together 1 2 := by
  have hall : Cells.Covers [[0, 1, 2, 3]] twoWays.rows.length := by decide
  obtain ⟨hcovers, hrefines, hequitable, hcoarsest⟩ := refine_is_coarsest (r := twoWays) (by decide) hall
  have hfiner := hcoarsest [[0], [1, 2], [3]] (by decide) (by decide) (by decide)
  exact ⟨hcovers, hrefines, hequitable, hfiner 1 2 ⟨[1, 2], by decide, by decide, by decide⟩⟩

/-- Nodes with fewer ways out come first. -/
example : twoWays.neighbours.refine [[0, 1, 2, 3]] = [[3], [1, 2], [0]] := by cbv

end LabelingRequest

end PathQueryIndex
