/-
Module: PathQueryIndex.Labeling.Equitable
Layer: Core
Purpose: Equitable cells. Cells are equitable if any two nodes of a cell have as many neighbours in every
  cell as each other, in both directions. Cells refine others if they split each of these in place; they
  are finer if each of them lies within one of the others, whatever the order of the cells.
Imports: PathQueryIndex.Labeling
Main exports: Cells.Covers, Cells.Refines, Neighbours.Equitable, Cells.Together, Cells.Finer
-/
import PathQueryIndex.Labeling

namespace PathQueryIndex

namespace Cells

/-- Every node below a count stands in the cells once, and no cell is empty. -/
def Covers (cells : Cells) (count : Nat) : Prop :=
  cells.flatten.Perm (List.range count) ∧ ∀ cell ∈ cells, cell ≠ []

/-- Two nodes stand in one cell. -/
def Together (cells : Cells) (u v : Nat) : Prop := ∃ cell ∈ cells, u ∈ cell ∧ v ∈ cell

/-- Nodes that stand in one of the first cells stand in one of the second. -/
def Finer (fine cells : Cells) : Prop := ∀ u v, fine.Together u v → cells.Together u v

/-- Each cell is split into cells that stand in its place: together they have the same nodes. -/
inductive Refines : Cells → Cells → Prop where
  | nil : Refines [] []
  | cons {parts rest cells : Cells} {cell : List Nat} :
      parts ≠ [] → (∀ part ∈ parts, part ≠ []) → parts.flatten.Perm cell → Refines rest cells →
        Refines (parts ++ rest) (cell :: cells)

end Cells

/-- How many of some neighbours stand in a cell. -/
def countIn (cell neighbours : List Nat) : Nat := neighbours.countP fun u => cell.contains u

/-- Nodes of one cell have as many neighbours in every cell, along the edges and against them. -/
def Neighbours.Equitable (g : Neighbours) (cells : Cells) : Prop :=
  ∀ u v, cells.Together u v → ∀ cell ∈ cells,
    countIn cell (g.out.getD u []) = countIn cell (g.out.getD v []) ∧
    countIn cell (g.into.getD u []) = countIn cell (g.into.getD v [])

/-! ### Deciding -/

section Decide

variable {g : Neighbours} {fine cells : Cells}

instance (count : Nat) : Decidable (cells.Covers count) :=
  inferInstanceAs (Decidable (_ ∧ _))

instance (u v : Nat) : Decidable (cells.Together u v) :=
  inferInstanceAs (Decidable (∃ cell ∈ cells, u ∈ cell ∧ v ∈ cell))

/-- Only nodes that stand in a cell have to be compared. -/
theorem Cells.forall_together_iff {P : Nat → Nat → Prop} :
    (∀ u v, cells.Together u v → P u v) ↔ ∀ cell ∈ cells, ∀ u ∈ cell, ∀ v ∈ cell, P u v := by
  constructor
  · intro h cell hcell u hu v hv
    exact h u v ⟨cell, hcell, hu, hv⟩
  · intro h u v huv
    obtain ⟨cell, hcell, hu, hv⟩ := huv
    exact h cell hcell u hu v hv

instance : Decidable (fine.Finer cells) := decidable_of_iff _ Cells.forall_together_iff.symm

instance : Decidable (g.Equitable cells) := decidable_of_iff _ Cells.forall_together_iff.symm

end Decide

end PathQueryIndex
