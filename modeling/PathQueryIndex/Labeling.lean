/-
Module: PathQueryIndex.Labeling
Layer: Core
Purpose: Canonical numberings of colored graphs. The nodes are kept in an ordered list of cells, at first
  the color classes. Cells are split until the nodes of a cell see the same cells, with the same
  multiplicities, along and against the edges. If a cell still has several nodes, each of them in turn
  is put in front of the others and the search goes on; of the orders that remain, the one that gives
  the least renumbered graph wins.
Imports: PathQueryIndex.ColoredGraph, PathQueryIndex.Sums
Main exports: LabelingRequest, placesOf, Neighbours, Neighbours.refine, Neighbours.search,
  canonicalOrder
-/
import PathQueryIndex.ColoredGraph
import PathQueryIndex.Sums

namespace PathQueryIndex

open Std

/-- A colored graph to be numbered: the rows of its nodes, and the code of its classes. -/
structure LabelingRequest where
  rows : List (List Nat)
  colors : List Int
deriving DecidableEq, Repr, Inhabited

/-- For each node the nodes it points to, and those that point to it. -/
structure Neighbours where
  out : Array (List Nat)
  into : Array (List Nat)

/-- Nodes in the order of their cells. -/
abbrev Cells := List (List Nat)

/-- A node with the cells that it sees, each list ascending. -/
structure Sighting where
  outCells : List Nat
  inCells : List Nat
  node : Nat
deriving DecidableEq, Repr

namespace Sighting

/-- Sightings ascend by what is seen, then by node. -/
instance : Ord Sighting :=
  ⟨compareLex (compareOn outCells) (compareLex (compareOn inCells) (compareOn node))⟩

instance : TransOrd Sighting :=
  inferInstanceAs (TransCmp
    (compareLex (compareOn outCells) (compareLex (compareOn inCells) (compareOn node))))

/-- Whether two nodes see the same. -/
def same (a b : Sighting) : Bool := a.outCells == b.outCells && a.inCells == b.inCells

end Sighting

/-- An order of all nodes, and the graph renumbered by it. -/
structure Leaf where
  graph : List (List Nat)
  order : List Nat
deriving DecidableEq, Repr

/-- The first leaf, unless the second has a lesser graph. -/
def Leaf.lesser (best : Option Leaf) (leaf : Leaf) : Option Leaf :=
  match best with
  | none => some leaf
  | some b => if compare leaf.graph b.graph = .lt then some leaf else some b

/-- How often cells can still be split. -/
def Cells.slack (cells : Cells) : Nat := sumOf (cells.map fun c => c.length - 1)

/-- The cell of each node, given the number of nodes. -/
def Cells.index (count : Nat) (cells : Cells) : Array Nat :=
  cells.zipIdx.foldl (fun a (cell, i) => cell.foldl (fun a v => a.setIfInBounds v i) a)
    (Array.replicate count 0)

/-- The place of each node in an order of the nodes, given their number. -/
def placesOf (count : Nat) (order : List Nat) : Array Nat :=
  order.zipIdx.foldl (fun a (v, i) => a.setIfInBounds v i) (Array.replicate count 0)

/-- The first cell with several nodes, between the cells before and after it. -/
def Cells.target? : Cells → Option (Cells × List Nat × Cells)
  | [] => none
  | cell :: cells =>
    if 1 < cell.length then some ([], cell, cells)
    else (target? cells).map fun (before, c, after) => (cell :: before, c, after)

theorem Cells.slack_append (a b : Cells) :
    Cells.slack (a ++ b) = Cells.slack a + Cells.slack b := by
  simp [slack, sumOf_append]

theorem Cells.eq_of_target? {cells before after : Cells} {cell : List Nat}
    (h : cells.target? = some (before, cell, after)) :
    cells = before ++ cell :: after ∧ 1 < cell.length := by
  induction cells generalizing before with
  | nil => simp [target?] at h
  | cons c cells ih =>
    simp only [target?] at h
    split at h
    · rename_i hlen
      cases h
      exact ⟨rfl, hlen⟩
    · rw [Option.map_eq_some_iff] at h
      obtain ⟨⟨b, x, a⟩, hrest, heq⟩ := h
      cases heq
      obtain ⟨hcells, hlen⟩ := ih hrest
      exact ⟨by rw [hcells]; rfl, hlen⟩

namespace Cells

/-- Put a node of the cell in front of its other nodes. -/
def individualize (before : Cells) (cell : List Nat) (after : Cells) (v : Nat) : Cells :=
  before ++ [v] :: cell.filter (· != v) :: after

theorem slack_individualize_lt {before after : Cells} {cell : List Nat} {v : Nat}
    (hv : v ∈ cell) (hlen : 1 < cell.length) :
    Cells.slack (individualize before cell after v) < Cells.slack (before ++ cell :: after) := by
  have hlt : (cell.filter (· != v)).length < cell.length :=
    List.length_filter_lt_length_iff_exists.2 ⟨v, hv, by simp⟩
  simp only [individualize, slack_append]
  simp only [slack, List.map_cons, sumOf_cons, List.length_singleton]
  omega

end Cells

namespace Neighbours

variable (g : Neighbours)

/-- What a node sees. -/
def sighting (cellOf : Array Nat) (v : Nat) : Sighting where
  outCells := sorted ((g.out.getD v []).map fun u => cellOf.getD u 0)
  inCells := sorted ((g.into.getD v []).map fun u => cellOf.getD u 0)
  node := v

/-- The parts of a cell, by what their nodes see, ascending. -/
def split (cellOf : Array Nat) (cell : List Nat) : Cells :=
  match cell with
  | [v] => [[v]]
  | cell =>
    (runs Sighting.same (sorted (cell.map (g.sighting cellOf)))).map fun part =>
      part.map Sighting.node

/-- Split every cell once, each against the cells as they are. -/
def splitAll (cells : Cells) : Cells := cells.flatMap (g.split (cells.index g.out.size))

theorem length_add_slack_split (cellOf : Array Nat) (cell : List Nat) :
    (g.split cellOf cell).length + (g.split cellOf cell).slack = cell.length := by
  have key : ∀ parts : List (List Sighting), (∀ r ∈ parts, r ≠ []) →
      (parts.map fun part => part.map Sighting.node).length +
        Cells.slack (parts.map fun part => part.map Sighting.node) = parts.flatten.length := by
    intro parts
    induction parts with
    | nil => intro _; rfl
    | cons r parts ih =>
      intro hne
      have hr : 0 < r.length := List.length_pos_iff.2 (hne r (List.mem_cons_self ..))
      have := ih fun s hs => hne s (List.mem_cons_of_mem _ hs)
      simp only [Cells.slack, List.map_cons, List.length_cons, sumOf_cons, List.length_map,
        List.flatten_cons, List.length_append] at this ⊢
      omega
  unfold split
  split
  · rfl
  · rw [key _ fun r hr => ne_nil_of_mem_runs hr, flatten_runs]
    simp

theorem length_add_slack_flatMap_split (cellOf : Array Nat) (cells : Cells) :
    (cells.flatMap (g.split cellOf)).length + Cells.slack (cells.flatMap (g.split cellOf)) ≤
      cells.length + Cells.slack cells := by
  induction cells with
  | nil => exact Nat.le_refl _
  | cons cell cells ih =>
    have h := g.length_add_slack_split cellOf cell
    have happ := Cells.slack_append (g.split cellOf cell) (cells.flatMap (g.split cellOf))
    simp only [List.flatMap_cons, List.length_append, List.length_cons] at ih happ ⊢
    rw [happ]
    have hcons : Cells.slack (cell :: cells) = (cell.length - 1) + Cells.slack cells := by
      simp [Cells.slack]
    rw [hcons]
    omega

theorem length_add_slack_splitAll (cells : Cells) :
    (g.splitAll cells).length + (g.splitAll cells).slack ≤ cells.length + cells.slack :=
  g.length_add_slack_flatMap_split _ cells

/-- Split until no cell is split any more. -/
def refine (cells : Cells) : Cells :=
  let next := g.splitAll cells
  if cells.length < next.length then refine next else next
termination_by cells.slack
decreasing_by
  have := g.length_add_slack_splitAll cells
  have : cells.length < (g.splitAll cells).length := by assumption
  omega

theorem slack_split_le (cellOf : Array Nat) (cell : List Nat) :
    (g.split cellOf cell).slack ≤ cell.length - 1 := by
  have h := g.length_add_slack_split cellOf cell
  cases hparts : g.split cellOf cell with
  | nil => simp [Cells.slack]
  | cons part parts => rw [hparts, List.length_cons] at h; omega

theorem slack_splitAll_le (cells : Cells) : (g.splitAll cells).slack ≤ cells.slack := by
  unfold splitAll
  generalize cells.index g.out.size = cellOf
  induction cells with
  | nil => exact Nat.le_refl _
  | cons cell cells ih =>
    have h := g.slack_split_le cellOf cell
    rw [List.flatMap_cons, Cells.slack_append]
    have hcons : Cells.slack (cell :: cells) = (cell.length - 1) + Cells.slack cells := by
      simp [Cells.slack]
    omega

theorem slack_refine_le (cells : Cells) : (g.refine cells).slack ≤ cells.slack := by
  fun_induction refine with
  | case1 cells next h ih => exact Nat.le_trans ih (g.slack_splitAll_le cells)
  | case2 cells next h => exact g.slack_splitAll_le cells

/-- The graph in the numbering that an order of the nodes gives: the node at place `i` becomes `i`. -/
def renumbered (order : List Nat) : List (List Nat) :=
  let place := placesOf g.out.size order
  order.map fun v => sorted ((g.out.getD v []).map fun u => place.getD u 0)

/-- The least of the leaves below the cells and of the best leaf so far. -/
def search (best : Option Leaf) (cells : Cells) : Option Leaf :=
  let refined := g.refine cells
  match _h : refined.target? with
  | none => Leaf.lesser best ⟨g.renumbered refined.flatten, refined.flatten⟩
  | some (before, cell, after) =>
    cell.attach.foldl
      (fun best ⟨v, _hv⟩ => search best (Cells.individualize before cell after v)) best
termination_by cells.slack
decreasing_by
  obtain ⟨hcells, hlen⟩ := Cells.eq_of_target? _h
  have h₁ := g.slack_refine_le cells
  have h₂ := @Cells.slack_individualize_lt before after cell v _hv hlen
  rw [← hcells] at h₂
  exact Nat.lt_of_lt_of_le h₂ h₁

end Neighbours

namespace LabelingRequest

/-- The first node with a neighbour that is no node, and that neighbour. -/
def strayNeighbour? (r : LabelingRequest) : Option (Nat × Nat) :=
  r.rows.zipIdx.findSome? fun (row, v) =>
    (row.find? (r.rows.length ≤ ·)).map fun u => (v, u)

/-- The neighbours of the nodes in both directions. -/
def neighbours (r : LabelingRequest) : Neighbours where
  out := r.rows.toArray
  into := r.rows.zipIdx.foldl
    (fun a (row, v) => row.foldl (fun a u => a.modify u (v :: ·)) a)
    (Array.replicate r.rows.length [])

end LabelingRequest

/-- The canonical order of the nodes of a request: the node at place `i` is the `i`-th of the list. A
    request that is cancelled is refused after its checks. -/
def canonicalOrder (r : LabelingRequest) (cancelled : Bool) : Except Error (List Nat) := do
  let cells ← decodeClasses r.rows.length r.colors
  if let some (node, other) := r.strayNeighbour? then
    throw (.labeling (.neighbour node other))
  if cancelled then throw .cancelled
  match r.neighbours.search none cells with
  | some leaf => return leaf.order
  | none => throw (.labeling .noLeaf)

end PathQueryIndex
