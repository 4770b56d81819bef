/-
Module: PathQueryIndex.Graph
Layer: Core
Purpose: The indexed graphs: directed, with labeled edges, over the vertices and the labels below two
  bounds. An edge is a source, a target and a label, and no edge occurs twice.
Imports: PathQueryIndex.Error
Main exports: Edge, Graph, Graph.empty, Graph.addEdge, Graph.usedLabels
-/
import PathQueryIndex.Error

namespace PathQueryIndex

open Std

/-- An edge, followed forwards. -/
structure Edge where
  source : Vertex
  target : Vertex
  label : UInt32
deriving DecidableEq, Repr, Inhabited

namespace Edge

/-- Edges ascend by source, target and label. -/
instance : Ord Edge :=
  ⟨compareLex (compareOn source) (compareLex (compareOn target) (compareOn label))⟩

instance : TransOrd Edge :=
  inferInstanceAs (TransCmp
    (compareLex (compareOn source) (compareLex (compareOn target) (compareOn label))))

instance : LawfulEqOrd Edge where
  eq_of_compare {a b} h := by
    have h : (compareLex (compareOn source) (compareLex (compareOn target) (compareOn label)))
      a b = .eq := h
    simp only [compareLex_eq_eq, compareOn, LawfulEqCmp.compare_eq_iff_eq] at h
    cases a; cases b; simp_all

/-- The two ends. -/
def pair (e : Edge) : Pair := ⟨e.source, e.target⟩

end Edge

/-- A directed graph with labeled edges inside its bounds. -/
structure Graph where
  vertexCount : Vertex
  labelCount : UInt32
  edges : OrderedSet Edge
  inBounds : ∀ e ∈ edges, (e.source < vertexCount ∧ e.target < vertexCount) ∧ e.label < labelCount

namespace Graph

/-- The graph without edges. -/
def empty (vertexCount : Vertex) (labelCount : UInt32) : Graph where
  vertexCount := vertexCount
  labelCount := labelCount
  edges := .empty
  inBounds := fun _ h => nomatch h

instance : Inhabited Graph := ⟨empty 0 0⟩

/-- The graph with one more edge, which has to lie inside the bounds. -/
def addEdge (g : Graph) (e : Edge) : Except Error Graph :=
  if hv : e.source < g.vertexCount ∧ e.target < g.vertexCount then
    if hl : e.label < g.labelCount then
      .ok { g with
        edges := g.edges.insert e
        inBounds := fun f hf => by
          rcases OrderedSet.mem_insert.1 hf with rfl | hf
          · exact ⟨hv, hl⟩
          · exact g.inBounds f hf }
    else .error (.argument (.labelOutside e.label g.labelCount))
  else .error (.argument (.edgeOutside e.source e.target g.vertexCount))

/-- How many edges there are. -/
def edgeCount (g : Graph) : Nat := g.edges.size

/-- The labels of the edges. -/
def usedLabels (g : Graph) : OrderedSet UInt32 := .ofList (g.edges.toList.map Edge.label)

end Graph

end PathQueryIndex
