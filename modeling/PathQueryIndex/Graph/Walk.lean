/-
Module: PathQueryIndex.Graph.Walk
Layer: Core
Purpose: Walks through a graph. A label is a step along an edge or against it, and a walk spells the
  labels of its steps. Walks compose, and a walk taken backwards spells the inverse labels in reverse.
Imports: PathQueryIndex.Graph
Main exports: flipAll, LabelSequence.reverse, Graph.Step, Graph.Walk, Graph.step_flip, Graph.walk_append,
  Graph.walk_flipAll
-/
import PathQueryIndex.Graph

namespace PathQueryIndex

/-- The labels of a walk that is taken backwards. -/
def flipAll (labels : List Label) : List Label := (labels.map Label.flip).reverse

@[simp] theorem flipAll_flipAll (labels : List Label) : flipAll (flipAll labels) = labels := by
  simp [flipAll, List.map_reverse, Function.comp_def]

/-- The sequence of the same walks taken backwards. -/
def LabelSequence.reverse (s : LabelSequence) : LabelSequence :=
  ⟨flipAll s.labels, by simp [flipAll, s.nonempty]⟩

namespace Graph

variable {g : Graph} {u v w : Vertex} {l : Label} {ls ms : List Label}

/-- Whether a label leads from `u` to `v`: forwards along an edge, or backwards against one. -/
def Step (g : Graph) (l : Label) (u v : Vertex) : Prop :=
  (if l.inverse then ⟨v, u, l.id⟩ else ⟨u, v, l.id⟩ : Edge) ∈ g.edges

theorem step_forward {id : UInt32} : g.Step (.forward id) u v ↔ (⟨u, v, id⟩ : Edge) ∈ g.edges :=
  Iff.rfl

theorem step_backward {id : UInt32} : g.Step (.backward id) u v ↔ (⟨v, u, id⟩ : Edge) ∈ g.edges :=
  Iff.rfl

theorem step_flip : g.Step l.flip u v ↔ g.Step l v u := by
  cases l with
  | mk id inverse => cases inverse <;> rfl

/-- A walk spells labels on its way from one vertex to another. -/
inductive Walk (g : Graph) : Vertex → List Label → Vertex → Prop where
  | stay (u : Vertex) : Walk g u [] u
  | step {u v w : Vertex} {l : Label} {ls : List Label} :
      g.Step l u v → Walk g v ls w → Walk g u (l :: ls) w

@[simp] theorem walk_nil : g.Walk u [] v ↔ u = v := by
  constructor
  · intro h; cases h; rfl
  · rintro rfl; exact .stay u

theorem walk_cons : g.Walk u (l :: ls) w ↔ ∃ v, g.Step l u v ∧ g.Walk v ls w := by
  constructor
  · intro h; cases h with | step hs hw => exact ⟨_, hs, hw⟩
  · rintro ⟨v, hs, hw⟩; exact .step hs hw

@[simp] theorem walk_singleton : g.Walk u [l] v ↔ g.Step l u v := by simp [walk_cons]

/-- A walk that spells two sequences passes a vertex between them. -/
theorem walk_append : g.Walk u (ls ++ ms) w ↔ ∃ v, g.Walk u ls v ∧ g.Walk v ms w := by
  induction ls generalizing u with
  | nil => simp
  | cons l ls ih =>
    simp only [List.cons_append, walk_cons, ih]
    constructor
    · rintro ⟨x, hs, v, hl, hm⟩; exact ⟨v, ⟨x, hs, hl⟩, hm⟩
    · rintro ⟨v, ⟨x, hs, hl⟩, hm⟩; exact ⟨x, hs, v, hl, hm⟩

theorem Walk.reverse (h : g.Walk u ls v) : g.Walk v (flipAll ls) u := by
  induction h with
  | stay u => exact .stay u
  | step hs _ ih =>
    simp only [flipAll, List.map_cons, List.reverse_cons] at ih ⊢
    exact walk_append.2 ⟨_, ih, walk_singleton.2 (step_flip.2 hs)⟩

/-- Turning back reverses the sequence of a walk and inverts its labels. -/
theorem walk_flipAll : g.Walk v (flipAll ls) u ↔ g.Walk u ls v :=
  ⟨fun h => by simpa using h.reverse, .reverse⟩

end Graph

end PathQueryIndex
