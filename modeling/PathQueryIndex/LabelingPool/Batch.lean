/-
Module: PathQueryIndex.LabelingPool.Batch
Layer: Canonicalization
Purpose: Canonicalization as a caller of a labeling pool. One query is one request, whose answer is taken at
  once; a batch of queries, or of graphs that are folded already, is cut into windows of what the queue of the
  pool has room for.
Imports: PathQueryIndex.LabelingPool.Session
Main exports: Labeler.ofFunction, Canonicalizer.formBy, Dialogue.canonicalizing, Dialogue.canonicalizingAll,
  Dialogue.canonicalizingCores, Session.Settles
-/
import PathQueryIndex.LabelingPool.Session

namespace PathQueryIndex

/-- A labeler whose answer depends on nothing but the request. -/
def Labeler.ofFunction (order : LabelingRequest → Answer) : Labeler := ⟨fun _ r => .answered (order r)⟩

/-- The form that a colored graph has in the order that a function gives it. -/
def Canonicalizer.formBy (order : LabelingRequest → Answer) (g : ColoredGraph) :
    Except Error CanonicalForm := do
  CanonicalForm.ofOrder g (← order (request g))

namespace Dialogue

/-- The form of a colored graph, asked for on its own. -/
def resolving (g : ColoredGraph) : Dialogue (List CanonicalForm) := ask [g] pure

/-- The forms of some colored graphs, asked for in windows that are cut by the number of workers. -/
def resolvingAll (workers : Nat) (graphs : List ColoredGraph) : Dialogue (List CanonicalForm) :=
  forms (chunks (workers * queuePerWorker - 1) graphs)

/-- The form of a query. -/
def canonicalizing (q : Query) (isCore : Bool) : Dialogue (List CanonicalForm) :=
  resolving (.ofPattern (canonicalPattern q isCore))

/-- The forms of a batch of queries. -/
def canonicalizingAll (workers : Nat) (queries : List Query) (isCore : Bool) :
    Dialogue (List CanonicalForm) :=
  resolvingAll workers (queries.map fun q => .ofPattern (canonicalPattern q isCore))

/-- The forms of a batch of patterns that are not folded any more. -/
def canonicalizingCores (workers : Nat) (cores : List Pattern) : Dialogue (List CanonicalForm) :=
  resolvingAll workers (cores.map ColoredGraph.ofPattern)

end Dialogue

/-- Whatever steps the caller of a dialogue and the workers of its pool have taken, the dialogue can still be
    brought to its end, and at its end its result is as described. -/
def Session.Settles {α : Type} (labeler : Labeler) (p : Pool) (d : Dialogue α)
    (result : Except Error α → Prop) : Prop :=
  ∀ s, Reaches labeler ⟨.start d, p⟩ s →
    s.CanFinish labeler ∧ ∀ r, s.caller = .finished r → result r

end PathQueryIndex
