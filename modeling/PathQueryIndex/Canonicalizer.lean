/-
Module: PathQueryIndex.Canonicalizer
Layer: Canonicalization
Purpose: Canonical forms of queries. The pattern of a query is folded to its core, colored, and handed to
  a labeler; the order that comes back, if it is one, numbers the form. Many patterns are handed over
  in windows: a whole window is submitted before its first answer is taken, and the first failure in
  the order of submission ends the batch.
Imports: PathQueryIndex.Pattern.Core, PathQueryIndex.CanonicalForm
Main exports: Reply, Labeler, Labeler.refinement, Canonicalizer, Canonicalizer.resolve,
  Canonicalizer.resolveAll, canonicalPattern, canonicalForm
-/
import PathQueryIndex.Pattern.Core
import PathQueryIndex.CanonicalForm

namespace PathQueryIndex

/-- What a labeler does with a request: it answers, or it goes on until it is cancelled. -/
inductive Reply where
  | answered (order : Except Error (List Nat))
  | stalled

/-- A source of orders. Requests are numbered in the order in which they are submitted. -/
structure Labeler where
  reply : Nat → LabelingRequest → Reply

/-- The labeler that searches for the canonical order. -/
def Labeler.refinement : Labeler := ⟨fun _ r => .answered (canonicalOrder r false)⟩

/-- How many requests may wait for each worker of a pool. -/
def queuePerWorker : Nat := 256

/-- The pieces of a list of at most `n + 1` elements each. -/
def chunks {α : Type} (n : Nat) : List α → List (List α)
  | [] => []
  | x :: xs => (x :: xs.take n) :: chunks n (xs.drop n)
termination_by xs => xs.length
decreasing_by simp only [List.length_drop, List.length_cons]; omega

/-- A labeler, the number of its workers, and the longest wait for an answer in milliseconds. -/
structure Canonicalizer where
  labeler : Labeler
  workers : Nat
  timeout : Option Nat

namespace Canonicalizer

/-- The labeler that searches for the canonical order, on some workers. -/
def ofWorkers (workers : Nat) (timeout : Option Nat) : Canonicalizer :=
  ⟨.refinement, workers, timeout⟩

/-- How many requests are under way at most. -/
def window (c : Canonicalizer) : Nat := c.workers * queuePerWorker

/-- The request for the order of a colored graph. -/
def request (g : ColoredGraph) : LabelingRequest := ⟨g.rows, g.coding⟩

/-- The form of a colored graph, submitted with the given number. -/
def resolve (c : Canonicalizer) (number : Nat) (g : ColoredGraph) : Except Error CanonicalForm := do
  let order ← match c.labeler.reply number (request g), c.timeout with
    | .answered order, _ => order
    | .stalled, some milliseconds => .error (.timeout milliseconds)
    | .stalled, none => .error .cancelled
  CanonicalForm.ofOrder g order

/-- The forms of one window of colored graphs, in order. -/
def resolveWindow (c : Canonicalizer) (number : Nat) (graphs : List ColoredGraph) :
    Except Error (List CanonicalForm) :=
  (graphs.zipIdx number).mapM fun (g, i) => c.resolve i g

/-- The forms of windows of colored graphs, the first of which gets the given number. -/
def resolveWindows (c : Canonicalizer) (number : Nat) :
    List (List ColoredGraph) → Except Error (List CanonicalForm)
  | [] => .ok []
  | graphs :: rest => do
    let forms ← c.resolveWindow number graphs
    let more ← c.resolveWindows (number + graphs.length) rest
    return forms ++ more

/-- The forms of some patterns, which are not folded any more. -/
def resolveAll (c : Canonicalizer) (number : Nat) (patterns : List Pattern) :
    Except Error (List CanonicalForm) :=
  c.resolveWindows number (chunks (c.window - 1) (patterns.map ColoredGraph.ofPattern))

end Canonicalizer

/-- The pattern that stands for a query: folded to its core, unless it is known to be one. -/
def canonicalPattern (q : Query) (isCore : Bool) : Pattern :=
  if isCore then .ofQuery q else (Pattern.ofQuery q).core

/-- The canonical form of a query. -/
def canonicalForm (q : Query) (isCore : Bool) : Except Error CanonicalForm :=
  let g := ColoredGraph.ofPattern (canonicalPattern q isCore)
  do CanonicalForm.ofOrder g (← canonicalOrder (Canonicalizer.request g) false)

end PathQueryIndex
