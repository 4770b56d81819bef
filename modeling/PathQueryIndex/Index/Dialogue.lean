/-
Module: PathQueryIndex.Index.Dialogue
Layer: Index
Purpose: The construction of an index as a caller of a labeling pool. All that it wants to know of the
  pool are the forms of colored graphs, a window at a time; what it asks next depends on the answers so
  far. Between its questions it computes what the construction computes.
Imports: PathQueryIndex.Index
Main exports: Dialogue, Dialogue.run, CoreSet.absorbing, Builder.coring, Index.building
-/
import PathQueryIndex.Index

namespace PathQueryIndex

/-- A computation that asks for the forms of colored graphs, those of one window at once. -/
inductive Dialogue (α : Type) where
  | done (result : Except Error α)
  | ask (graphs : List ColoredGraph) (next : List CanonicalForm → Dialogue α)

namespace Dialogue

variable {α β : Type}

/-- Go on with a result, unless there is none. -/
def andThen (f : α → Dialogue β) : Dialogue α → Dialogue β
  | .done (.ok a) => f a
  | .done (.error e) => .done (.error e)
  | .ask graphs next => .ask graphs fun forms => (next forms).andThen f

instance : Monad Dialogue where
  pure a := .done (.ok a)
  bind x f := x.andThen f

/-- The result if every colored graph gets the given form; the first failure in the order of a window
    ends the dialogue. -/
def run (form : ColoredGraph → Except Error CanonicalForm) : Dialogue α → Except Error α
  | .done result => result
  | .ask graphs next => do (next (← graphs.mapM form)).run form

/-- The forms of windows of colored graphs, in order. -/
def forms : List (List ColoredGraph) → Dialogue (List CanonicalForm)
  | [] => pure []
  | graphs :: rest => do
    let first ← ask graphs pure
    let more ← forms rest
    return first ++ more

end Dialogue

namespace CoreSet

/-- The set with the cores of one batch of queries, asked for in windows of a given size. -/
def absorbingBatch (window : Nat) (set : CoreSet) (batch : List (Query × Pattern)) :
    Dialogue CoreSet := do
  let forms ← Dialogue.forms
    (chunks (window - 1) ((batch.map Prod.snd).map ColoredGraph.ofPattern))
  let set := { set with requests := set.requests + batch.length }
  return (batch.zip forms).foldl (fun set (item, form) => set.insert ⟨item.1, form.code⟩) set

/-- The set with the cores of some queries, in batches of the size of a window. -/
def absorbing (window : Nat) (set : CoreSet) (items : List (Query × Pattern)) : Dialogue CoreSet :=
  (chunks (window - 1) items).foldlM (absorbingBatch window) set

/-- The set closed under intersections. -/
def closing (window : Nat) (limit : Option Nat) (inherited : Nat) (set : CoreSet) :
    Dialogue CoreSet := do
  let base := set.cores.map Core.query
  let query := fun i => base.getD i .identity
  let conflicts := homomorphicConflicts (base.map Pattern.ofQuery) inherited
  let pairs := (pairings base.size inherited conflicts).map fun (i, j) =>
    (i, j, Folded.ofQuery (.intersect (query i) (query j)))
  let conflicts := pairs.foldl
    (fun cs (i, j, f) => if f.wasCore then cs else cs.modify i (j :: ·)) conflicts
  let set ← set.absorbing window (pairs.map fun (_, _, f) => (f.query, f.core))
  let limit := limit.getD base.size
  if limit < 3 then return set
  let larger := (subsetsOf base.size inherited limit conflicts).filterMap fun members =>
    (Query.intersectAll? (members.map query)).map Folded.ofQuery
  set.absorbing window (larger.map fun f => (f.query, f.core))

/-- The set with every core that is not inherited intersected with the identity. -/
def anchoring (window inherited : Nat) (set : CoreSet) : Dialogue CoreSet :=
  set.absorbing window ((set.cores.toList.drop inherited).map fun core =>
    let q := Query.intersect core.query .identity
    (q, canonicalPattern q false))

end CoreSet

namespace Builder

/-- The cores that a block starts from, and how many of them are inherited. -/
def basing (window : Nat) (b : Builder) (draft : Draft) : Dialogue (CoreSet × Nat) := do
  let set := CoreSet.empty b.requests
  if draft.joins.isEmpty then
    let paths := draft.block.labels.toList.map Query.path
    return (← set.absorbing window (paths.map fun q => (q, canonicalPattern q true)), 0)
  let coresOf := fun i => (b.drafts.getD i default).block.cores
  let set := (draft.inherited.toList.flatMap coresOf).foldl CoreSet.insert set
  let joined := draft.joins.toList.flatMap fun j =>
    (coresOf j.first).flatMap fun p => (coresOf j.second).map fun s => Query.concat p.query s.query
  return (← set.absorbing window (joined.map fun q => (q, canonicalPattern q false)),
    set.cores.size)

/-- All cores of a block. -/
def coring (window : Nat) (limit : Option Nat) (b : Builder) (draft : Draft) : Dialogue CoreSet := do
  let (set, inherited) ← b.basing window draft
  let set ← set.closing window limit inherited
  if draft.block.isLoop then set.anchoring window inherited else return set

/-- Compute the cores of a block. -/
def addingCores (window : Nat) (limit : Option Nat) (b : Builder) (number : Nat) :
    Dialogue Builder := do
  let draft := b.drafts.getD number default
  let set ← b.coring window limit draft
  let block := { draft.block with cores := set.cores.toList, coreHashes := set.hashes }
  return { b with
    drafts := b.drafts.setIfInBounds number { draft with block }
    requests := set.requests }

/-- Make the blocks of a layer, and their cores if they are wanted. -/
def addingLayer (window : Nat) (cores : Bool) (limit : Option Nat) (p : Partition) (b : Builder)
    (layer : Nat) : Dialogue Builder := do
  let first := b.drafts.size
  let runs := p.runsOf layer
  let b ← Dialogue.done (runs.foldlM (addBlock layer (layer + 1 == p.depth)) b)
  let owners := (runs.zipIdx first).flatMap fun (run, i) => List.replicate run.length i
  let b := { b with owners := b.owners.push owners.toArray }
  if cores then
    (List.range (b.drafts.size - first)).foldlM
      (fun b done => b.addingCores window limit (first + done)) b
  else return b

end Builder

namespace Index

/-- The index of a partition. -/
def assembling (p : Partition) (o : Options) : Dialogue Index := do
  Dialogue.done o.validate
  if p.depth = 0 then Dialogue.done (.error (.argument .noLayers))
  let builder ← (List.range p.depth).foldlM
    (Builder.addingLayer (canonicalizer o).window o.cores o.maxIntersections p) .empty
  let blocks := builder.finish
  return ⟨p.depth, blocks, o.cores, CoreTable.ofBlocks blocks⟩

/-- The index of a graph. -/
def building (g : Graph) (o : Options) : Dialogue Index := do
  Dialogue.done o.validate
  let p ← Dialogue.done (Partition.build g o.depth).result
  assembling p o

end Index

end PathQueryIndex
