/-
Module: PathQueryIndex.LabelingPool.Session
Layer: Canonicalization
Purpose: A dialogue with a pool, step by step. The caller submits a whole window and waits while the queue
  is full; then it takes the answers in the order of submission. The first failure ends the dialogue:
  what has not been taken of the window is cancelled. The workers take their steps in between, in any
  order.
Imports: PathQueryIndex.LabelingPool.Schedule, PathQueryIndex.Index.Dialogue, Mathlib.Logic.Relation
Main exports: Caller, Caller.start, Session, Session.Step, Session.Reaches, Session.CanFinish
-/
import PathQueryIndex.LabelingPool.Schedule
import PathQueryIndex.Index.Dialogue
import Mathlib.Logic.Relation

namespace PathQueryIndex

/-- What the caller of a pool is at. A request that is under way is a colored graph with its ticket. -/
inductive Caller (α : Type) where
  | submitting (pending : List (ColoredGraph × Nat)) (rest : List ColoredGraph)
      (next : List CanonicalForm → Dialogue α)
  | taking (pending : List (ColoredGraph × Nat)) (forms : List CanonicalForm)
      (next : List CanonicalForm → Dialogue α)
  | cancelling (tickets : List Nat) (e : Error)
  | finished (result : Except Error α)

namespace Caller

variable {α : Type}

/-- Begin a dialogue, or go on with it. -/
def start : Dialogue α → Caller α
  | .done result => .finished result
  | .ask graphs next => .submitting [] graphs next

/-- Give up what is under way. -/
def giveUp (pending : List (ColoredGraph × Nat)) (e : Error) : Caller α :=
  .cancelling (pending.map Prod.snd) e

/-- Go on with the answer to the first request that is under way. -/
def receive (g : ColoredGraph) (pending : List (ColoredGraph × Nat)) (forms : List CanonicalForm)
    (next : List CanonicalForm → Dialogue α) (a : Answer) : Caller α :=
  match a >>= CanonicalForm.ofOrder g with
  | .ok form => .taking pending (forms ++ [form]) next
  | .error e => giveUp pending e

end Caller

/-- The steps of a pool that are not steps of its caller. -/
def Pool.Move.Own : Pool.Move → Prop
  | .check _ | .recheck _ | .poll _ | .begin _ | .finish _ _ | .dropQueue => True
  | _ => False

/-- A caller and its pool. -/
structure Session (α : Type) where
  caller : Caller α
  pool : Pool

namespace Session

variable {α : Type}

/-- One step of the caller or of the pool. -/
inductive Step (labeler : Labeler) : Session α → Session α → Prop where
  | pool {caller : Caller α} {move : Pool.Move} {p q : Pool} :
      move.Own → Pool.Moves labeler p move q → Step labeler ⟨caller, p⟩ ⟨caller, q⟩
  | submit {pending : List (ColoredGraph × Nat)} {g : ColoredGraph} {rest : List ColoredGraph}
      {next : List CanonicalForm → Dialogue α} {p q : Pool} :
      Pool.Moves labeler p (.submit (Canonicalizer.request g)) q →
        Step labeler ⟨.submitting pending (g :: rest) next, p⟩
          ⟨.submitting (pending ++ [(g, p.tickets.size)]) rest next, q⟩
  | refused {pending : List (ColoredGraph × Nat)} {g : ColoredGraph} {rest : List ColoredGraph}
      {next : List CanonicalForm → Dialogue α} {p : Pool} {e : Error} :
      p.submit (Canonicalizer.request g) = .error e →
        Step labeler ⟨.submitting pending (g :: rest) next, p⟩ ⟨.giveUp pending e, p⟩
  | submitted {pending : List (ColoredGraph × Nat)} {next : List CanonicalForm → Dialogue α}
      {p : Pool} :
      Step labeler ⟨.submitting pending [] next, p⟩ ⟨.taking pending [] next, p⟩
  | take {g : ColoredGraph} {ticket : Nat} {pending : List (ColoredGraph × Nat)}
      {forms : List CanonicalForm} {next : List CanonicalForm → Dialogue α} {a : Answer}
      {p q : Pool} :
      Pool.Moves labeler p (.take ticket a) q →
        Step labeler ⟨.taking ((g, ticket) :: pending) forms next, p⟩
          ⟨.receive g pending forms next a, q⟩
  | taken {forms : List CanonicalForm} {next : List CanonicalForm → Dialogue α} {p : Pool} :
      Step labeler ⟨.taking [] forms next, p⟩ ⟨.start (next forms), p⟩
  | cancel {ticket : Nat} {tickets : List Nat} {e : Error} {p : Pool} :
      Step labeler ⟨.cancelling (ticket :: tickets) e, p⟩
        ⟨.cancelling tickets e, p.cancel ticket⟩
  | cancelled {e : Error} {p : Pool} :
      Step labeler ⟨.cancelling [] e, p⟩ ⟨.finished (.error e), p⟩

/-- Any number of steps. -/
abbrev Reaches (labeler : Labeler) : Session α → Session α → Prop :=
  Relation.ReflTransGen (Step labeler)

/-- Some steps lead to the end of a session. -/
def CanFinish (labeler : Labeler) (s : Session α) : Prop :=
  ∃ s' r, Reaches labeler s s' ∧ s'.caller = .finished r

end Session

end PathQueryIndex
