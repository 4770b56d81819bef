/-
Module: PathQueryIndex.LabelingPool.Schedule
Layer: Canonicalization
Purpose: What a pool can do under any schedule. A run is a sequence of steps of its callers and of its
  workers in any order; whenever a worker ends a labeling, the answer is that of the labeler on the
  request of that very ticket, or the cancellation of a request that was cancelled.
Imports: PathQueryIndex.LabelingPool
Main exports: Pool.Move, Pool.Answers, Pool.Moves, Pool.Run, Pool.Reachable
-/
import PathQueryIndex.LabelingPool

namespace PathQueryIndex

/-- The steps of callers and workers. -/
inductive Pool.Move where
  | submit (request : LabelingRequest)
  | cancel (ticket : Nat)
  | shutdown
  | check (worker : Nat)
  | recheck (worker : Nat)
  | poll (worker : Nat)
  | begin (worker : Nat)
  | finish (worker : Nat) (answer : Answer)
  | dropQueue
  | take (ticket : Nat) (answer : Answer)

namespace Pool

/-- What a labeler may answer to a ticket: its own answer, or, once the ticket is cancelled, that the
    request was given up. -/
def Answers (labeler : Labeler) (p : Pool) (ticket : Nat) (a : Answer) : Prop :=
  labeler.reply ticket (p.tickets.getD ticket default).request = .answered a ∨
    ((p.tickets.getD ticket default).cancelled = true ∧ a = .error .cancelled)

/-- Whether a step leads from one state to another. A request is accepted only while the queue has
    room, and a caller takes only what is there. -/
inductive Moves (labeler : Labeler) : Pool → Move → Pool → Prop where
  | submit {p q : Pool} {r : LabelingRequest} {ticket : Nat} :
      p.queue.length < p.queueLimit → p.submit r = .ok (ticket, q) → Moves labeler p (.submit r) q
  | cancel {p : Pool} {ticket : Nat} : Moves labeler p (.cancel ticket) (p.cancel ticket)
  | shutdown {p : Pool} : Moves labeler p .shutdown p.shutdown
  | check {p q : Pool} {worker : Nat} :
      p.check? worker = some q → Moves labeler p (.check worker) q
  | recheck {p q : Pool} {worker : Nat} :
      p.recheck? worker = some q → Moves labeler p (.recheck worker) q
  | poll {p q : Pool} {worker : Nat} : p.poll? worker = some q → Moves labeler p (.poll worker) q
  | begin {p q : Pool} {worker : Nat} : p.begin? worker = some q → Moves labeler p (.begin worker) q
  | finish {p q : Pool} {worker ticket : Nat} {a : Answer} :
      p.workers[worker]? = some (.running ticket) → Answers labeler p ticket a →
        p.finish? worker a = some q → Moves labeler p (.finish worker a) q
  | dropQueue {p q : Pool} : p.dropQueue? = some q → Moves labeler p .dropQueue q
  | take {p q : Pool} {ticket : Nat} {a : Answer} :
      p.take? ticket = some (a, q) → Moves labeler p (.take ticket a) q

/-- Steps one after the other. -/
inductive Run (labeler : Labeler) (start : Pool) : List Move → Pool → Prop where
  | start : Run labeler start [] start
  | step {moves : List Move} {move : Move} {p q : Pool} :
      Run labeler start moves p → Moves labeler p move q → Run labeler start (moves ++ [move]) q

/-- A pool that can come about from a fresh one with some workers and room for some requests. -/
def Reachable (labeler : Labeler) (workers room : Nat) (moves : List Move) (p : Pool) : Prop :=
  ∃ fresh, Pool.bounded workers room = .ok fresh ∧ Run labeler fresh moves p

end Pool

end PathQueryIndex
