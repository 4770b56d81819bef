/-
Module: PathQueryIndex.LabelingPool
Layer: Canonicalization
Purpose: Workers that answer labeling requests from one bounded queue. A request that was accepted has a
  ticket, through which it is cancelled and its answer is taken, once. A worker looks whether the pool is
  stopping, waits for the head of the queue and takes it, and then either skips it, if it was cancelled
  meanwhile, or runs it to its answer; if nothing comes for a while it looks again. Once the pool is
  stopping nothing is accepted any more, and what is still queued when the last worker has left is
  answered by the shutdown. The steps are those of any schedule; `advance` takes them as soon as they
  can be taken.
Imports: PathQueryIndex.Canonicalizer
Main exports: Ticket, Worker, Pool, Pool.bounded, Pool.start, Pool.submit, Pool.cancel, Pool.shutdown,
  Pool.check?, Pool.recheck?, Pool.poll?, Pool.begin?, Pool.finish?, Pool.dropQueue?, Pool.take?,
  Pool.advance, Pool.await
-/
import PathQueryIndex.Canonicalizer

namespace PathQueryIndex

/-- An answer to a labeling request. -/
abbrev Answer := Except Error (List Nat)

/-- An accepted request: whether it was cancelled, and its answer until it is taken. -/
structure Ticket where
  request : LabelingRequest
  cancelled : Bool
  answer : Option Answer

instance : Inhabited Ticket := ⟨⟨default, false, none⟩⟩

/-- What a worker is at: looking whether to go on, waiting for a request, holding one that it has taken,
    running it, or gone. -/
inductive Worker where
  | checking
  | polling
  | holding (ticket : Nat)
  | running (ticket : Nat)
  | exited
deriving DecidableEq, Repr, Inhabited

/-- A pool at some moment. Tickets are numbered in the order in which they were accepted. -/
structure Pool where
  workers : Array Worker
  queueLimit : Nat
  queue : List Nat
  tickets : Array Ticket
  stopping : Bool
  submitted : Nat
  completed : Nat
  skipped : Nat

namespace Pool

/-- A pool with some workers and room for some requests; there has to be a worker, and there always is
    room for one request. -/
def bounded (workers room : Nat) : Except Error Pool :=
  if workers = 0 then .error (.argument .workers)
  else .ok
    { workers := Array.replicate workers .checking
      queueLimit := max room 1
      queue := []
      tickets := #[]
      stopping := false
      submitted := 0
      completed := 0
      skipped := 0 }

/-- A pool with some workers and room for as many requests as they are given each. -/
def start (workers : Nat) : Except Error Pool := bounded workers (workers * queuePerWorker)

/-- Accept a request and give it a number. -/
def submit (p : Pool) (r : LabelingRequest) : Except Error (Nat × Pool) :=
  if p.stopping then .error .shutDown
  else
    let number := p.tickets.size
    .ok (number,
      { p with
        queue := p.queue ++ [number]
        tickets := p.tickets.push ⟨r, false, none⟩
        submitted := p.submitted + 1 })

/-- Ask for a request to be given up. -/
def cancel (p : Pool) (ticket : Nat) : Pool :=
  { p with tickets := p.tickets.modify ticket fun t => { t with cancelled := true } }

/-- Accept nothing any more and let the workers leave. -/
def shutdown (p : Pool) : Pool := { p with stopping := true }

/-- Put an answer on a ticket. -/
def answer (p : Pool) (ticket : Nat) (a : Answer) : Pool :=
  { p with tickets := p.tickets.modify ticket fun t => { t with answer := some a } }

/-- Let a worker be at something else. -/
def setWorker (p : Pool) (worker : Nat) (w : Worker) : Pool :=
  { p with workers := p.workers.setIfInBounds worker w }

/-- A worker looks whether the pool is stopping: it leaves, or it waits for a request. -/
def check? (p : Pool) (worker : Nat) : Option Pool :=
  match p.workers[worker]? with
  | some .checking => some (p.setWorker worker (if p.stopping then .exited else .polling))
  | _ => none

/-- A worker that has waited for a while with nothing queued looks again whether the pool is
    stopping. -/
def recheck? (p : Pool) (worker : Nat) : Option Pool :=
  match p.workers[worker]?, p.queue with
  | some .polling, [] => if p.stopping then none else some (p.setWorker worker .checking)
  | _, _ => none

/-- A waiting worker takes the head of the queue. With nothing queued it leaves a pool that is
    stopping. -/
def poll? (p : Pool) (worker : Nat) : Option Pool :=
  match p.workers[worker]?, p.queue with
  | some .polling, ticket :: queue => some ({ p with queue }.setWorker worker (.holding ticket))
  | some .polling, [] => if p.stopping then some (p.setWorker worker .exited) else none
  | _, _ => none

/-- A worker looks at the request that it holds: it skips a cancelled one and runs any other. -/
def begin? (p : Pool) (worker : Nat) : Option Pool :=
  match p.workers[worker]? with
  | some (.holding ticket) =>
    if (p.tickets.getD ticket default).cancelled then
      let p := p.answer ticket (.error .cancelled)
      some ({ p with skipped := p.skipped + 1 }.setWorker worker .checking)
    else some (p.setWorker worker (.running ticket))
  | _ => none

/-- A worker stores the answer to the request that it runs. -/
def finish? (p : Pool) (worker : Nat) (a : Answer) : Option Pool :=
  match p.workers[worker]? with
  | some (.running ticket) =>
    let p := p.answer ticket a
    some ({ p with completed := p.completed + 1 }.setWorker worker .checking)
  | _ => none

/-- When all workers are gone, whatever is still queued is answered by the shutdown. -/
def dropQueue? (p : Pool) : Option Pool :=
  if p.workers.all (· == .exited) then
    some { p.queue.foldl (fun p ticket => p.answer ticket (.error .shutDown)) p with queue := [] }
  else none

/-- Take the answer from a ticket, if there is one. -/
def take? (p : Pool) (ticket : Nat) : Option (Answer × Pool) :=
  (p.tickets.getD ticket default).answer.map fun a =>
    (a, { p with tickets := p.tickets.modify ticket fun t => { t with answer := none } })

/-- What a labeler has for a ticket: its answer, or the cancellation of a request that it goes on
    with. -/
def ready? (labeler : Labeler) (p : Pool) (ticket : Nat) : Option Answer :=
  let t := p.tickets.getD ticket default
  match labeler.reply ticket t.request with
  | .answered a => some a
  | .stalled => if t.cancelled then some (.error .cancelled) else none

/-- The next step of a worker, unless it has to wait. -/
def step? (labeler : Labeler) (p : Pool) (worker : Nat) : Option Pool :=
  match p.workers[worker]? with
  | some .checking => p.check? worker
  | some .polling => p.poll? worker
  | some (.holding _) => p.begin? worker
  | some (.running ticket) => (ready? labeler p ticket).bind (p.finish? worker)
  | _ => none

/-- Take up to `n` steps, always of the first worker that has one. -/
def steps (labeler : Labeler) : Nat → Pool → Pool
  | 0, p => p
  | n + 1, p =>
    match (List.range p.workers.size).findSome? (step? labeler p) with
    | some next => steps labeler n next
    | none => p

/-- Take every step that can be taken. A request takes four steps at most, and a worker two more. -/
def advance (labeler : Labeler) (p : Pool) : Pool :=
  let p := steps labeler (4 * p.queue.length + 6 * p.workers.size) p
  (dropQueue? p).getD p

/-- Wait for an answer; the wait ends without one after the given time. -/
def await (labeler : Labeler) (timeout : Option Nat) (p : Pool) (ticket : Nat) : Answer × Pool :=
  let p := advance labeler p
  match p.take? ticket, timeout with
  | some (a, p), _ => (a, p)
  | none, some milliseconds => (.error (.timeout milliseconds), p)
  | none, none => (.error .cancelled, p)

end Pool

end PathQueryIndex
