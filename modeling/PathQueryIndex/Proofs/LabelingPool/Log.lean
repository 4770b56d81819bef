/-
Module: PathQueryIndex.Proofs.LabelingPool.Log
Layer: Proofs
Purpose: The log of a pool: what happened to its tickets, in order. Every step of a caller or a worker
  is one of ten acts, or a row of them, and each act is logged under the ticket that it is about.
Imports: PathQueryIndex.LabelingPool.Schedule, Mathlib.Algebra.Ring.Nat, Mathlib.Data.List.Nodup
Main exports: Pool.Event, Pool.Recorded, Pool.exists_log_of_run, Pool.Act, Pool.Acts,
  Pool.Recorded.acts
-/
import Mathlib.Algebra.Ring.Nat
import Mathlib.Data.List.Nodup
import PathQueryIndex.LabelingPool.Schedule

namespace PathQueryIndex

/-- A worker without a request. -/
def Worker.Idle (w : Worker) : Prop := ∀ ticket, w ≠ .holding ticket ∧ w ≠ .running ticket

namespace Pool

/-- What can happen: to a ticket, or to the pool as a whole when it is asked to stop. -/
inductive Event where
  | accepted (ticket : Nat) (request : LabelingRequest)
  | cancelled (ticket : Nat)
  | stopped
  | taken (ticket : Nat)
  | started (ticket : Nat)
  | labeled (ticket : Nat) (answer : Answer)
  | skipped (ticket : Nat)
  | dropped (ticket : Nat)
  | handedOut (ticket : Nat) (answer : Answer)

/-- An answer that an event puts on a ticket. -/
def Event.answer? : Event → Option (Nat × Answer)
  | .labeled ticket a => some (ticket, a)
  | .skipped ticket => some (ticket, .error .cancelled)
  | .dropped ticket => some (ticket, .error .shutDown)
  | _ => none

/-- The kinds of events that are counted. -/
inductive Mark where
  | taken
  | started
  | labeled
  | skipped
  | dropped
  | handedOut
deriving DecidableEq

/-- The kind of an event, with its ticket. -/
def Event.mark? : Event → Option (Mark × Nat)
  | .taken ticket => some (.taken, ticket)
  | .started ticket => some (.started, ticket)
  | .labeled ticket _ => some (.labeled, ticket)
  | .skipped ticket => some (.skipped, ticket)
  | .dropped ticket => some (.dropped, ticket)
  | .handedOut ticket _ => some (.handedOut, ticket)
  | _ => none

/-- The tickets with an event of some kind, in order. -/
def ticketsOf (m : Mark) (log : List Event) : List Nat :=
  log.filterMap fun e => e.mark?.bind fun x => if x.1 = m then some x.2 else none

/-- How often something happened to a ticket. -/
def times (m : Mark) (ticket : Nat) (log : List Event) : Nat := (ticketsOf m log).count ticket

/-- The answers that were put on tickets, in order. -/
def answersOf (log : List Event) : List (Nat × Answer) := log.filterMap Event.answer?

/-- How often an answer was put on a ticket. -/
def fills (ticket : Nat) (log : List Event) : Nat :=
  ((answersOf log).map Prod.fst).count ticket

/-- What a step adds to the log of a pool. -/
def events (p : Pool) : Move → List Event
  | .submit r => [.accepted p.tickets.size r]
  | .cancel ticket => if ticket < p.tickets.size then [.cancelled ticket] else []
  | .shutdown => [.stopped]
  | .check _ | .recheck _ => []
  | .poll _ => (p.queue.head?.map Event.taken).toList
  | .begin worker =>
    match p.workers[worker]? with
    | some (.holding ticket) =>
      if (p.tickets.getD ticket default).cancelled then [.skipped ticket] else [.started ticket]
    | _ => []
  | .finish worker a =>
    match p.workers[worker]? with
    | some (.running ticket) => [.labeled ticket a]
    | _ => []
  | .dropQueue => p.queue.map Event.dropped
  | .take ticket a => [.handedOut ticket a]

/-- A run together with its log. -/
inductive Recorded (labeler : Labeler) (start : Pool) : List Move → List Event → Pool → Prop where
  | start : Recorded labeler start [] [] start
  | step {moves : List Move} {log : List Event} {move : Move} {p q : Pool} :
      Recorded labeler start moves log p → Moves labeler p move q →
        Recorded labeler start (moves ++ [move]) (log ++ p.events move) q

/-- Every run has a log. -/
theorem exists_log_of_run {labeler : Labeler} {start p : Pool} {moves : List Move}
    (hrun : Run labeler start moves p) : ∃ log, Recorded labeler start moves log p := by
  induction hrun with
  | start => exact ⟨[], .start⟩
  | step _ hmove ih =>
      rcases ih with ⟨log, hrecorded⟩
      exact ⟨_, hrecorded.step hmove⟩

/-! The acts. -/

/-- What can happen in a pool at once, with the events of it. -/
inductive Act (labeler : Labeler) (p : Pool) : List Event → Pool → Prop where
  | idle {worker : Nat} {old new : Worker} : p.workers[worker]? = some old → old.Idle → new.Idle →
      (new = .exited → p.stopping = true) → Act labeler p [] (p.setWorker worker new)
  | accept {r : LabelingRequest} : p.stopping = false →
      Act labeler p [.accepted p.tickets.size r]
        { p with
          queue := p.queue ++ [p.tickets.size]
          tickets := p.tickets.push ⟨r, false, none⟩
          submitted := p.submitted + 1 }
  | cancel {ticket : Nat} : ticket < p.tickets.size →
      Act labeler p [.cancelled ticket] (p.cancel ticket)
  | stop : Act labeler p [.stopped] p.shutdown
  | take {worker ticket : Nat} {queue : List Nat} : p.workers[worker]? = some .polling →
      p.queue = ticket :: queue →
        Act labeler p [.taken ticket] ({ p with queue }.setWorker worker (.holding ticket))
  | start {worker ticket : Nat} : p.workers[worker]? = some (.holding ticket) →
      Act labeler p [.started ticket] (p.setWorker worker (.running ticket))
  | skip {worker ticket : Nat} : p.workers[worker]? = some (.holding ticket) →
      (p.tickets.getD ticket default).cancelled = true →
        Act labeler p [.skipped ticket]
          ({ p.answer ticket (.error .cancelled) with skipped := p.skipped + 1 }.setWorker worker
            .checking)
  | finish {worker ticket : Nat} {a : Answer} : p.workers[worker]? = some (.running ticket) →
      Answers labeler p ticket a →
        Act labeler p [.labeled ticket a]
          ({ p.answer ticket a with completed := p.completed + 1 }.setWorker worker .checking)
  | drop {ticket : Nat} {queue : List Nat} : (∀ w ∈ p.workers, w = .exited) →
      p.queue = ticket :: queue →
        Act labeler p [.dropped ticket] { p.answer ticket (.error .shutDown) with queue }
  | handOut {ticket : Nat} {a : Answer} : (p.tickets.getD ticket default).answer = some a →
      Act labeler p [.handedOut ticket a]
        { p with tickets := p.tickets.modify ticket fun t => { t with answer := none } }

/-- Acts one after the other, with the log of all of them. -/
inductive Acts (labeler : Labeler) (start : Pool) : List Event → Pool → Prop where
  | start : Acts labeler start [] start
  | act {log events : List Event} {p q : Pool} :
      Acts labeler start log p → Act labeler p events q → Acts labeler start (log ++ events) q

variable {labeler : Labeler} {start p q r : Pool} {log events more : List Event}

theorem Act.acts (hact : Act labeler p events q) : Acts labeler p events q := by
  simpa using Acts.start.act hact

theorem Acts.trans (hfirst : Acts labeler start log p) (hsecond : Acts labeler p more q) :
    Acts labeler start (log ++ more) q := by
  induction hsecond with
  | start => simpa using hfirst
  | act _ hact ih =>
      rw [← List.append_assoc]
      exact ih.act hact

/-- Answering tickets does not look at the queue. -/
theorem foldl_answer_queue (a : Answer) (tickets queue : List Nat) (p : Pool) :
    tickets.foldl (fun p ticket => p.answer ticket a) { p with queue } =
      { tickets.foldl (fun p ticket => p.answer ticket a) p with queue } := by
  induction tickets generalizing p with
  | nil => rfl
  | cons ticket tickets ih => exact ih (p.answer ticket a)

/-- Dropping the queue drops its tickets one by one. -/
theorem acts_drop (queue : List Nat) :
    ∀ p : Pool, (∀ w ∈ p.workers, w = .exited) → p.queue = queue →
      Acts labeler p (queue.map Event.dropped)
        { queue.foldl (fun p ticket => p.answer ticket (.error .shutDown)) p with queue := [] } := by
  induction queue with
  | nil =>
      intro p _ hempty
      have hsame : { p with queue := [] } = p := by simp [← hempty]
      simpa [hsame] using Acts.start
  | cons ticket queue ih =>
      intro p hgone hwaiting
      have hrest := ih { p.answer ticket (.error .shutDown) with queue } hgone rfl
      rw [foldl_answer_queue] at hrest
      exact (Act.drop hgone hwaiting).acts.trans hrest

theorem cancel_of_unknown {ticket : Nat} (hunknown : p.tickets.size ≤ ticket) :
    p.cancel ticket = p := by
  have hsame : (p.tickets.modify ticket fun t => { t with cancelled := true }) = p.tickets := by
    refine Array.ext_getElem? fun i => ?_
    rw [Array.getElem?_modify]
    split
    · rename_i heq
      simp [← heq, hunknown]
    · rfl
  simp only [Pool.cancel, hsame]

theorem acts_check {worker : Nat} (hstep : p.check? worker = some q) : Acts labeler p [] q := by
  unfold check? at hstep
  split at hstep
  · rename_i hworker
    cases hstep
    refine (Act.idle hworker ?_ ?_ ?_).acts
    · simp [Worker.Idle]
    · split <;> simp [Worker.Idle]
    · split <;> simp_all
  · cases hstep

theorem acts_recheck {worker : Nat} (hstep : p.recheck? worker = some q) : Acts labeler p [] q := by
  unfold recheck? at hstep
  split at hstep
  · rename_i hworker _
    split at hstep
    · cases hstep
    · cases hstep
      exact (Act.idle hworker (by simp [Worker.Idle]) (by simp [Worker.Idle]) (by simp)).acts
  · cases hstep

theorem acts_poll {worker : Nat} (hstep : p.poll? worker = some q) :
    Acts labeler p (p.events (.poll worker)) q := by
  unfold poll? at hstep
  split at hstep
  · rename_i hworker hwaiting
    cases hstep
    simpa [events, hwaiting] using (Act.take hworker hwaiting).acts
  · rename_i hworker hempty
    split at hstep
    · rename_i hstopping
      cases hstep
      simpa [events, hempty] using
        (Act.idle hworker (by simp [Worker.Idle]) (by simp [Worker.Idle]) fun _ => hstopping).acts
    · cases hstep
  · cases hstep

theorem acts_begin {worker : Nat} (hstep : p.begin? worker = some q) :
    Acts labeler p (p.events (.begin worker)) q := by
  unfold begin? at hstep
  split at hstep
  · rename_i hworker
    split at hstep
    · rename_i hcancelled
      cases hstep
      simp only [events, hworker, hcancelled, if_true]
      exact (Act.skip hworker hcancelled).acts
    · rename_i hwanted
      cases hstep
      simp only [events, hworker, hwanted]
      exact (Act.start hworker).acts
  · cases hstep

theorem Moves.acts {move : Move} (hstep : Moves labeler p move q) :
    Acts labeler p (p.events move) q := by
  cases hstep with
  | submit hroom haccepted =>
      simp only [Pool.submit] at haccepted
      split at haccepted
      · cases haccepted
      · rename_i hopen
        cases haccepted
        exact (Act.accept (by simpa using hopen)).acts
  | @cancel ticket =>
      by_cases hknown : ticket < p.tickets.size
      · simpa [events, hknown] using (Act.cancel hknown).acts
      · simpa [events, hknown, cancel_of_unknown (Nat.le_of_not_lt hknown)] using Acts.start
  | shutdown => exact Act.stop.acts
  | check hchecked => exact acts_check hchecked
  | recheck hchecked => exact acts_recheck hchecked
  | poll hpolled => exact acts_poll hpolled
  | begin hbegun => exact acts_begin hbegun
  | finish hrunning hanswers hfinished =>
      simp only [finish?, hrunning, Option.some.injEq] at hfinished
      subst hfinished
      simp only [events, hrunning]
      exact (Act.finish hrunning hanswers).acts
  | dropQueue hdropped =>
      unfold dropQueue? at hdropped
      split at hdropped
      · rename_i hgone
        cases hdropped
        rw [Array.all_eq_true_iff_forall_mem] at hgone
        exact acts_drop p.queue p (by simpa using hgone) rfl
      · cases hdropped
  | take htaken =>
      simp only [take?, Option.map_eq_some_iff, Prod.mk.injEq] at htaken
      rcases htaken with ⟨a, hfound, rfl, rfl⟩
      exact (Act.handOut hfound).acts

/-- A run is a row of acts with the same log. -/
theorem Recorded.acts {moves : List Move} (hrun : Recorded labeler start moves log p) :
    Acts labeler start log p := by
  induction hrun with
  | start => exact .start
  | step _ hstep ih => exact ih.trans hstep.acts

end Pool

end PathQueryIndex
