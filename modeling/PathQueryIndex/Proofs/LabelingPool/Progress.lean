/-
Module: PathQueryIndex.Proofs.LabelingPool.Progress
Layer: Proofs
Purpose: A dialogue with a pool can always be finished. As long as something is queued or with a worker
  some worker has a step that brings it forward, and when nothing is, the queue has room and every answer
  that the caller waits for is there. With what a session is to come to, this makes the index of a graph
  the same for all numbers of workers and all schedules.
Imports: PathQueryIndex.Proofs.LabelingPool.Session, PathQueryIndex.Proofs.Index.Blocks
Main exports: Pool.load, Pool.exists_step_of_busy, Session.exists_idle, Session.finishes_of_sound,
  Index.build_independent_of_threads
-/
import PathQueryIndex.Proofs.LabelingPool.Session
import PathQueryIndex.Proofs.Index.Blocks

namespace PathQueryIndex

/-! ### The pool works its queue off -/

/-- How many steps a worker is away from waiting for a request. -/
def Worker.load : Worker → Nat
  | .checking => 1
  | .holding _ => 3
  | .running _ => 2
  | .polling | .exited => 0

namespace Pool

/-- How many steps the workers are away from waiting at an empty queue. -/
def load (p : Pool) : Nat := 4 * p.queue.length + (p.workers.toList.map Worker.load).sum

/-- Nothing is queued, and no worker has a request. -/
structure Idle (p : Pool) : Prop where
  empty : p.queue = []
  idle : ∀ w ∈ p.workers, w.Idle

variable {labeler : Labeler} {p q : Pool} {log : List Event} {worker ticket : Nat} {old : Worker}

theorem sum_load_set {workers : List Worker} {i : Nat} (hworker : workers[i]? = some old)
    (new : Worker) :
    ((workers.set i new).map Worker.load).sum + old.load =
      (workers.map Worker.load).sum + new.load := by
  induction workers generalizing i with
  | nil => cases hworker
  | cons w workers ih =>
      cases i with
      | zero =>
          cases hworker
          simp only [List.set_cons_zero, List.map_cons, List.sum_cons]
          omega
      | succ i =>
          have hrest := ih hworker
          simp only [List.set_cons_succ, List.map_cons, List.sum_cons]
          omega

/-- What a worker does next changes the load by its own. -/
theorem load_setWorker (hworker : p.workers[worker]? = some old) (new : Worker) :
    (p.setWorker worker new).load + old.load = p.load + new.load := by
  have hlisted : p.workers.toList[worker]? = some old := by simpa using hworker
  have hmoved := sum_load_set hlisted new
  simp only [load, setWorker_queue, setWorker_workers, Array.toList_setIfInBounds]
  omega

/-- A worker that has a request, or that is there while something is queued, has a step that brings the
    pool forward, if the labeler answers. -/
theorem exists_step_of_busy (hanswers : ∀ t r, ∃ a, labeler.reply t r = .answered a)
    (hrunning : p.stopping = false) (hworker : p.workers[worker]? = some old) (hstays : old ≠ .exited)
    (hbusy : old.Idle → p.queue ≠ []) :
    ∃ move q, move.Own ∧ Moves labeler p move q ∧ q.load < p.load := by
  cases old with
  | checking =>
      have hchecked : p.check? worker = some (p.setWorker worker .polling) := by
        simp [check?, hworker, hrunning]
      have hload := load_setWorker hworker .polling
      exact ⟨.check worker, _, trivial, .check hchecked, by simp only [Worker.load] at hload; omega⟩
  | polling =>
      rcases hwaiting : p.queue with _ | ⟨ticket, queue⟩
      · exact absurd hwaiting (hbusy fun _ => by simp)
      · have hpolled : p.poll? worker =
            some ({ p with queue }.setWorker worker (.holding ticket)) := by
          simp [poll?, hworker, hwaiting]
        have hload := load_setWorker (p := { p with queue }) hworker (.holding ticket)
        have hshorter : p.load = { p with queue }.load + 4 := by
          simp only [Pool.load, hwaiting, List.length_cons]
          omega
        exact ⟨.poll worker, _, trivial, .poll hpolled, by simp only [Worker.load] at hload; omega⟩
  | holding ticket =>
      by_cases hcancelled : (p.tickets.getD ticket default).cancelled = true
      · let skipped : Pool := { p.answer ticket (.error .cancelled) with skipped := p.skipped + 1 }
        have hbegun : p.begin? worker = some (skipped.setWorker worker .checking) := by
          simp only [begin?, hworker, hcancelled]
          rfl
        have hload := load_setWorker (p := skipped) hworker .checking
        have hsame : skipped.load = p.load := rfl
        exact ⟨.begin worker, _, trivial, .begin hbegun, by simp only [Worker.load] at hload; omega⟩
      · have hbegun : p.begin? worker = some (p.setWorker worker (.running ticket)) := by
          simp only [begin?, hworker, hcancelled]
          rfl
        have hload := load_setWorker hworker (.running ticket)
        exact ⟨.begin worker, _, trivial, .begin hbegun, by simp only [Worker.load] at hload; omega⟩
  | running ticket =>
      rcases hanswers ticket (p.tickets.getD ticket default).request with ⟨a, hanswered⟩
      let completed : Pool := { p.answer ticket a with completed := p.completed + 1 }
      have hfinished : p.finish? worker a = some (completed.setWorker worker .checking) := by
        simp only [finish?, hworker]
        rfl
      have hload := load_setWorker (p := completed) hworker .checking
      have hsame : completed.load = p.load := rfl
      exact ⟨.finish worker a, _, trivial, .finish hworker (.inl hanswered) hfinished,
        by simp only [Worker.load] at hload; omega⟩
  | exited => exact absurd rfl hstays

/-- A pool with something to do has a worker with something to do. -/
theorem exists_step_of_not_idle (hanswers : ∀ t r, ∃ a, labeler.reply t r = .answered a)
    (hledger : Ledger log p) (hopen : .stopped ∉ log) (hbusy : ¬p.Idle) :
    ∃ move q, move.Own ∧ Moves labeler p move q ∧ q.load < p.load := by
  have hrunning : p.stopping = false := by
    simpa using hledger.stopping.not.mpr hopen
  have hstays : .exited ∉ p.workers := fun hgone => by simpa [hrunning] using hledger.gone hgone
  by_cases hidle : ∀ w ∈ p.workers, w.Idle
  · have hwaiting : p.queue ≠ [] := fun hempty => hbusy ⟨hempty, hidle⟩
    have hfirst := Array.getElem?_eq_getElem hledger.staffed
    exact exists_step_of_busy hanswers hrunning hfirst
      (fun hgone => hstays (hgone ▸ Array.getElem_mem hledger.staffed)) fun _ => hwaiting
  · simp only [not_forall] at hidle
    rcases hidle with ⟨w, hmember, hactive⟩
    rcases Array.getElem?_of_mem hmember with ⟨i, hworker⟩
    exact exists_step_of_busy hanswers hrunning hworker (fun hgone => hstays (hgone ▸ hmember)) fun hidle =>
      absurd hidle hactive

/-- In an idle pool every answer that was not handed out is there. -/
theorem Idle.exists_answer (hidle : p.Idle) (hbalanced : Balanced log p) (hledger : Ledger log p)
    {r : LabelingRequest} (haccepted : .accepted ticket r ∈ log)
    (hkept : times .handedOut ticket log = 0) : ∃ a q, p.take? ticket = some (a, q) := by
  have hfilled := hbalanced.fills_of_idle hidle.empty hidle.idle ticket
  have hslots := (hbalanced ticket).slots
  rw [hfilled, known, if_pos ((hledger.requests ticket r).mp haccepted).1, hkept, ready] at hslots
  rcases hthere : slot p.tickets ticket with _ | a
  · rw [hthere] at hslots
    cases hslots
  · rw [slot] at hthere
    exact ⟨a, _, by rw [take?, hthere, Option.map_some]⟩

theorem Act.queueLimit {events : List Event} (hact : Act labeler p events q) :
    q.queueLimit = p.queueLimit := by
  cases hact <;> rfl

/-- There is always room for a request in an empty queue. -/
theorem Acts.room {workers room : Nat} {fresh : Pool}
    (hstarted : Pool.bounded workers room = .ok fresh) (hacts : Acts labeler fresh log p) :
    0 < p.queueLimit := by
  induction hacts with
  | start =>
      simp only [Pool.bounded] at hstarted
      split at hstarted
      · cases hstarted
      · cases hstarted
        simp
  | act _ hact ih => rwa [hact.queueLimit]

end Pool

/-! ### The caller comes to an end -/

namespace Session

variable {α : Type} {labeler : Labeler} {form : ColoredGraph → Except Error CanonicalForm} {fresh : Pool}
  {result : Except Error α} {log : List Pool.Event} {s s' : Session α} {workers room : Nat}

theorem CanFinish.of_reaches (hsteps : Reaches labeler s s') (hfinishes : s'.CanFinish labeler) :
    s.CanFinish labeler := by
  rcases hfinishes with ⟨t, r, hmore, hfinished⟩
  exact ⟨t, r, hsteps.trans hmore, hfinished⟩

theorem finishes_finished (r : Except Error α) (p : Pool) :
    (⟨.finished r, p⟩ : Session α).CanFinish labeler :=
  ⟨_, r, .refl, rfl⟩

/-- Giving up what is under way takes a step for each request. -/
theorem finishes_cancelling (tickets : List Nat) (e : Error) (p : Pool) :
    (⟨.cancelling tickets e, p⟩ : Session α).CanFinish labeler := by
  induction tickets generalizing p with
  | nil => exact .of_reaches (.single .cancelled) (finishes_finished _ p)
  | cons ticket tickets ih => exact .of_reaches (.single .cancel) (ih _)

section

variable (hstarted : Pool.bounded workers room = .ok fresh)

include hstarted

/-- While the caller waits the workers can work the queue off. -/
theorem exists_idle {caller : Caller α} (p : Pool) (log : List Pool.Event)
    (hsound : Sound labeler form fresh result log ⟨caller, p⟩) (hgoing : caller.Going) :
    ∃ q log', Reaches labeler ⟨caller, p⟩ ⟨caller, q⟩ ∧ q.Idle ∧
      Sound labeler form fresh result log' ⟨caller, q⟩ := by
  induction hload : p.load using Nat.strong_induction_on generalizing p log with
  | _ n ih =>
      by_cases hidle : p.Idle
      · exact ⟨p, log, .refl, hidle, hsound⟩
      · rcases Pool.exists_step_of_not_idle hsound.gives.answers (hsound.acts.ledger hstarted)
          (hsound.running hgoing) hidle with
          ⟨move, q, hown, hmoves, hless⟩
        have hstep : Step labeler ⟨caller, p⟩ ⟨caller, q⟩ := .pool hown hmoves
        rcases hsound.step hstarted hstep with ⟨log', hsound'⟩
        rcases ih q.load (hload ▸ hless) q log' hsound' rfl with ⟨r, log'', hsteps, hidle, hsound''⟩
        exact ⟨r, log'', .head hstep hsteps, hidle, hsound''⟩

variable {next : List CanonicalForm → Dialogue α}
  (hlater : ∀ forms log p, Sound labeler form fresh result log ⟨.start (next forms), p⟩ →
    CanFinish labeler ⟨.start (next forms), p⟩)

include hlater

/-- The answers of a window are taken one after the other. -/
theorem finishes_taking (pending : List (ColoredGraph × Nat)) (forms : List CanonicalForm)
    (p : Pool) (log : List Pool.Event)
    (hsound : Sound labeler form fresh result log ⟨.taking pending forms next, p⟩) :
    CanFinish labeler ⟨.taking pending forms next, p⟩ := by
  induction pending generalizing forms p log with
  | nil =>
      rcases hsound.step hstarted .taken with ⟨log', hsound'⟩
      exact .of_reaches (.single .taken) (hlater forms log' p hsound')
  | cons x pending ih =>
      rcases x with ⟨g, ticket⟩
      rcases exists_idle hstarted p log hsound trivial with ⟨q, log', hsteps, hidle, hsound'⟩
      rcases hidle.exists_answer (hsound'.acts.balanced hstarted) (hsound'.acts.ledger hstarted)
        (hsound'.accepted _ (List.mem_cons_self ..)) (hsound'.waiting _ (List.mem_cons_self ..)) with
        ⟨a, r, htaken⟩
      have hstep : Step labeler ⟨.taking ((g, ticket) :: pending) forms next, q⟩
          ⟨.receive g pending forms next a, r⟩ := .take (.take htaken)
      rcases hsound'.step hstarted hstep with ⟨log'', hsound''⟩
      refine .of_reaches (hsteps.tail hstep) ?_
      unfold Caller.receive at hsound'' ⊢
      cases hreceived : a >>= CanonicalForm.ofOrder g with
      | ok form =>
          rw [hreceived] at hsound''
          exact ih _ _ _ hsound''
      | error e => exact finishes_cancelling _ e r

/-- The requests of a window are submitted one after the other. -/
theorem finishes_submitting (pending : List (ColoredGraph × Nat)) (rest : List ColoredGraph)
    (p : Pool) (log : List Pool.Event)
    (hsound : Sound labeler form fresh result log ⟨.submitting pending rest next, p⟩) :
    CanFinish labeler ⟨.submitting pending rest next, p⟩ := by
  induction rest generalizing pending p log with
  | nil =>
      rcases hsound.step hstarted .submitted with ⟨log', hsound'⟩
      exact .of_reaches (.single .submitted) (finishes_taking hstarted hlater pending [] p log' hsound')
  | cons g rest ih =>
      rcases exists_idle hstarted p log hsound trivial with ⟨q, log', hsteps, hidle, hsound'⟩
      have hrunning := (hsound'.acts.ledger hstarted).stopping.not.mpr (hsound'.running trivial)
      have hroom : q.queue.length < q.queueLimit := by
        simpa [hidle.empty] using hsound'.acts.room hstarted
      have hstep : ∃ r, Pool.Moves labeler q (.submit (Canonicalizer.request g)) r :=
        ⟨_, .submit hroom (by rw [Pool.submit, if_neg hrunning])⟩
      rcases hstep with ⟨r, hmoves⟩
      rcases hsound'.step hstarted (.submit hmoves) with ⟨log'', hsound''⟩
      exact .of_reaches (hsteps.tail (.submit hmoves)) (ih _ _ _ hsound'')

end

/-- Every dialogue can be finished: by induction on the dialogue, a window after the other. -/
theorem finishes_start (hstarted : Pool.bounded workers room = .ok fresh) (d : Dialogue α)
    (log : List Pool.Event) (p : Pool) (hsound : Sound labeler form fresh result log ⟨.start d, p⟩) :
    CanFinish labeler ⟨.start d, p⟩ := by
  induction d generalizing log p with
  | done r => exact finishes_finished r p
  | ask graphs next ih =>
      exact finishes_submitting hstarted (fun forms log p => ih forms log p) [] graphs p log hsound

/-- From wherever a session is it can be finished. -/
theorem finishes_of_sound (hstarted : Pool.bounded workers room = .ok fresh)
    (hsound : Sound labeler form fresh result log s) : s.CanFinish labeler := by
  rcases s with ⟨caller, p⟩
  cases caller with
  | submitting pending rest next =>
      exact finishes_submitting hstarted (fun forms => finishes_start hstarted (next forms)) _ _ _ _ hsound
  | taking pending forms next =>
      exact finishes_taking hstarted (fun forms => finishes_start hstarted (next forms)) _ _ _ _ hsound
  | cancelling tickets e => exact finishes_cancelling tickets e p
  | finished r => exact finishes_finished r p

end Session

namespace Index

/-- The index of a graph does not depend on the number of workers, nor on the order in which they take
    their steps and finish: whatever happens, the construction can be brought to an end, and at its end
    it has the result of the construction with any other number of workers. -/
theorem build_independent_of_threads (g : Graph) (depth : Nat) (limit : Option Nat)
    {threads others : Nat} (hthreads : 1 ≤ threads) (hothers : 1 ≤ others) :
    (build g ⟨depth, true, limit, threads, none⟩).result =
        (build g ⟨depth, true, limit, others, none⟩).result ∧
      ∃ pool, Pool.start threads = .ok pool ∧
        ∀ s, Session.Reaches .refinement
            ⟨.start (building g ⟨depth, true, limit, threads, none⟩), pool⟩ s →
          s.CanFinish .refinement ∧ ∀ r, s.caller = .finished r →
            r = (build g ⟨depth, true, limit, others, none⟩).result := by
  have hne : threads ≠ 0 := Nat.one_le_iff_ne_zero.mp hthreads
  have hne' : others ≠ 0 := Nat.one_le_iff_ne_zero.mp hothers
  have hcomes : ∀ n ≠ 0, (building g ⟨depth, true, limit, threads, none⟩).run Canonicalizer.form =
      (build g ⟨depth, true, limit, n, none⟩).result :=
    fun n hpositive => run_building hne hpositive g
  have hstarted : ∃ pool, Pool.start threads = .ok pool := by
    rw [Pool.start, Pool.bounded, if_neg hne]
    exact ⟨_, rfl⟩
  rcases hstarted with ⟨pool, hstarted⟩
  refine ⟨(hcomes threads hne).symm.trans (hcomes others hne'), pool, hstarted, fun s hsteps => ?_⟩
  rcases (Session.Sound.start _ pool).reaches hstarted hsteps with ⟨log, hsound⟩
  refine ⟨Session.finishes_of_sound hstarted hsound, fun r hfinished => ?_⟩
  rw [← hcomes others hne', ← hsound.expects, hfinished]
  rfl

/-- The index of two steps in a row with two workers, at the end of some schedule, and with one. -/
theorem build_independent_of_threads_two_steps :
    ∃ pool s, Pool.start 2 = .ok pool ∧
      Session.Reaches .refinement ⟨.start (building twoSteps ⟨2, true, none, 2, none⟩), pool⟩ s ∧
      s.caller = .finished (build twoSteps ⟨2, true, none, 1, none⟩).result := by
  rcases build_independent_of_threads twoSteps 2 none (by decide : 1 ≤ 2) (by decide : 1 ≤ 1) with
    ⟨_, pool, hstarted, hsessions⟩
  rcases (hsessions _ .refl).1 with ⟨s, r, hsteps, hfinished⟩
  exact ⟨pool, s, hstarted, hsteps, (hsessions s hsteps).2 r hfinished ▸ hfinished⟩

end Index

end PathQueryIndex
