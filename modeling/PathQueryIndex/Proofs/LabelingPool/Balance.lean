/-
Module: PathQueryIndex.Proofs.LabelingPool.Balance
Layer: Proofs
Purpose: Where the tickets of a pool are. A ticket is in the queue, at one worker, or answered, and its
  answer is on it until it is handed out; the log tells how often each of this happened. Every act keeps
  these accounts, and so they hold in every state.
Imports: PathQueryIndex.Proofs.LabelingPool.Log
Main exports: Pool.Balanced, Pool.Balanced.act, Pool.Acts.balanced
-/
import PathQueryIndex.Proofs.LabelingPool.Log

namespace PathQueryIndex

namespace Pool

/-! Counting. -/

@[simp] theorem ticketsOf_append (m : Mark) (log more : List Event) :
    ticketsOf m (log ++ more) = ticketsOf m log ++ ticketsOf m more := by
  simp [ticketsOf]

@[simp] theorem times_nil (m : Mark) (ticket : Nat) : times m ticket [] = 0 := rfl

@[simp] theorem times_append (m : Mark) (ticket : Nat) (log more : List Event) :
    times m ticket (log ++ more) = times m ticket log + times m ticket more := by
  simp [times]

@[simp] theorem times_singleton (m : Mark) (ticket : Nat) (e : Event) :
    times m ticket [e] = if e.mark? = some (m, ticket) then 1 else 0 := by
  rcases hmarked : e.mark? with _ | ⟨n, t⟩
  · simp [times, ticketsOf, hmarked]
  · by_cases hsame : n = m <;> simp [times, ticketsOf, hmarked, hsame, List.count_singleton]

@[simp] theorem answersOf_append (log more : List Event) :
    answersOf (log ++ more) = answersOf log ++ answersOf more := by
  simp [answersOf]

@[simp] theorem fills_append (ticket : Nat) (log more : List Event) :
    fills ticket (log ++ more) = fills ticket log + fills ticket more := by
  simp [fills]

@[simp] theorem fills_singleton (ticket : Nat) (e : Event) :
    fills ticket [e] = if e.answer?.map Prod.fst = some ticket then 1 else 0 := by
  rcases hanswered : e.answer? with _ | ⟨t, a⟩
  · simp [fills, answersOf, hanswered]
  · simp [fills, answersOf, hanswered, List.count_singleton]

/-- An answer comes from a labeler, from a cancellation or from the shutdown. -/
theorem fills_eq (ticket : Nat) (log : List Event) :
    fills ticket log =
      times .labeled ticket log + times .skipped ticket log + times .dropped ticket log := by
  induction log with
  | nil => rfl
  | cons e log ih =>
      have hfirst : fills ticket [e] =
          times .labeled ticket [e] + times .skipped ticket [e] + times .dropped ticket [e] := by
        cases e <;> simp [Event.answer?, Event.mark?]
      rw [← List.singleton_append]
      simp only [fills_append, times_append, ih, hfirst]
      omega

theorem length_answersOf (log : List Event) :
    (answersOf log).length = (ticketsOf .labeled log).length + (ticketsOf .skipped log).length +
      (ticketsOf .dropped log).length := by
  induction log with
  | nil => rfl
  | cons e log ih =>
      have hfirst : (answersOf [e]).length = (ticketsOf .labeled [e]).length +
          (ticketsOf .skipped [e]).length + (ticketsOf .dropped [e]).length := by
        cases e <;> rfl
      rw [← List.singleton_append]
      simp only [answersOf_append, ticketsOf_append, List.length_append, ih, hfirst]
      omega

/-- Something that happened has been counted. -/
theorem times_pos {m : Mark} {ticket : Nat} {e : Event} {log : List Event} (hmember : e ∈ log)
    (hmarked : e.mark? = some (m, ticket)) : 0 < times m ticket log := by
  refine List.count_pos_iff.mpr (List.mem_filterMap.mpr ⟨e, hmember, ?_⟩)
  simp [hmarked]

/-- What has been counted happened. -/
theorem exists_of_times_pos {m : Mark} {ticket : Nat} {log : List Event}
    (hcounted : 0 < times m ticket log) : ∃ e ∈ log, e.mark? = some (m, ticket) := by
  rcases List.mem_filterMap.mp (List.count_pos_iff.mp hcounted) with ⟨e, hmember, hmarked⟩
  refine ⟨e, hmember, ?_⟩
  rcases hmark : e.mark? with _ | ⟨n, t⟩
  · simp [hmark] at hmarked
  · simpa [hmark] using hmarked

theorem started_of_times_pos {ticket : Nat} {log : List Event}
    (hcounted : 0 < times .started ticket log) : .started ticket ∈ log := by
  rcases exists_of_times_pos hcounted with ⟨e, hmember, hmarked⟩
  cases e <;> simp only [Event.mark?, reduceCtorEq, Option.some.injEq, Prod.mk.injEq, false_and,
    true_and] at hmarked
  exact hmarked ▸ hmember

/-! The parts of a pool after a change of one of them. -/

/-- The answer on a ticket. -/
def slot (tickets : Array Ticket) (ticket : Nat) : Option Answer :=
  (tickets.getD ticket default).answer

/-- How many answers are on a ticket. -/
def ready (tickets : Array Ticket) (ticket : Nat) : Nat :=
  (slot tickets ticket).elim 0 fun _ => 1

/-- Whether a ticket has been given out, as a number. -/
def known (tickets : Array Ticket) (ticket : Nat) : Nat := if ticket < tickets.size then 1 else 0

section Changes

variable {p : Pool} {worker : Nat} {old new : Worker}

@[simp] theorem setWorker_workers :
    (p.setWorker worker new).workers = p.workers.setIfInBounds worker new := rfl

@[simp] theorem setWorker_queue : (p.setWorker worker new).queue = p.queue := rfl

@[simp] theorem setWorker_tickets : (p.setWorker worker new).tickets = p.tickets := rfl

/-- Changing what a worker is at moves one worker from one place to another. -/
theorem count_moved {workers : Array Worker} (hworker : workers[worker]? = some old)
    (new place : Worker) :
    (workers.setIfInBounds worker new).count place + (if old = place then 1 else 0) =
      workers.count place + (if new = place then 1 else 0) := by
  rcases Array.getElem?_eq_some_iff.mp hworker with ⟨hbound, rfl⟩
  have hcounted : workers[worker] = place → 0 < workers.count place := fun hsame =>
    Array.count_pos_iff.mpr (hsame ▸ Array.getElem_mem hbound)
  simp only [Array.setIfInBounds, hbound, dif_pos, Array.count_set, beq_iff_eq]
  split
  · rename_i hsame
    have := hcounted hsame; omega
  · rfl

theorem count_moved_idle {workers : Array Worker} (hworker : workers[worker]? = some old)
    (hidle : old.Idle) (hstays : new.Idle) (ticket : Nat) :
    (workers.setIfInBounds worker new).count (.holding ticket) = workers.count (.holding ticket) ∧
      (workers.setIfInBounds worker new).count (.running ticket) =
        workers.count (.running ticket) := by
  have hheld := count_moved hworker new (.holding ticket)
  have hrun := count_moved hworker new (.running ticket)
  simp only [(hidle ticket).1, (hstays ticket).1, if_false] at hheld
  simp only [(hidle ticket).2, (hstays ticket).2, if_false] at hrun
  exact ⟨hheld, hrun⟩

/-- A ticket after a change of one of them. -/
theorem getD_modify (f : Ticket → Ticket) (tickets : Array Ticket) (i j : Nat) :
    (tickets.modify i f).getD j default =
      if i = j ∧ j < tickets.size then f (tickets.getD j default) else tickets.getD j default := by
  simp only [Array.getD_eq_getD_getElem?, Array.getElem?_modify]
  by_cases hbound : j < tickets.size
  · by_cases hsame : i = j <;> simp [hsame, hbound]
  · simp [hbound]

@[simp] theorem known_modify (f : Ticket → Ticket) (tickets : Array Ticket) (i j : Nat) :
    known (tickets.modify i f) j = known tickets j := by
  simp only [known, Array.size_modify]

theorem known_push (tickets : Array Ticket) (t : Ticket) (i : Nat) :
    known (tickets.push t) i = known tickets i + if tickets.size = i then 1 else 0 := by
  simp only [known, Array.size_push]
  grind

theorem slot_push (tickets : Array Ticket) (r : LabelingRequest) (cancelled : Bool) (i : Nat) :
    slot (tickets.push ⟨r, cancelled, none⟩) i = slot tickets i := by
  simp only [slot, Array.getD_eq_getD_getElem?, Array.getElem?_push]
  split
  · rename_i hsame
    simp [← hsame, default]
  · rfl

theorem slot_cancel (tickets : Array Ticket) (i j : Nat) :
    slot (tickets.modify i fun t => { t with cancelled := true }) j = slot tickets j := by
  simp only [slot, getD_modify]
  split <;> rfl

theorem slot_answer (tickets : Array Ticket) (a : Option Answer) (i j : Nat) :
    slot (tickets.modify i fun t => { t with answer := a }) j =
      if i = j ∧ j < tickets.size then a else slot tickets j := by
  simp only [slot, getD_modify]
  split <;> rfl

theorem ready_fill {tickets : Array Ticket} {i : Nat} (hbound : i < tickets.size)
    (hfree : slot tickets i = none) (a : Answer) (j : Nat) :
    ready (tickets.modify i fun t => { t with answer := some a }) j =
      ready tickets j + if i = j then 1 else 0 := by
  simp only [ready, slot_answer]
  by_cases hsame : i = j
  · subst hsame
    simp [hbound, hfree]
  · simp [hsame]

theorem ready_clear {tickets : Array Ticket} {i : Nat} {a : Answer}
    (hthere : slot tickets i = some a) (j : Nat) :
    ready (tickets.modify i fun t => { t with answer := none }) j + (if i = j then 1 else 0) =
      ready tickets j := by
  have hbound : i < tickets.size := by
    by_contra hout
    simp [slot, hout, default] at hthere
  simp only [ready, slot_answer]
  by_cases hsame : i = j
  · subst hsame
    simp [hbound, hthere]
  · simp [hsame]

end Changes

/-! The accounts. -/

/-- The accounts of a ticket: what the log says of it and where it is. -/
structure BalancedAt (log : List Event) (p : Pool) (ticket : Nat) : Prop where
  /-- A ticket that was given out waits, is at a worker, or has been answered. -/
  places : p.queue.count ticket + p.workers.count (.holding ticket) +
    p.workers.count (.running ticket) + fills ticket log = known p.tickets ticket
  /-- It waits, has been dropped, or was taken. -/
  takings : p.queue.count ticket + times .dropped ticket log + times .taken ticket log =
    known p.tickets ticket
  /-- It waits, is held, has been dropped or skipped, or was started. -/
  starts : p.queue.count ticket + p.workers.count (.holding ticket) + times .dropped ticket log +
    times .skipped ticket log + times .started ticket log = known p.tickets ticket
  /-- Its answer is handed out or there to be handed out. -/
  slots : ready p.tickets ticket + times .handedOut ticket log = fills ticket log

/-- The accounts of all tickets. -/
def Balanced (log : List Event) (p : Pool) : Prop := ∀ ticket, BalancedAt log p ticket

variable {labeler : Labeler} {start p q : Pool} {log events : List Event}

/-- A ticket that is not answered yet was given out, and there is no answer on it. -/
theorem BalancedAt.of_place {ticket : Nat} (hbalanced : BalancedAt log p ticket)
    (hsomewhere : 0 < p.queue.count ticket + p.workers.count (.holding ticket) +
      p.workers.count (.running ticket)) :
    ticket < p.tickets.size ∧ slot p.tickets ticket = none := by
  rcases hbalanced with ⟨hplaces, _, _, hslots⟩
  simp only [known] at hplaces
  split at hplaces
  · rename_i hbound
    refine ⟨hbound, ?_⟩
    cases hslot : slot p.tickets ticket with
    | none => rfl
    | some a =>
        simp only [ready, hslot, Option.elim] at hslots
        omega
  · omega

theorem known_le_one (tickets : Array Ticket) (ticket : Nat) : known tickets ticket ≤ 1 := by
  simp only [known]
  split <;> omega

/-- When nothing is queued and no worker has a request, every ticket has been answered. -/
theorem Balanced.fills_of_idle (hbalanced : Balanced log p) (hempty : p.queue = [])
    (hidle : ∀ w ∈ p.workers, w.Idle) (ticket : Nat) :
    fills ticket log = known p.tickets ticket := by
  have hheld : p.workers.count (.holding ticket) = 0 :=
    Array.count_eq_zero.mpr fun hmember => (hidle _ hmember ticket).1 rfl
  have hrun : p.workers.count (.running ticket) = 0 :=
    Array.count_eq_zero.mpr fun hmember => (hidle _ hmember ticket).2 rfl
  simpa [hempty, hheld, hrun] using (hbalanced ticket).places

/-- A request that a worker runs was started. -/
theorem BalancedAt.started {ticket : Nat} (hbalanced : BalancedAt log p ticket)
    (hrunning : 0 < p.workers.count (.running ticket)) : .started ticket ∈ log := by
  rcases hbalanced with ⟨hplaces, _, hstarts, _⟩
  have hsingle := known_le_one p.tickets ticket
  simp only [fills_eq] at hplaces
  exact started_of_times_pos (by omega)

/-- A ticket that a worker has is counted there. -/
theorem count_pos_of_at {workers : Array Worker} {worker : Nat} {w : Worker}
    (hworker : workers[worker]? = some w) : 0 < workers.count w :=
  Array.count_pos_iff.mpr (Array.mem_of_getElem? hworker)

/-- Every act keeps the accounts. -/
theorem Balanced.act (hbalanced : Balanced log p) (hact : Act labeler p events q) :
    Balanced (log ++ events) q := by
  -- an act moves its ticket from one place to the next; the accounts are sums, and what is left when
  -- the places after the act are counted is arithmetic
  intro t
  rcases hbalanced t with ⟨hplaces, htakings, hstarts, hslots⟩
  cases hact with
  | idle hworker hidle hstays _ =>
      have hsame := count_moved_idle hworker hidle hstays t
      constructor <;> simpa [hsame]
  | accept =>
      simp only [ready] at hslots
      constructor <;>
        simp [Event.mark?, Event.answer?, known_push, ready, slot_push, List.count_singleton] <;> omega
  | cancel hknown =>
      constructor <;> simpa [Event.mark?, Event.answer?, cancel, ready, slot_cancel]
  | stop =>
      constructor <;> simpa [Event.mark?, Event.answer?, shutdown]
  | @take _ ticket _ hworker hwaiting =>
      have hheld := count_moved hworker (.holding ticket) (.holding t)
      have hrun := count_moved hworker (.holding ticket) (.running t)
      simp only [hwaiting, List.count_cons, beq_iff_eq] at hplaces htakings hstarts
      simp only [reduceCtorEq, if_false, Worker.holding.injEq] at hheld hrun
      constructor <;> simp [Event.mark?, Event.answer?] <;> omega
  | @start _ ticket hworker =>
      have hheld := count_moved hworker (.running ticket) (.holding t)
      have hrun := count_moved hworker (.running ticket) (.running t)
      simp only [reduceCtorEq, if_false, Worker.holding.injEq, Worker.running.injEq] at hheld hrun
      constructor <;> simp [Event.mark?, Event.answer?] <;> omega
  | @skip _ ticket hworker _ =>
      have hheld := count_moved hworker .checking (.holding t)
      have hrun := count_moved hworker .checking (.running t)
      have hthere := count_pos_of_at hworker
      rcases (hbalanced ticket).of_place (by omega) with ⟨hbound, hfree⟩
      simp only [reduceCtorEq, if_false, Worker.holding.injEq] at hheld hrun
      constructor <;> simp [Event.mark?, Event.answer?, answer, ready_fill hbound hfree] <;> omega
  | @finish _ ticket _ hworker _ =>
      have hheld := count_moved hworker .checking (.holding t)
      have hrun := count_moved hworker .checking (.running t)
      have hthere := count_pos_of_at hworker
      rcases (hbalanced ticket).of_place (by omega) with ⟨hbound, hfree⟩
      simp only [reduceCtorEq, if_false, Worker.running.injEq] at hheld hrun
      constructor <;> simp [Event.mark?, Event.answer?, answer, ready_fill hbound hfree] <;> omega
  | @drop ticket _ _ hwaiting =>
      have hthere : 0 < p.queue.count ticket := List.count_pos_iff.mpr (by simp [hwaiting])
      rcases (hbalanced ticket).of_place (by omega) with ⟨hbound, hfree⟩
      simp only [hwaiting, List.count_cons, beq_iff_eq] at hplaces htakings hstarts hslots
      constructor <;> simp [Event.mark?, Event.answer?, answer, ready_fill hbound hfree] <;> omega
  | handOut hfound =>
      have hclear := ready_clear hfound t
      constructor <;> simp [Event.mark?, Event.answer?] <;> omega

/-- The accounts hold in every state. -/
theorem Acts.balanced {workers room : Nat} (hfresh : Pool.bounded workers room = .ok start)
    (hacts : Acts labeler start log p) : Balanced log p := by
  induction hacts with
  | start =>
      simp only [Pool.bounded] at hfresh
      split at hfresh
      · cases hfresh
      · cases hfresh
        intro t
        constructor <;> simp [fills, answersOf, known, ready, slot, default, Array.count_replicate]
  | act _ hact ih => exact ih.act hact

end Pool

end PathQueryIndex
