/-
Module: PathQueryIndex.Proofs.LabelingPool.Answers
Layer: Proofs
Purpose: Every accepted request is answered once, and with an answer of its own: the labeler's, that it
  was cancelled before it was started, or that the pool was shut down before it was taken. The reasons
  for an event stand in the log before it; the counters of the pool count what the log tells.
Imports: PathQueryIndex.Proofs.LabelingPool.Balance
Main exports: Pool.Ledger, Pool.Ledger.act, Pool.Warranted, Pool.warranted_act, Pool.AnsweredOnce,
  Pool.answered_once
-/
import PathQueryIndex.Proofs.LabelingPool.Balance

namespace PathQueryIndex

namespace Pool

/-- What was asked for with a ticket. -/
def requestOf (tickets : Array Ticket) (ticket : Nat) : LabelingRequest :=
  (tickets.getD ticket default).request

/-- Whether a ticket was cancelled. -/
def isCancelled (tickets : Array Ticket) (ticket : Nat) : Bool :=
  (tickets.getD ticket default).cancelled

section Changes

variable (tickets : Array Ticket) (i j : Nat)

theorem requestOf_modify {f : Ticket → Ticket} (hkeeps : ∀ t, (f t).request = t.request) :
    requestOf (tickets.modify i f) j = requestOf tickets j := by
  simp only [requestOf, getD_modify]
  split
  · exact hkeeps _
  · rfl

theorem isCancelled_answer (a : Option Answer) :
    isCancelled (tickets.modify i fun t => { t with answer := a }) j = isCancelled tickets j := by
  simp only [isCancelled, getD_modify]
  split <;> rfl

theorem isCancelled_cancel :
    isCancelled (tickets.modify i fun t => { t with cancelled := true }) j = true →
      i = j ∨ isCancelled tickets j = true := by
  simp only [isCancelled, getD_modify]
  split
  · rename_i hsame
    exact fun _ => .inl hsame.1
  · exact .inr

theorem requestOf_push (r : LabelingRequest) :
    requestOf (tickets.push ⟨r, false, none⟩) j =
      if j = tickets.size then r else requestOf tickets j := by
  simp only [requestOf, Array.getD_eq_getD_getElem?, Array.getElem?_push]
  split <;> rfl

theorem isCancelled_push (r : LabelingRequest) :
    isCancelled (tickets.push ⟨r, false, none⟩) j = true → isCancelled tickets j = true := by
  simp only [isCancelled, Array.getD_eq_getD_getElem?, Array.getElem?_push]
  split
  · intro hflagged
    cases hflagged
  · exact id

end Changes

/-- What a pool shows of its log. -/
structure Ledger (log : List Event) (p : Pool) : Prop where
  submitted : p.submitted = p.tickets.size
  completed : p.completed = (ticketsOf .labeled log).length
  skipped : p.skipped = (ticketsOf .skipped log).length
  stopping : p.stopping = true ↔ .stopped ∈ log
  staffed : 0 < p.workers.size
  gone : .exited ∈ p.workers → p.stopping = true
  requests : ∀ t r, .accepted t r ∈ log ↔ t < p.tickets.size ∧ requestOf p.tickets t = r
  cancels : ∀ t, isCancelled p.tickets t = true → .cancelled t ∈ log
  answers : ∀ t a, slot p.tickets t = some a → ∃ e ∈ log, e.answer? = some (t, a)

variable {labeler : Labeler} {start p q : Pool} {log events : List Event}

/-- Every act is shown. -/
theorem Ledger.act (hledger : Ledger log p) (hact : Act labeler p events q) :
    Ledger (log ++ events) q where
  submitted := by
    have hsubmitted := hledger.submitted
    cases hact <;> simp [cancel, shutdown, answer, setWorker, hsubmitted]
  completed := by
    have hcompleted := hledger.completed
    cases hact <;> simpa [cancel, shutdown, answer, setWorker, ticketsOf, Event.mark?]
  skipped := by
    have hskipped := hledger.skipped
    cases hact <;> simpa [cancel, shutdown, answer, setWorker, ticketsOf, Event.mark?]
  stopping := by
    have hstopping := hledger.stopping
    cases hact <;> simp [cancel, shutdown, answer, setWorker, hstopping]
  staffed := by
    have hstaffed := hledger.staffed
    cases hact <;> simpa [cancel, shutdown, answer]
  gone := by
    have hgone := hledger.gone
    cases hact with
    | idle hworker hidle hstays hstopped =>
        intro hexited
        rcases Array.mem_or_eq_of_mem_setIfInBounds hexited with hthere | hsame
        · exact hgone hthere
        · exact hstopped hsame.symm
    | accept | cancel | drop | handOut => exact hgone
    | stop => exact fun _ => rfl
    | take | start | skip | finish =>
        intro hexited
        rcases Array.mem_or_eq_of_mem_setIfInBounds hexited with hthere | hsame
        · exact hgone hthere
        · cases hsame
  requests := by
    intro t r
    have hrequests := hledger.requests t r
    cases hact with
    | accept =>
        simp only [List.mem_append, hrequests, List.mem_singleton, Event.accepted.injEq,
          Array.size_push, requestOf_push]
        by_cases hlast : t = p.tickets.size
        · simp [hlast, eq_comm]
        · have hbefore : t < p.tickets.size + 1 ↔ t < p.tickets.size := by omega
          simp [hlast, hbefore]
    | cancel | skip | finish | drop | handOut => simpa [cancel, answer, requestOf_modify]
    | idle | stop | take | start => simpa [shutdown]
  cancels := by
    intro t
    have hcancels := hledger.cancels t
    cases hact with
    | accept =>
        intro hflagged
        exact List.mem_append_left _ (hcancels (isCancelled_push _ _ _ hflagged))
    | cancel =>
        intro hflagged
        rcases isCancelled_cancel _ _ _ hflagged with rfl | hbefore
        · simp
        · exact List.mem_append_left _ (hcancels hbefore)
    | skip | finish | drop | handOut => simpa [answer, isCancelled_answer]
    | idle | stop | take | start => simpa [shutdown]
  answers := by
    intro t a
    have hanswers : slot p.tickets t = some a → ∃ e ∈ log ++ events, e.answer? = some (t, a) := by
      intro hthere
      rcases hledger.answers t a hthere with ⟨e, hmember, hanswered⟩
      exact ⟨e, List.mem_append_left _ hmember, hanswered⟩
    cases hact with
    | accept => simpa only [slot_push] using hanswers
    | cancel => simpa only [cancel, slot_cancel] using hanswers
    | skip | finish | drop =>
        simp only [answer, setWorker_tickets, slot_answer]
        split
        · rename_i hsame
          rintro ⟨⟩
          exact ⟨_, List.mem_append_right _ (List.mem_singleton_self _), by rw [← hsame.1]; rfl⟩
        · exact hanswers
    | handOut =>
        simp only [slot_answer]
        split
        · rintro ⟨⟩
        · exact hanswers
    | idle | stop | take | start => exact hanswers

theorem Acts.ledger {workers room : Nat} (hfresh : Pool.bounded workers room = .ok start)
    (hacts : Acts labeler start log p) : Ledger log p := by
  induction hacts with
  | start =>
      simp only [Pool.bounded] at hfresh
      split at hfresh
      · cases hfresh
      · cases hfresh
        constructor <;> simp [ticketsOf, isCancelled, slot, default]
        omega
  | act _ hact ih => exact ih.act hact

/-! Reasons. -/

/-- What has to stand in the log before an event. -/
def Warrant (labeler : Labeler) (before : List Event) : Event → Prop
  | .accepted _ _ => .stopped ∉ before
  | .labeled t a => .started t ∈ before ∧ ∃ r, .accepted t r ∈ before ∧
      (labeler.reply t r = .answered a ∨ (.cancelled t ∈ before ∧ a = .error .cancelled))
  | .skipped t => .cancelled t ∈ before
  | .dropped _ => .stopped ∈ before
  | .handedOut t a => ∃ e ∈ before, e.answer? = some (t, a)
  | _ => True

/-- A log in which every event has its reasons. -/
def Warranted (labeler : Labeler) (log : List Event) : Prop :=
  ∀ before e after, log = before ++ e :: after → Warrant labeler before e

theorem Warranted.concat {e : Event} (hwarranted : Warranted labeler log)
    (hwarrant : Warrant labeler log e) : Warranted labeler (log ++ [e]) := by
  intro before x after hsplit
  rcases List.eq_nil_or_concat after with rfl | ⟨after, y, rfl⟩
  · rcases List.append_inj' hsplit rfl with ⟨rfl, hsame⟩
    cases hsame
    exact hwarrant
  · have hinner : log ++ [e] = (before ++ x :: after) ++ [y] := by simpa using hsplit
    exact hwarranted _ _ _ (List.append_inj' hinner rfl).1

/-- Nothing happens without its reasons: what an act rests on is what the pool shows of its log. -/
theorem warranted_act (hwarranted : Warranted labeler log) (hbalanced : Balanced log p)
    (hledger : Ledger log p) (hact : Act labeler p events q) : Warranted labeler (log ++ events) := by
  cases hact with
  | idle => simpa using hwarranted
  | accept hopen =>
      refine hwarranted.concat fun hstopped => ?_
      simp [hledger.stopping.mpr hstopped] at hopen
  | cancel | stop | take | start => exact hwarranted.concat trivial
  | skip hworker hcancelled => exact hwarranted.concat (hledger.cancels _ hcancelled)
  | @finish _ ticket a hworker hanswers =>
      have hthere := count_pos_of_at hworker
      have hrequest := (hledger.requests ticket _).mpr ⟨((hbalanced ticket).of_place (by omega)).1, rfl⟩
      refine hwarranted.concat ⟨(hbalanced ticket).started hthere, _, hrequest, ?_⟩
      rcases hanswers with hown | ⟨hcancelled, hgiven⟩
      · exact .inl hown
      · exact .inr ⟨hledger.cancels ticket hcancelled, hgiven⟩
  | drop hgone hwaiting =>
      -- there is a worker, it has left, and workers leave only a pool that is stopping
      have hfirst := Array.getElem_mem hledger.staffed
      exact hwarranted.concat (hledger.stopping.mp (hledger.gone (hgone _ hfirst ▸ hfirst)))
  | handOut hfound => exact hwarranted.concat (hledger.answers _ _ hfound)

theorem Acts.warranted {workers room : Nat} (hfresh : Pool.bounded workers room = .ok start)
    (hacts : Acts labeler start log p) : Warranted labeler log := by
  induction hacts with
  | start =>
      intro before e after hsplit
      simp at hsplit
  | act hacts hact ih => exact warranted_act ih (hacts.balanced hfresh) (hacts.ledger hfresh) hact

/-! Answers. -/

/-- Every accepted request is answered once, with an answer of its own. -/
structure AnsweredOnce (labeler : Labeler) (log : List Event) (p : Pool) : Prop where
  /-- A ticket stands for one request. -/
  request : ∀ t r r', .accepted t r ∈ log → .accepted t r' ∈ log → r = r'
  /-- An answer is put on a ticket at most once. -/
  once : ∀ t, fills t log ≤ 1
  /-- A labeling is that of the request that was accepted with the ticket, and was started; a labeler
      gives up only a cancelled request. -/
  labeled : ∀ before t a after, log = before ++ .labeled t a :: after →
    .started t ∈ before ∧ ∃ r, .accepted t r ∈ before ∧
      (labeler.reply t r = .answered a ∨ (.cancelled t ∈ before ∧ a = .error .cancelled))
  /-- What is skipped was cancelled before, and is never started. -/
  skipped : ∀ before t after, log = before ++ .skipped t :: after →
    .cancelled t ∈ before ∧ .started t ∉ log
  /-- What is dropped was dropped by a shutdown, and no worker takes it. -/
  dropped : ∀ before t after, log = before ++ .dropped t :: after →
    .stopped ∈ before ∧ .taken t ∉ log
  /-- An answer is handed out at most once, -/
  handed_once : ∀ t, times .handedOut t log ≤ 1
  /-- it is the one that was put on the ticket, -/
  handed_own : ∀ before t a after, log = before ++ .handedOut t a :: after →
    ∃ e ∈ before, e.answer? = some (t, a)
  /-- and it is there until then. -/
  kept : ∀ e ∈ log, ∀ t a, e.answer? = some (t, a) → times .handedOut t log = 0 →
    ∃ q, p.take? t = some (a, q)
  /-- Nothing is accepted after a shutdown. -/
  accepted : ∀ before t r after, log = before ++ .accepted t r :: after → .stopped ∉ before
  closed : .stopped ∈ log → ∀ r, p.submit r = .error .shutDown
  /-- When all workers are gone and the queue is dropped, every request has been answered. -/
  settled : (∀ w ∈ p.workers, w = .exited) → p.queue = [] →
    (∀ t r, .accepted t r ∈ log → fills t log = 1) ∧
      p.submitted = p.completed + p.skipped + (ticketsOf .dropped log).length

/-- Two answers on one ticket are the same if there is room for one. -/
theorem answer_unique {t : Nat} {a b : Answer} (honce : fills t log ≤ 1)
    (hfirst : (t, a) ∈ answersOf log) (hsecond : (t, b) ∈ answersOf log) : a = b := by
  -- the answers on `t` are a list of one element, so both are that element
  rw [fills, List.count, List.countP_map, List.countP_eq_length_filter] at honce
  have hfound : ∀ {c}, (t, c) ∈ answersOf log → (t, c) ∈ (answersOf log).filter
      ((· == t) ∘ Prod.fst) := fun hmember => List.mem_filter.mpr ⟨hmember, by simp⟩
  have hone := Nat.le_antisymm honce (List.length_pos_of_mem (hfound hfirst))
  rcases List.length_eq_one_iff.mp hone with ⟨x, honly⟩
  have hfirst : (t, a) = x := by simpa [honly] using hfound hfirst
  have hsecond : (t, b) = x := by simpa [honly] using hfound hsecond
  exact (Prod.mk.inj (hfirst.trans hsecond.symm)).2

/-- An answer that is not handed out is still on its ticket. -/
theorem take_of_kept (hbalanced : Balanced log p) (hledger : Ledger log p) {e : Event}
    (hmember : e ∈ log) {t : Nat} {a : Answer} (hanswered : e.answer? = some (t, a))
    (honce : fills t log ≤ 1) (hkept : times .handedOut t log = 0) :
    ∃ q, p.take? t = some (a, q) := by
  have hgiven : (t, a) ∈ answersOf log := List.mem_filterMap.mpr ⟨e, hmember, hanswered⟩
  have hcounted : 0 < fills t log := List.count_pos_iff.mpr (List.mem_map_of_mem hgiven)
  have hslots := (hbalanced t).slots
  rw [hkept, ready] at hslots
  rcases hthere : slot p.tickets t with _ | b
  · rw [hthere, Option.elim] at hslots
    omega
  · rcases hledger.answers t b hthere with ⟨e', hmember', hanswered'⟩
    have hother : (t, b) ∈ answersOf log := List.mem_filterMap.mpr ⟨e', hmember', hanswered'⟩
    rw [answer_unique honce hgiven hother]
    rw [slot] at hthere
    exact ⟨_, by rw [take?, hthere, Option.map_some]⟩

theorem not_started_of_skipped (hbalanced : Balanced log p) {t : Nat} (hskipped : .skipped t ∈ log) :
    .started t ∉ log := by
  intro hstarted
  have hfirst := times_pos hskipped rfl
  have hsecond := times_pos hstarted rfl
  have hstarts := (hbalanced t).starts
  have hsingle := known_le_one p.tickets t
  omega

theorem not_taken_of_dropped (hbalanced : Balanced log p) {t : Nat} (hdropped : .dropped t ∈ log) :
    .taken t ∉ log := by
  intro htaken
  have hfirst := times_pos hdropped rfl
  have hsecond := times_pos htaken rfl
  have htakings := (hbalanced t).takings
  have hsingle := known_le_one p.tickets t
  omega

/-- When nothing is under way, everything that was accepted has been answered. -/
theorem settled_of_idle (hbalanced : Balanced log p) (hledger : Ledger log p)
    (hgone : ∀ w ∈ p.workers, w = .exited) (hempty : p.queue = []) :
    (∀ t r, .accepted t r ∈ log → fills t log = 1) ∧
      p.submitted = p.completed + p.skipped + (ticketsOf .dropped log).length := by
  have hfilled := hbalanced.fills_of_idle hempty fun w hmember t => by simp [hgone w hmember]
  constructor
  · intro t r haccepted
    rw [hfilled, known, if_pos ((hledger.requests t r).mp haccepted).1]
  · have hall : ((answersOf log).map Prod.fst).Perm (List.range p.tickets.size) := by
      refine List.perm_iff_count.mpr fun t => ?_
      rw [List.count_range]
      exact hfilled t
    have htotal := hall.length_eq
    rw [List.length_map, List.length_range, length_answersOf] at htotal
    rw [hledger.submitted, hledger.completed, hledger.skipped, htotal]

/-- In every run of a pool, in whatever order its callers and its workers take their steps, every
    accepted request is answered once. -/
theorem answered_once {workers room : Nat} {moves : List Move}
    (hrun : Reachable labeler workers room moves p) :
    ∃ fresh log, Pool.bounded workers room = .ok fresh ∧ Recorded labeler fresh moves log p ∧
      AnsweredOnce labeler log p := by
  rcases hrun with ⟨fresh, hstarted, hrun⟩
  rcases exists_log_of_run hrun with ⟨log, hrecorded⟩
  have hbalanced := hrecorded.acts.balanced hstarted
  have hledger := hrecorded.acts.ledger hstarted
  have hwarranted := hrecorded.acts.warranted hstarted
  have honce : ∀ t, fills t log ≤ 1 := by
    intro t
    have hplaces := (hbalanced t).places
    have hsingle := known_le_one p.tickets t
    omega
  refine ⟨fresh, log, hstarted, hrecorded, ?_⟩
  constructor
  case request =>
    intro t r r' hfirst hsecond
    exact ((hledger.requests t r).mp hfirst).2.symm.trans ((hledger.requests t r').mp hsecond).2
  case once => exact honce
  case labeled => exact fun before _ _ after hsplit => hwarranted before _ after hsplit
  case skipped =>
    intro before t after hsplit
    have hmember : .skipped t ∈ log := by simp [hsplit]
    exact ⟨hwarranted before _ after hsplit, not_started_of_skipped hbalanced hmember⟩
  case dropped =>
    intro before t after hsplit
    have hmember : .dropped t ∈ log := by simp [hsplit]
    exact ⟨hwarranted before _ after hsplit, not_taken_of_dropped hbalanced hmember⟩
  case handed_once =>
    intro t
    have hslots := (hbalanced t).slots
    have hsingle := honce t
    omega
  case handed_own => exact fun before _ _ after hsplit => hwarranted before _ after hsplit
  case kept =>
    exact fun e hmember t a hanswered hkept =>
      take_of_kept hbalanced hledger hmember hanswered (honce t) hkept
  case accepted => exact fun before _ _ after hsplit => hwarranted before _ after hsplit
  case closed =>
    intro hstopped r
    simp [submit, hledger.stopping.mpr hstopped]
  case settled => exact settled_of_idle hbalanced hledger

/-- One worker and three requests: the first is labeled, the second is skipped since it was cancelled,
    and the third is dropped by the shutdown. -/
theorem answered_once_shut_down :
    let labeler : Labeler := ⟨fun _ r => .answered (.ok (List.range r.rows.length))⟩
    let moves : List Move := [.submit ⟨[[]], [-1]⟩, .check 0, .poll 0, .submit ⟨[], []⟩,
      .submit ⟨[[]], [-1]⟩, .begin 0, .cancel 1, .finish 0 (.ok [0]), .check 0, .poll 0, .begin 0,
      .shutdown, .check 0, .dropQueue, .take 0 (.ok [0]), .take 2 (.error .shutDown)]
    ∃ p, Reachable labeler 1 2 moves p ∧
      ∃ fresh log, Pool.bounded 1 2 = .ok fresh ∧ Recorded labeler fresh moves log p ∧
        AnsweredOnce labeler log p := by
  intro labeler moves
  have hrun : ∃ p, Reachable labeler 1 2 moves p :=
    ⟨_, _, rfl, Run.start
      |>.step (.submit (by decide) rfl) |>.step (.check rfl) |>.step (.poll rfl)
      |>.step (.submit (by decide) rfl) |>.step (.submit (by decide) rfl) |>.step (.begin rfl)
      |>.step .cancel |>.step (.finish rfl (.inl rfl) rfl) |>.step (.check rfl)
      |>.step (.poll rfl) |>.step (.begin rfl) |>.step .shutdown |>.step (.check rfl)
      |>.step (.dropQueue (if_pos (by rw [← Array.all_toList]; rfl)))
      |>.step (.take rfl) |>.step (.take rfl)⟩
  rcases hrun with ⟨p, hrun⟩
  exact ⟨p, hrun, answered_once hrun⟩

end Pool

end PathQueryIndex
