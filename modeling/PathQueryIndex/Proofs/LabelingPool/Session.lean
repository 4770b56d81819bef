/-
Module: PathQueryIndex.Proofs.LabelingPool.Session
Layer: Proofs
Purpose: No schedule changes what comes of a dialogue. As long as the caller waits for answers the pool is not
  stopped and nothing that the caller waits for is cancelled, so that what it takes is the labeler's answer to
  its own request, whatever the workers did in between. At every moment the caller is to come to the result of
  its dialogue, and when it has finished it has come to it.
Imports: PathQueryIndex.LabelingPool.Session, PathQueryIndex.Proofs.LabelingPool.Answers,
  PathQueryIndex.Proofs.Index.Dialogue
Main exports: Labeler.Gives, Pool.answer_of_wanted, Caller.expects, Session.Sound, Session.Sound.step,
  Session.Sound.reaches
-/
import PathQueryIndex.LabelingPool.Session
import PathQueryIndex.Proofs.LabelingPool.Answers
import PathQueryIndex.Proofs.Index.Dialogue

namespace PathQueryIndex

/-- A labeler answers every request, and its answers give every colored graph one form. -/
structure Labeler.Gives (labeler : Labeler) (form : ColoredGraph → Except Error CanonicalForm) : Prop where
  answers : ∀ t r, ∃ a, labeler.reply t r = .answered a
  forms : ∀ {t g a}, labeler.reply t (Canonicalizer.request g) = .answered a →
    a >>= CanonicalForm.ofOrder g = form g

theorem Labeler.gives_refinement : Labeler.refinement.Gives Canonicalizer.form where
  answers _ _ := ⟨_, rfl⟩
  forms hanswered := by
    cases hanswered
    rfl

namespace Pool

variable {labeler : Labeler} {fresh p q : Pool} {log events : List Event}

/-- A ticket that is not cancelled in a pool that was not stopped has the labeler's answer to its request. -/
theorem answer_of_wanted (hrunning : .stopped ∉ log) (hledger : Ledger log p)
    (hwarranted : Warranted labeler log) {t : Nat} {r : LabelingRequest} {a : Answer}
    (hwanted : .cancelled t ∉ log) (haccepted : .accepted t r ∈ log)
    (hthere : slot p.tickets t = some a) : labeler.reply t r = .answered a := by
  rcases hledger.answers t a hthere with ⟨e, hmember, hanswered⟩
  rcases List.append_of_mem hmember with ⟨before, after, hsplit⟩
  have hinside : ∀ {x}, x ∈ before → x ∈ log := fun hfound => by simp [hsplit, hfound]
  have hwarrant := hwarranted before e after hsplit
  cases e with
  | labeled t' a' =>
      cases hanswered
      rcases hwarrant with ⟨_, r', haccepted', hown | ⟨hcancelled, _⟩⟩
      · have hsame := (hledger.requests t r).mp haccepted
        have hsame' := (hledger.requests t r').mp (hinside haccepted')
        rw [← hsame.2, hsame'.2]
        exact hown
      · exact absurd (hinside hcancelled) hwanted
  | skipped t' =>
      cases hanswered
      exact absurd (hinside hwarrant) hwanted
  | dropped t' => exact absurd (hinside hwarrant) hrunning
  | accepted | cancelled | stopped | taken | started | handedOut => cases hanswered

/-- Tickets are kept. -/
theorem Act.size_le (hact : Act labeler p events q) : p.tickets.size ≤ q.tickets.size := by
  cases hact <;> simp [Pool.cancel, Pool.shutdown, Pool.answer]

/-- Only what was accepted is cancelled. -/
theorem Acts.lt_of_cancelled (hacts : Acts labeler fresh log p) {t : Nat} (hcancelled : .cancelled t ∈ log) :
    t < p.tickets.size := by
  induction hacts with
  | start => cases hcancelled
  | act _ hact ih =>
      rcases List.mem_append.mp hcancelled with hbefore | hnow
      · exact Nat.lt_of_lt_of_le (ih hbefore) hact.size_le
      · cases hact with
        | cancel hknown =>
            cases List.mem_singleton.mp hnow
            simpa [Pool.cancel] using hknown
        | idle => cases hnow
        | accept | stop | take | start | skip | finish | drop | handOut =>
            cases List.mem_singleton.mp hnow

/-- What the pool does itself is counted, and is not that an answer is handed out. -/
theorem marked_of_own {move : Move} (hown : move.Own) {e : Event} (hmember : e ∈ p.events move) :
    ∃ m t, e.mark? = some (m, t) ∧ m ≠ .handedOut := by
  cases move with
  | submit | cancel | shutdown | take => cases hown
  | check | recheck => cases hmember
  | poll worker =>
      rcases hwaiting : p.queue with _ | ⟨ticket, queue⟩
      · simp [events, hwaiting] at hmember
      · simp only [events, hwaiting, List.head?_cons, Option.map_some, Option.toList_some,
          List.mem_singleton] at hmember
        exact ⟨.taken, ticket, hmember ▸ rfl, by simp⟩
  | begin worker =>
      simp only [events] at hmember
      split at hmember
      · rename_i ticket _
        split at hmember
        · exact ⟨.skipped, ticket, List.mem_singleton.mp hmember ▸ rfl, by simp⟩
        · exact ⟨.started, ticket, List.mem_singleton.mp hmember ▸ rfl, by simp⟩
      · cases hmember
  | finish worker a =>
      simp only [events] at hmember
      split at hmember
      · rename_i ticket _
        exact ⟨.labeled, ticket, List.mem_singleton.mp hmember ▸ rfl, by simp⟩
      · cases hmember
  | dropQueue =>
      rcases List.mem_map.mp hmember with ⟨ticket, _, rfl⟩
      exact ⟨.dropped, ticket, rfl, by simp⟩

theorem stopped_notMem_of_own {move : Move} (hown : move.Own) : .stopped ∉ p.events move := by
  intro hstopped
  rcases marked_of_own hown hstopped with ⟨_, _, hmarked, _⟩
  cases hmarked

theorem cancelled_notMem_of_own {move : Move} (hown : move.Own) (t : Nat) :
    .cancelled t ∉ p.events move := by
  intro hcancelled
  rcases marked_of_own hown hcancelled with ⟨_, _, hmarked, _⟩
  cases hmarked

theorem times_handedOut_of_own {move : Move} (hown : move.Own) (t : Nat) :
    times .handedOut t (p.events move) = 0 := by
  by_contra hcounted
  rcases exists_of_times_pos (Nat.pos_of_ne_zero hcounted) with ⟨e, hmember, hhanded⟩
  rcases marked_of_own hown hmember with ⟨m, _, hmarked, hother⟩
  rw [hmarked] at hhanded
  cases hhanded
  exact hother rfl

end Pool

/-! ### What a caller comes to -/

namespace Caller

variable {α : Type} {form : ColoredGraph → Except Error CanonicalForm}

/-- The result that a caller comes to if every colored graph gets the given form. -/
def expects (form : ColoredGraph → Except Error CanonicalForm) : Caller α → Except Error α
  | .submitting pending rest next => do
    (next (← (pending.map Prod.fst ++ rest).mapM form)).run form
  | .taking pending forms next => do
    (next (forms ++ (← (pending.map Prod.fst).mapM form))).run form
  | .cancelling _ e => .error e
  | .finished result => result

/-- The requests whose answers a caller is going to take. -/
def pending : Caller α → List (ColoredGraph × Nat)
  | .submitting pending _ _ | .taking pending _ _ => pending
  | _ => []

/-- Whether a caller is going on with its dialogue. -/
def Going : Caller α → Prop
  | .submitting _ _ _ | .taking _ _ _ => True
  | _ => False

/-- A caller that is not going on waits for nothing. -/
theorem pending_of_not_going {c : Caller α} (hstill : ¬ c.Going) : c.pending = [] := by
  cases c with
  | submitting _ _ _ => exact absurd trivial hstill
  | taking _ _ _ => exact absurd trivial hstill
  | cancelling _ _ => rfl
  | finished _ => rfl

@[simp] theorem expects_start (d : Dialogue α) : (start d).expects form = d.run form := by
  cases d <;> rfl

@[simp] theorem pending_start (d : Dialogue α) : (start d).pending = [] := by
  cases d <;> rfl

/-- Taking the form of the first request leaves what is to come of the window. -/
theorem expects_receive {g : ColoredGraph} {ticket : Nat} {a : Answer}
    {pending : List (ColoredGraph × Nat)} {forms : List CanonicalForm}
    {next : List CanonicalForm → Dialogue α} (hown : a >>= CanonicalForm.ofOrder g = form g) :
    (receive g pending forms next a).expects form =
      (Caller.taking ((g, ticket) :: pending) forms next).expects form := by
  simp only [receive, expects, List.map_cons, List.mapM_cons, ← hown]
  cases a >>= CanonicalForm.ofOrder g with
  | ok f =>
      simp only [ok_bind, bind_assoc, pure_bind, List.append_assoc, List.singleton_append]
  | error e => rfl

theorem pending_receive {g : ColoredGraph} {a : Answer} {pending : List (ColoredGraph × Nat)}
    {forms : List CanonicalForm} {next : List CanonicalForm → Dialogue α} :
    (receive g pending forms next a).pending.Sublist pending := by
  unfold receive
  split
  · exact .refl pending
  · exact List.nil_sublist pending

end Caller

/-! ### What every step keeps -/

namespace Session

variable {α : Type}

/-- A session that is to come to a result: the pool is not stopped while the caller goes on, and whatever the
    caller waits for was accepted, and has neither been cancelled nor handed out. -/
structure Sound (labeler : Labeler) (form : ColoredGraph → Except Error CanonicalForm) (fresh : Pool)
    (result : Except Error α) (log : List Pool.Event) (s : Session α) : Prop where
  gives : labeler.Gives form
  acts : Pool.Acts labeler fresh log s.pool
  expects : s.caller.expects form = result
  running : s.caller.Going → .stopped ∉ log
  accepted : ∀ x ∈ s.caller.pending, .accepted x.2 (Canonicalizer.request x.1) ∈ log
  wanted : ∀ x ∈ s.caller.pending, .cancelled x.2 ∉ log
  waiting : ∀ x ∈ s.caller.pending, Pool.times .handedOut x.2 log = 0
  distinct : (s.caller.pending.map Prod.snd).Nodup

namespace Sound

variable {labeler : Labeler} {form : ColoredGraph → Except Error CanonicalForm} {fresh : Pool}
  {result : Except Error α} {log : List Pool.Event} {s s' : Session α} {workers room : Nat}

/-- At the beginning of a dialogue the caller waits for nothing, whatever happened in the pool before. -/
theorem begin (hgives : labeler.Gives form) {p : Pool} (hacts : Pool.Acts labeler fresh log p)
    (hrunning : .stopped ∉ log) (d : Dialogue α) :
    Sound labeler form fresh (d.run form) log ⟨.start d, p⟩ where
  gives := hgives
  acts := hacts
  expects := Caller.expects_start d
  running _ := hrunning
  accepted := by simp
  wanted := by simp
  waiting := by simp
  distinct := by simp

/-- In a fresh pool nothing has happened. -/
theorem start (d : Dialogue α) (fresh : Pool) :
    Sound .refinement Canonicalizer.form fresh (d.run Canonicalizer.form) [] ⟨.start d, fresh⟩ :=
  begin Labeler.gives_refinement .start List.not_mem_nil d

/-- Once the caller does not go on, only its result matters. -/
theorem of_not_going (hgives : labeler.Gives form) (hacts : Pool.Acts labeler fresh log s.pool)
    (hexpects : s.caller.expects form = result) (hstill : ¬ s.caller.Going) :
    Sound labeler form fresh result log s where
  gives := hgives
  acts := hacts
  expects := hexpects
  running hgoing := absurd hgoing hstill
  accepted := by simp [Caller.pending_of_not_going hstill]
  wanted := by simp [Caller.pending_of_not_going hstill]
  waiting := by simp [Caller.pending_of_not_going hstill]
  distinct := by simp [Caller.pending_of_not_going hstill]

/-- The number of a further request is a new one. -/
theorem submit (hstarted : Pool.bounded workers room = .ok fresh) {p q : Pool}
    {pending : List (ColoredGraph × Nat)} {g : ColoredGraph} {rest : List ColoredGraph}
    {next : List CanonicalForm → Dialogue α}
    (hsound : Sound labeler form fresh result log ⟨.submitting pending (g :: rest) next, p⟩)
    (hmoves : Pool.Moves labeler p (.submit (Canonicalizer.request g)) q) :
    Sound labeler form fresh result (log ++ [.accepted p.tickets.size (Canonicalizer.request g)])
      ⟨.submitting (pending ++ [(g, p.tickets.size)]) rest next, q⟩ where
  gives := hsound.gives
  acts := hsound.acts.trans hmoves.acts
  expects := by simpa [Caller.expects] using hsound.expects
  running _ := by simpa using hsound.running trivial
  accepted := by
    intro x hmember
    rcases List.mem_append.mp hmember with hold | hnew
    · exact List.mem_append_left _ (hsound.accepted x hold)
    · simp [List.mem_singleton.mp hnew]
  wanted := by
    intro x hmember
    rcases List.mem_append.mp hmember with hold | hnew
    · simpa using hsound.wanted x hold
    · have hunknown : .cancelled p.tickets.size ∉ log := fun hcancelled =>
        Nat.lt_irrefl _ (hsound.acts.lt_of_cancelled hcancelled)
      simpa [List.mem_singleton.mp hnew] using hunknown
  waiting := by
    intro x hmember
    rcases List.mem_append.mp hmember with hold | hnew
    · simp [hsound.waiting x hold, Pool.Event.mark?]
    · rcases hsound.acts.balanced hstarted p.tickets.size with ⟨hplaces, _, _, hslots⟩
      simp only [Pool.known, Nat.lt_irrefl, if_false] at hplaces
      have hunknown : Pool.times .handedOut p.tickets.size log = 0 := by omega
      simp [List.mem_singleton.mp hnew, hunknown, Pool.Event.mark?]
  distinct := by
    simp only [Caller.pending, List.map_append, List.map_cons, List.map_nil]
    refine hsound.distinct.append (List.nodup_singleton _) fun t hmember hlast => ?_
    rcases List.mem_map.mp hmember with ⟨x, hold, rfl⟩
    have hknown := ((hsound.acts.ledger hstarted).requests _ _).mp (hsound.accepted x hold)
    exact absurd hknown.1 (by simp [List.mem_singleton.mp hlast])

theorem take (hstarted : Pool.bounded workers room = .ok fresh) {p q : Pool} {g : ColoredGraph}
    {ticket : Nat} {pending : List (ColoredGraph × Nat)} {forms : List CanonicalForm}
    {next : List CanonicalForm → Dialogue α} {a : Answer}
    (hsound : Sound labeler form fresh result log ⟨.taking ((g, ticket) :: pending) forms next, p⟩)
    (hmoves : Pool.Moves labeler p (.take ticket a) q) :
    Sound labeler form fresh result (log ++ [.handedOut ticket a])
      ⟨.receive g pending forms next a, q⟩ where
  gives := hsound.gives
  acts := hsound.acts.trans hmoves.acts
  expects := by
    cases hmoves with
    | take htaken =>
        simp only [Pool.take?, Option.map_eq_some_iff, Prod.mk.injEq] at htaken
        rcases htaken with ⟨_, hthere, rfl, _⟩
        have hown := Pool.answer_of_wanted (hsound.running trivial) (hsound.acts.ledger hstarted)
          (hsound.acts.warranted hstarted) (hsound.wanted _ (List.mem_cons_self ..))
          (hsound.accepted _ (List.mem_cons_self ..)) hthere
        rw [← hsound.expects]
        exact Caller.expects_receive (hsound.gives.forms hown)
  running _ := by simpa using hsound.running trivial
  accepted x hmember := List.mem_append_left _
    (hsound.accepted x (List.mem_cons_of_mem _ (Caller.pending_receive.subset hmember)))
  wanted x hmember := by
    simpa using hsound.wanted x (List.mem_cons_of_mem _ (Caller.pending_receive.subset hmember))
  waiting := by
    intro x hmember
    have hlater := Caller.pending_receive.subset hmember
    have hother : ticket ≠ x.2 := fun hsame =>
      (List.nodup_cons.mp hsound.distinct).1 (List.mem_map.mpr ⟨x, hlater, hsame.symm⟩)
    simp [hsound.waiting x (List.mem_cons_of_mem _ hlater), Pool.Event.mark?, hother]
  distinct := (Caller.pending_receive.map Prod.snd).nodup (List.nodup_cons.mp hsound.distinct).2

theorem step (hstarted : Pool.bounded workers room = .ok fresh)
    (hsound : Sound labeler form fresh result log s) (hstep : Step labeler s s') :
    ∃ log', Sound labeler form fresh result log' s' := by
  cases hstep with
  | @pool caller move p q hown hmoves =>
      refine ⟨log ++ p.events move, hsound.gives, hsound.acts.trans hmoves.acts, hsound.expects,
        fun hgoing => ?_, ?_, ?_, ?_, hsound.distinct⟩
      · exact List.not_mem_append (hsound.running hgoing) (Pool.stopped_notMem_of_own hown)
      · exact fun x hmember => List.mem_append_left _ (hsound.accepted x hmember)
      · exact fun x hmember =>
          List.not_mem_append (hsound.wanted x hmember) (Pool.cancelled_notMem_of_own hown x.2)
      · intro x hmember
        simp only [Pool.times_append, hsound.waiting x hmember, Pool.times_handedOut_of_own hown]
  | submit hmoves => exact ⟨_, hsound.submit hstarted hmoves⟩
  | @refused _ _ _ _ p _ hrefused =>
      -- the pool was not stopped, so it refuses nothing
      have hrunning := (hsound.acts.ledger hstarted).stopping.not.mpr (hsound.running trivial)
      rw [Pool.submit, if_neg hrunning] at hrefused
      cases hrefused
  | submitted =>
      exact ⟨log, hsound.gives, hsound.acts, by simpa [Caller.expects] using hsound.expects, hsound.running,
        hsound.accepted, hsound.wanted, hsound.waiting, hsound.distinct⟩
  | take hmoves => exact ⟨_, hsound.take hstarted hmoves⟩
  | @taken forms next p =>
      have hbegun := Sound.begin hsound.gives hsound.acts (hsound.running trivial) (next forms)
      have hsame : (next forms).run form = result := by simpa [Caller.expects] using hsound.expects
      exact ⟨log, hsame ▸ hbegun⟩
  | @cancel ticket tickets e p =>
      have hmoves : Pool.Moves labeler p (.cancel ticket) (p.cancel ticket) := .cancel
      exact ⟨_, .of_not_going hsound.gives (hsound.acts.trans hmoves.acts) hsound.expects id⟩
  | cancelled => exact ⟨log, .of_not_going hsound.gives hsound.acts hsound.expects id⟩

/-- Whatever is done, the caller is to come to the result. -/
theorem reaches (hstarted : Pool.bounded workers room = .ok fresh)
    (hsound : Sound labeler form fresh result log s) (hsteps : Reaches labeler s s') :
    ∃ log', Sound labeler form fresh result log' s' := by
  induction hsteps with
  | refl => exact ⟨log, hsound⟩
  | tail _ hstep ih =>
      rcases ih with ⟨log', hsound⟩
      exact hsound.step hstarted hstep

end Sound

end Session

end PathQueryIndex
