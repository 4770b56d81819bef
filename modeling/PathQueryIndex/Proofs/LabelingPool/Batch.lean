/-
Module: PathQueryIndex.Proofs.LabelingPool.Batch
Layer: Proofs
Purpose: What canonicalization comes to. With a labeler that answers by a function a pool leaves no trace in
  forms: from any state of a running pool a query gets the form in the order of the function, and a batch gets
  what its items get one by one, or the error of the first of them that fails, wherever its windows end and
  whatever finishes first.
Imports: PathQueryIndex.LabelingPool.Batch, PathQueryIndex.Proofs.LabelingPool.Progress
Main exports: Labeler.gives_ofFunction, Session.settles, batches_settle_item_by_item
-/
import PathQueryIndex.LabelingPool.Batch
import PathQueryIndex.Proofs.LabelingPool.Progress

namespace PathQueryIndex

variable {order : LabelingRequest → Answer} {labeler : Labeler}
  {form : ColoredGraph → Except Error CanonicalForm} {workers room : Nat} {moves : List Pool.Move}
  {p : Pool}

theorem Labeler.gives_ofFunction (order : LabelingRequest → Answer) :
    (Labeler.ofFunction order).Gives (Canonicalizer.formBy order) where
  answers _ _ := ⟨_, rfl⟩
  forms hanswered := by
    cases hanswered
    rfl

/-- In a pool that is running every dialogue settles on its result, whatever happened in the pool before. -/
theorem Session.settles {α : Type} (hgives : labeler.Gives form)
    (hreached : Pool.Reachable labeler workers room moves p) (hrunning : p.stopping = false)
    (d : Dialogue α) : Settles labeler p d (· = d.run form) := by
  rcases hreached with ⟨fresh, hstarted, hrun⟩
  rcases Pool.exists_log_of_run hrun with ⟨log, hrecorded⟩
  have hopen : .stopped ∉ log := by
    rw [← (hrecorded.acts.ledger hstarted).stopping, hrunning]
    exact Bool.false_ne_true
  intro s hsteps
  rcases (Sound.begin hgives hrecorded.acts hopen d).reaches hstarted hsteps with ⟨log', hsound⟩
  refine ⟨finishes_of_sound hstarted hsound, fun r hfinished => ?_⟩
  rw [← hsound.expects, hfinished]
  rfl

theorem Session.Settles.imp {α : Type} {d : Dialogue α} {result result' : Except Error α → Prop}
    (hsettles : Settles labeler p d result) (hweaker : ∀ r, result r → result' r) :
    Settles labeler p d result' :=
  fun s hsteps => ⟨(hsettles s hsteps).1, fun r hfinished => hweaker r ((hsettles s hsteps).2 r hfinished)⟩

namespace Dialogue

/-- A query on its own comes to the form of its pattern. -/
theorem run_canonicalizing (q : Query) (isCore : Bool) :
    (canonicalizing q isCore).run form =
      (form (.ofPattern (canonicalPattern q isCore))).map fun form => [form] := by
  have hwindow : (canonicalizing q isCore).run form =
      [ColoredGraph.ofPattern (canonicalPattern q isCore)].mapM form := bind_pure _
  rw [hwindow, List.mapM_cons]
  exact bind_pure_comp ..

/-- Where the windows end does not matter. -/
theorem run_resolvingAll (workers : Nat) (graphs : List ColoredGraph) :
    (resolvingAll workers graphs).run form = graphs.mapM form := by
  rw [resolvingAll, run_forms, flatten_chunks]

end Dialogue

/-- Every schedule, every window and every number of workers lead to what the items of a batch come to on their
    own. -/
theorem batches_settle_item_by_item (order : LabelingRequest → Answer)
    (hreached : Pool.Reachable (.ofFunction order) workers room moves p) (hrunning : p.stopping = false) :
    let ofCore := fun core : Pattern => Canonicalizer.formBy order (.ofPattern core)
    let ofQuery := fun (isCore : Bool) (q : Query) => ofCore (canonicalPattern q isCore)
    -- a query on its own gets one form, or fails with one error
    (∀ q isCore, Session.Settles (.ofFunction order) p (.canonicalizing q isCore) fun r =>
      r = (ofQuery isCore q).map fun form => [form]) ∧
    -- batches of queries and of folded patterns get the forms of their items, or fail like the first that fails
    (∀ queries isCore, Session.Settles (.ofFunction order) p (.canonicalizingAll workers queries isCore)
      (FirstFailure (ofQuery isCore) queries)) ∧
    (∀ cores, Session.Settles (.ofFunction order) p (.canonicalizingCores workers cores)
      (FirstFailure ofCore cores)) ∧
    -- and so does a canonicalizer that resolves them without a pool
    ∀ number timeout cores, FirstFailure ofCore cores
      ((⟨.ofFunction order, workers, timeout⟩ : Canonicalizer).resolveAll number cores) := by
  intro ofCore ofQuery
  have hsettles := fun d : Dialogue (List CanonicalForm) =>
    Session.settles (Labeler.gives_ofFunction order) hreached hrunning d
  have hbatch : ∀ {α : Type} (graphOf : α → ColoredGraph) (items : List α),
      FirstFailure (fun x => Canonicalizer.formBy order (graphOf x)) items
        ((items.map graphOf).mapM (Canonicalizer.formBy order)) := by
    intro α graphOf items
    rw [List.mapM_map]
    exact firstFailure_mapM _ items
  refine ⟨fun q isCore => ?_, fun queries isCore => ?_, fun cores => ?_, fun number timeout cores => ?_⟩
  · exact (hsettles _).imp fun r hsame => hsame.trans (Dialogue.run_canonicalizing q isCore)
  · refine (hsettles _).imp fun r hsame => ?_
    rw [hsame, Dialogue.canonicalizingAll, Dialogue.run_resolvingAll]
    exact hbatch _ queries
  · refine (hsettles _).imp fun r hsame => ?_
    rw [hsame, Dialogue.canonicalizingCores, Dialogue.run_resolvingAll]
    exact hbatch _ cores
  · have hsame : ∀ number g, Canonicalizer.resolve ⟨.ofFunction order, workers, timeout⟩ number g =
        Canonicalizer.formBy order g := fun _ _ => rfl
    rw [Canonicalizer.resolveAll_eq hsame]
    exact hbatch _ cores

/-- Two queries in a pool whose only worker holds a cancelled request of somebody else. -/
theorem batches_settle_item_by_item_after_cancel :
    let order : LabelingRequest → Answer := fun r => .ok (List.range r.rows.length)
    let queries : List Query := [.label ⟨0, false⟩, .concat (.label ⟨40, false⟩) .identity]
    ∃ p, Pool.Reachable (.ofFunction order) 1 4 [.submit ⟨[[]], [-1]⟩, .check 0, .poll 0, .cancel 0] p ∧
      p.stopping = false ∧
      Session.Settles (.ofFunction order) p (.canonicalizingAll 1 queries false)
        (FirstFailure (fun q => Canonicalizer.formBy order (.ofPattern (canonicalPattern q false))) queries) := by
  intro order queries
  have hreached : ∃ p, Pool.Reachable (.ofFunction order) 1 4
      [.submit ⟨[[]], [-1]⟩, .check 0, .poll 0, .cancel 0] p ∧ p.stopping = false :=
    ⟨_, ⟨_, rfl, Pool.Run.start |>.step (.submit (by decide) rfl) |>.step (.check rfl) |>.step (.poll rfl)
      |>.step .cancel⟩, rfl⟩
  rcases hreached with ⟨p, hreached, hrunning⟩
  exact ⟨p, hreached, hrunning, (batches_settle_item_by_item order hreached hrunning).2.1 queries false⟩

end PathQueryIndex
