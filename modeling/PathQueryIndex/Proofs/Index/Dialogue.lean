/-
Module: PathQueryIndex.Proofs.Index.Dialogue
Layer: Proofs
Purpose: The number of workers leaves no trace in an index. The built-in labeler answers a request in one
  way, whatever number it has, so batches and windows are cut off again: a set of cores takes in the cores
  of its queries one by one. The construction as a dialogue, with windows of any size, therefore comes to
  the result of the construction with any number of workers.
Imports: PathQueryIndex.Index.Dialogue, PathQueryIndex.Proofs.Index.CoreSets
Main exports: Canonicalizer.form, CoreSet.absorb_ofWorkers, Dialogue.run_bind, Index.run_building
-/
import PathQueryIndex.Index.Dialogue
import PathQueryIndex.Proofs.Index.CoreSets

namespace PathQueryIndex

/-! ### One query after the other -/

namespace Canonicalizer

/-- The form that the built-in labeler gives to a colored graph. -/
def form (g : ColoredGraph) : Except Error CanonicalForm := do
  CanonicalForm.ofOrder g (← canonicalOrder (request g) false)

variable {c : Canonicalizer} {own : ColoredGraph → Except Error CanonicalForm} {workers : Nat}
  {timeout : Option Nat}

section

variable (hsame : ∀ number g, c.resolve number g = own g)

include hsame

/-- If forms do not depend on the numbers of requests, a window has the forms of its graphs, -/
theorem resolveWindow_eq (number : Nat) (graphs : List ColoredGraph) :
    c.resolveWindow number graphs = graphs.mapM own := by
  have hplain : (fun (x : ColoredGraph × Nat) => c.resolve x.2 x.1) = own ∘ Prod.fst :=
    funext fun x => hsame x.2 x.1
  rw [resolveWindow, hplain, ← List.mapM_map, List.zipIdx_map_fst]

theorem resolveWindows_eq (number : Nat) (windows : List (List ColoredGraph)) :
    c.resolveWindows number windows = windows.flatten.mapM own := by
  induction windows generalizing number with
  | nil => rfl
  | cons graphs windows ih =>
      simp only [resolveWindows, resolveWindow_eq hsame, ih, List.flatten_cons, List.mapM_append]

/-- and so has a batch, wherever its windows end. -/
theorem resolveAll_eq (number : Nat) (patterns : List Pattern) :
    c.resolveAll number patterns = (patterns.map ColoredGraph.ofPattern).mapM own := by
  rw [resolveAll, resolveWindows_eq hsame, flatten_chunks]

end

theorem resolve_ofWorkers (number : Nat) (g : ColoredGraph) :
    (ofWorkers workers timeout).resolve number g = form g := rfl

end Canonicalizer

namespace CoreSet

/-- The set with the core of one more query, given with its pattern. -/
def absorbOne (set : CoreSet) (item : Query × Pattern) : Except Error CoreSet := do
  let form ← Canonicalizer.form (ColoredGraph.ofPattern item.2)
  return { set with requests := set.requests + 1 }.insert ⟨item.1, form.code⟩

/-- Taking in a batch when its forms are there. -/
def insertBatch (set : CoreSet) (batch : List (Query × Pattern)) (forms : List CanonicalForm) :
    CoreSet :=
  (batch.zip forms).foldl (fun set (item, form) => set.insert ⟨item.1, form.code⟩)
    { set with requests := set.requests + batch.length }

theorem insert_requests (set : CoreSet) (core : Core) (n : Nat) :
    { set with requests := n }.insert core = { set.insert core with requests := n } := by
  unfold insert
  split <;> rfl

/-- A batch is taken in query by query. -/
theorem absorb_batch (set : CoreSet) (batch : List (Query × Pattern)) :
    (((batch.map Prod.snd).map ColoredGraph.ofPattern).mapM Canonicalizer.form >>=
      fun forms => pure (insertBatch set batch forms)) = batch.foldlM absorbOne set := by
  induction batch generalizing set with
  | nil => rfl
  | cons item batch ih =>
      simp only [List.map_cons, List.mapM_cons, List.foldlM_cons, absorbOne, bind_assoc, pure_bind,
        ← ih]
      congr 1
      funext form
      congr 1
      funext forms
      simp only [insertBatch, List.zip_cons_cons, List.foldl_cons, List.length_cons, insert_requests,
        Nat.add_assoc, Nat.add_comm 1]

/-- Folding list by list folds all of them. -/
theorem foldlM_flatten {α β : Type} (f : β → α → Except Error β) (lists : List (List α)) (b : β) :
    lists.foldlM (fun b list => list.foldlM f b) b = lists.flatten.foldlM f b := by
  induction lists generalizing b with
  | nil => rfl
  | cons list lists ih => simp only [List.foldlM_cons, List.flatten_cons, List.foldlM_append, ih]

/-- Queries are taken in one by one, whatever the number of workers. -/
theorem absorb_ofWorkers (workers : Nat) (timeout : Option Nat) (set : CoreSet)
    (items : List (Query × Pattern)) :
    set.absorb (.ofWorkers workers timeout) items = items.foldlM absorbOne set := by
  have hbatch : absorbBatch (.ofWorkers workers timeout) = fun set batch =>
      batch.foldlM absorbOne set := by
    funext set batch
    rw [← absorb_batch, absorbBatch, Canonicalizer.resolveAll_eq Canonicalizer.resolve_ofWorkers]
    rfl
  rw [absorb, hbatch, foldlM_flatten, flatten_chunks]

end CoreSet

theorem ok_bind {α β : Type} (a : α) (f : α → Except Error β) : (Except.ok a >>= f) = f a := rfl

theorem bind_ok {α : Type} (x : Except Error α) : (x >>= fun a => Except.ok a) = x := bind_pure x

/-! ### Dialogues -/

namespace Dialogue

variable {α β : Type} {form : ColoredGraph → Except Error CanonicalForm}

@[simp] theorem run_pure (a : α) : (pure a : Dialogue α).run form = pure a := rfl

@[simp] theorem run_done (result : Except Error α) : (done result).run form = result := rfl

/-- The result of a sequence is the sequence of the results. -/
@[simp] theorem run_bind (x : Dialogue α) (f : α → Dialogue β) :
    (x >>= f).run form = x.run form >>= fun a => (f a).run form := by
  change (x.andThen f).run form = _
  induction x with
  | done result => cases result <;> rfl
  | ask graphs next ih => simp only [andThen, run, bind_assoc, ih]

@[simp] theorem run_ite (p : Prop) [Decidable p] (x y : Dialogue α) :
    (if p then x else y).run form = if p then x.run form else y.run form := by
  split <;> rfl

theorem run_foldlM (f : β → α → Dialogue β) (xs : List α) (b : β) :
    (xs.foldlM f b).run form = xs.foldlM (fun b x => (f b x).run form) b := by
  induction xs generalizing b with
  | nil => rfl
  | cons x xs ih => simp only [List.foldlM_cons, run_bind, ih]

/-- The windows are cut off. -/
theorem run_forms (windows : List (List ColoredGraph)) :
    (forms windows).run form = windows.flatten.mapM form := by
  induction windows with
  | nil => rfl
  | cons graphs windows ih =>
      have hfirst : (ask graphs pure).run form = graphs.mapM form := bind_pure _
      simp only [forms, run_bind, hfirst, ih, run_pure, List.flatten_cons, List.mapM_append]

end Dialogue

section

variable (window workers : Nat) (timeout : Option Nat)

namespace CoreSet

theorem run_absorbing (set : CoreSet) (items : List (Query × Pattern)) :
    (set.absorbing window items).run Canonicalizer.form =
      set.absorb (.ofWorkers workers timeout) items := by
  have hbatch : (fun set batch => (absorbingBatch window set batch).run Canonicalizer.form) =
      fun set batch => batch.foldlM absorbOne set := by
    funext set batch
    rw [← absorb_batch, absorbingBatch, Dialogue.run_bind, Dialogue.run_forms, flatten_chunks]
    rfl
  rw [absorb_ofWorkers, absorbing, Dialogue.run_foldlM, hbatch, foldlM_flatten, flatten_chunks]

theorem run_closing (limit : Option Nat) (inherited : Nat) (set : CoreSet) :
    (set.closing window limit inherited).run Canonicalizer.form =
      set.close (.ofWorkers workers timeout) limit inherited := by
  simp only [closing, close, Dialogue.run_bind, Dialogue.run_ite, Dialogue.run_pure,
    run_absorbing window workers timeout]

theorem run_anchoring (inherited : Nat) (set : CoreSet) :
    (set.anchoring window inherited).run Canonicalizer.form =
      set.anchor (.ofWorkers workers timeout) inherited :=
  run_absorbing window workers timeout _ _

end CoreSet

namespace Builder

theorem run_basing (b : Builder) (draft : Draft) :
    (b.basing window draft).run Canonicalizer.form =
      b.baseCores (.ofWorkers workers timeout) draft := by
  simp only [basing, baseCores, Dialogue.run_bind, Dialogue.run_ite, Dialogue.run_pure,
    CoreSet.run_absorbing window workers timeout]

theorem run_coring (limit : Option Nat) (b : Builder) (draft : Draft) :
    (b.coring window limit draft).run Canonicalizer.form =
      b.coresOf (.ofWorkers workers timeout) limit draft := by
  simp only [coring, coresOf, Dialogue.run_bind, Dialogue.run_ite, Dialogue.run_pure,
    run_basing window workers timeout, CoreSet.run_closing window workers timeout,
    CoreSet.run_anchoring window workers timeout]

theorem run_addingCores (limit : Option Nat) (b : Builder) (number : Nat) :
    (b.addingCores window limit number).run Canonicalizer.form =
      b.addCores (.ofWorkers workers timeout) limit number := by
  simp only [addingCores, addCores, Dialogue.run_bind, Dialogue.run_pure,
    run_coring window workers timeout]

theorem run_addingLayer (cores : Bool) (limit : Option Nat) (p : Partition) (b : Builder)
    (layer : Nat) :
    (b.addingLayer window cores limit p layer).run Canonicalizer.form =
      (b.addLayer (if cores then some (.ofWorkers workers timeout) else none) limit p
        layer).result := by
  cases cores
  · simp only [addingLayer, addLayer, Bool.false_eq_true, if_false, Dialogue.run_bind,
      Dialogue.run_done, Dialogue.run_pure, Traced.result_bind, Traced.result_lift,
      Traced.result_emit, Traced.result_pure, ok_bind]
    rfl
  · simp only [addingLayer, addLayer, addLayerCores, if_true, Dialogue.run_bind, Dialogue.run_done,
      Dialogue.run_foldlM, run_addingCores window workers timeout, Traced.result_bind,
      Traced.result_lift, Traced.result_foldlM, Traced.result_emit, Traced.result_pure, ok_bind,
      bind_ok]

end Builder

end

namespace Index

variable {o : Options} {threads : Nat} (hthreads : o.threads ≠ 0) (hthreads' : threads ≠ 0)

include hthreads hthreads'

theorem validate_threads : { o with threads }.validate = o.validate := by
  simp only [Options.validate, hthreads, hthreads', if_false]

theorem run_assembling (p : Partition) :
    (assembling p o).run Canonicalizer.form = (ofPartition p { o with threads }).result := by
  have hlayer (b : Builder) (i : Nat) := Builder.run_addingLayer (canonicalizer o).window threads
    o.timeout o.cores o.maxIntersections p b i
  by_cases hempty : p.depth = 0
  · simp only [assembling, ofPartition, assemble, hempty, if_true, Dialogue.run_bind,
      Dialogue.run_done, Traced.result_bind, Traced.result_lift, validate_threads hthreads hthreads']
    rfl
  · have hreported (x : Index × Nat) : (if o.cores = true then do
        Traced.emit .mapStart
        Traced.emit .mapEnd
        pure x
      else pure x : Traced (Index × Nat)).result = .ok x := by split <;> rfl
    simp only [assembling, ofPartition, assemble, Builder.ofPartition, hempty, if_false,
      Dialogue.run_bind, Dialogue.run_done, Dialogue.run_foldlM, Dialogue.run_pure, hlayer,
      Traced.result_bind, Traced.result_lift, Traced.result_pure, Traced.result_foldlM, hreported,
      bind_assoc, ok_bind, validate_threads hthreads hthreads']
    rfl

/-- The construction as a dialogue, in which every colored graph gets the form of the built-in labeler,
    comes to the result of the construction with any number of workers. -/
theorem run_building (g : Graph) :
    (building g o).run Canonicalizer.form = (build g { o with threads }).result := by
  simp only [building, build, Dialogue.run_bind, Dialogue.run_done, run_assembling hthreads hthreads',
    Traced.result_bind, Traced.result_lift, validate_threads hthreads hthreads']

end Index

end PathQueryIndex
