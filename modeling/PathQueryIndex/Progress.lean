/-
Module: PathQueryIndex.Progress
Layer: Core
Purpose: Computations that report their progress. A report never changes a result; it is the list of
  events up to the end, or up to the error that ends the computation early. Layers and path lengths are
  counted from one.
Imports: PathQueryIndex.Error
Main exports: Event, Event.text, Traced, Traced.emit, Traced.lift
-/
import PathQueryIndex.Error

namespace PathQueryIndex

/-- What a construction reports. -/
inductive Event where
  | partitionStart (layer : Nat)
  | partitionEnd (layer : Nat)
  | combinationStart (first second : Nat)
  | combinationEnd (first second : Nat)
  | blocksStart (layer : Nat)
  | blocksEnd (layer : Nat)
  | coresStart (layer : Nat)
  | coresEnd (layer : Nat)
  | coresDone (done total : Nat)
  | mapStart
  | mapEnd
deriving DecidableEq, Repr

/-- The name of an event and its numbers. -/
def Event.text : Event → String
  | .partitionStart layer => s!"partition_start {layer}"
  | .partitionEnd layer => s!"partition_end {layer}"
  | .combinationStart first second => s!"combination_start {first} {second}"
  | .combinationEnd first second => s!"combination_end {first} {second}"
  | .blocksStart layer => s!"blocks_start {layer}"
  | .blocksEnd layer => s!"blocks_end {layer}"
  | .coresStart layer => s!"cores_start {layer}"
  | .coresEnd layer => s!"cores_end {layer}"
  | .coresDone done total => s!"cores_blocks_done {done} {total}"
  | .mapStart => "map_start"
  | .mapEnd => "map_end"

/-- An outcome and the events before it. -/
structure Traced (α : Type) where
  events : List Event
  result : Except Error α

namespace Traced

variable {α β : Type}

/-- Go on with a result, unless there is none. -/
def andThen (x : Traced α) (f : α → Traced β) : Traced β :=
  match x.result with
  | .ok a =>
    let y := f a
    ⟨x.events ++ y.events, y.result⟩
  | .error e => ⟨x.events, .error e⟩

instance : Monad Traced where
  pure a := ⟨[], .ok a⟩
  bind := andThen

/-- Report an event. -/
def emit (e : Event) : Traced Unit := ⟨[e], .ok ()⟩

/-- A computation that reports nothing. -/
def lift (x : Except Error α) : Traced α := ⟨[], x⟩

@[simp] theorem result_pure (a : α) : (pure a : Traced α).result = .ok a := rfl

@[simp] theorem result_lift (x : Except Error α) : (lift x).result = x := rfl

@[simp] theorem result_emit (e : Event) : (emit e).result = .ok () := rfl

/-- The result of a sequence is the sequence of the results. -/
@[simp] theorem result_bind (x : Traced α) (f : α → Traced β) :
    (x >>= f).result = x.result >>= fun a => (f a).result := by
  change (andThen x f).result = _
  unfold andThen
  cases x.result <;> rfl

end Traced

end PathQueryIndex
