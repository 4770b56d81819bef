/-
Module: PathQueryIndex.Index.Options
Layer: Index
Purpose: What an index is asked to hold: its depth, whether blocks get cores, and how many cores are
  intersected at most. The number of labeling workers and the longest wait for a labeling are settings
  of the construction only.
Imports: PathQueryIndex.Error
Main exports: Options, Options.validate
-/
import PathQueryIndex.Error

namespace PathQueryIndex

/-- The settings of a construction. -/
structure Options where
  depth : Nat
  cores : Bool
  maxIntersections : Option Nat
  threads : Nat
  timeout : Option Nat
deriving DecidableEq, Repr

namespace Options

/-- The depth of an index unless another one is asked for. -/
def defaultDepth : Nat := 2

/-- Fail unless every setting is in its range. -/
def validate (o : Options) : Except Error Unit := do
  if o.depth = 0 then throw (.argument .depth)
  if o.threads = 0 then throw (.argument .threads)
  if let some limit := o.maxIntersections then
    if limit < 2 then throw (.argument (.intersectionLimit limit))

end Options

end PathQueryIndex
