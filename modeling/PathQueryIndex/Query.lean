/-
Module: PathQueryIndex.Query
Layer: Core
Purpose: Conjunctive path queries. A query relates a source to a target: the identity, one step along a
  label, one query after another, or two queries between the same ends. Its diameter is the length of
  the longest path that it asks for.
Imports: PathQueryIndex.Error
Main exports: Query, Query.path, Query.intersectAll?, Query.diameter, Query.text
-/
import PathQueryIndex.Error

namespace PathQueryIndex

/-- A conjunctive path query. -/
inductive Query where
  | identity
  | label (l : Label)
  | concat (first second : Query)
  | intersect (left right : Query)
deriving DecidableEq, Repr, Inhabited

namespace Query

/-- Join queries from the left, starting from the first. -/
def joinLeft (join : Query → Query → Query) : List Query → Option Query
  | [] => none
  | q :: qs => some (qs.foldl join q)

/-- The query that follows a sequence of labels, nested to the left. -/
def path (s : LabelSequence) : Query :=
  (joinLeft concat (s.labels.map label)).getD identity

/-- The intersection of some queries, nested to the left. -/
def intersectAll? (qs : List Query) : Option Query := joinLeft intersect qs

/-- The length of the longest path that the query asks for. -/
def diameter : Query → Nat
  | identity => 0
  | label _ => 1
  | concat first second => first.diameter + second.diameter
  | intersect left right => max left.diameter right.diameter

/-- The displayed form: both operators in parentheses, blanks around an intersection only. -/
def chars : Query → List Char
  | identity => ['i', 'd']
  | label l => l.chars
  | concat first second => '(' :: first.chars ++ '◦' :: second.chars ++ [')']
  | intersect left right => '(' :: left.chars ++ ' ' :: '∩' :: ' ' :: right.chars ++ [')']

/-- The displayed form of a query. -/
def text (q : Query) : String := String.ofList q.chars

end Query

end PathQueryIndex
