/-
Module: PathQueryIndex.Index.CoreSet
Layer: Index
Purpose: The cores of a block. A core is a query with the code of its canonical form; of queries with
  the same code, the first one stays. Queries are canonicalized in batches, and the number of requests
  so far is kept, since it numbers the next one.
Imports: PathQueryIndex.Canonicalizer
Main exports: Core, CoreSet, CoreSet.insert, CoreSet.absorb
-/
import PathQueryIndex.Canonicalizer

namespace PathQueryIndex

/-- A query that holds for the pairs of a block, and the code of its canonical form. -/
structure Core where
  query : Query
  hash : CoreHash
deriving DecidableEq, Repr

/-- Cores with different codes, in the order in which they were found, and the number of labeling
    requests so far. -/
structure CoreSet where
  cores : Array Core
  hashes : OrderedSet CoreHash
  requests : Nat

namespace CoreSet

/-- No cores, after some requests. -/
def empty (requests : Nat) : CoreSet := ⟨#[], .empty, requests⟩

/-- The set with one more core, unless its code is there already. -/
def insert (set : CoreSet) (core : Core) : CoreSet :=
  if set.hashes.contains core.hash then set
  else { set with cores := set.cores.push core, hashes := set.hashes.insert core.hash }

/-- The set with the cores of one batch of queries, each given with its pattern. -/
def absorbBatch (c : Canonicalizer) (set : CoreSet) (batch : List (Query × Pattern)) :
    Except Error CoreSet := do
  let forms ← c.resolveAll set.requests (batch.map Prod.snd)
  let set := { set with requests := set.requests + batch.length }
  return (batch.zip forms).foldl (fun set (item, form) => set.insert ⟨item.1, form.code⟩) set

/-- The set with the cores of some queries, each given with the pattern that stands for it. -/
def absorb (c : Canonicalizer) (set : CoreSet) (items : List (Query × Pattern)) :
    Except Error CoreSet :=
  (chunks (c.window - 1) items).foldlM (absorbBatch c) set

end CoreSet

end PathQueryIndex
