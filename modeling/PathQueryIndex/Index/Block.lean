/-
Module: PathQueryIndex.Index.Block
Layer: Index
Purpose: Blocks: sets of pairs that no query of the depth of the index can tell apart.
Imports: PathQueryIndex.Index.CoreSet, PathQueryIndex.Pair
Main exports: Block, Block.isLoop
-/
import PathQueryIndex.Index.CoreSet
import PathQueryIndex.Pair

namespace PathQueryIndex

/-- Pairs that cannot be told apart: the id of the run they come from, the layer of that run counted
    from one, the label sequences of the walks between each pair, and, if asked for, cores. -/
structure Block where
  id : Nat
  layer : Nat
  pairs : List Pair
  labels : OrderedSet LabelSequence
  cores : List Core
  coreHashes : OrderedSet CoreHash

namespace Block

instance : Inhabited Block := ⟨⟨0, 0, [], .empty, [], .empty⟩⟩

/-- Whether the pairs are loops. -/
def isLoop (b : Block) : Bool := b.pairs.head?.any Pair.isLoop

end Block

end PathQueryIndex
