/-
Module: PathQueryIndex.Proofs.Index.Drafts
Layer: Proofs
Purpose: What every step of the construction of the blocks does. A run becomes one more draft, which takes
  the pairs of the run over; cores are put into a draft without a change to anything else. Whatever the
  steps keep holds of every constructed builder, and so every run of the partition has its draft, and a
  pair is held by the draft of the newest run with the pair.
Imports: PathQueryIndex.Index.Builder, PathQueryIndex.Proofs.Lookup, PathQueryIndex.Proofs.Partition.Runs
Main exports: Block.bare, Builder.blockAt, Builder.Appends, Builder.appends_of_addBlock,
  Builder.addCores_eq_ok, Builder.ofPartition_induction
-/
import PathQueryIndex.Index.Builder
import PathQueryIndex.Proofs.Lookup
import PathQueryIndex.Proofs.Partition.Runs

namespace PathQueryIndex

open Std

/-- A block before its cores are computed. -/
def Block.bare (block : Block) : Block := { block with cores := [], coreHashes := .empty }

/-- A block with the id, the layer and the pairs of a run. -/
structure LayerRun.Describes (r : LayerRun) (block : Block) : Prop where
  id_eq : block.id = r.id
  layer_eq : block.layer = r.layer + 1
  pairs_eq : block.pairs = r.pairs

namespace Builder

variable {b b' : Builder} {p : Partition} {r : LayerRun} {block : Block} {i j n : Nat} {pair : Pair}
  {last : Bool} {c : Canonicalizer} {limit : Option Nat}

/-- The block of a draft, its cores left out. -/
def blockAt (b : Builder) (j : Nat) : Option Block := b.drafts[j]?.map fun draft => draft.block.bare

/-! ### One more draft -/

/-- Builder `b'` has one more block, made of a run: it has the labels of the first segment of the run and
    those of the blocks that hold pairs of the run, and it takes these pairs over. -/
structure Appends (b : Builder) (r : LayerRun) (last : Bool) (block : Block) (b' : Builder) :
    Prop where
  describes : r.Describes block
  mem_labels : ∀ ls, ls ∈ block.labels ↔ (∃ s, r.segments.head? = some s ∧ ls ∈ s.labels) ∨
    ∃ pair ∈ r.pairs, ∃ i, b.holder[pair]? = some i ∧
      ∃ other, b.blockAt i = some other ∧ ls ∈ other.labels
  size_eq : b'.drafts.size = b.drafts.size + 1
  blockAt_self : b'.blockAt b.drafts.size = some block
  blockAt_of_lt : ∀ j < b.drafts.size, b'.blockAt j = b.blockAt j
  getElem?_holder : ∀ pair, b'.holder[pair]? =
    if pair ∈ r.pairs then (if last then none else some b.drafts.size) else b.holder[pair]?
  finals_eq : b'.finals = if last then b.finals ++ [b.drafts.size] else b.finals

/-- The blocks that a run takes pairs over from are those that hold one of its pairs. -/
theorem mem_inherited {pairs : List Pair} :
    i ∈ (OrderedSet.ofList (pairs.filterMap fun p => b.holder[p]?)).toList ↔
      ∃ pair ∈ pairs, b.holder[pair]? = some i := by
  rw [← OrderedSet.mem_iff, OrderedSet.mem_ofList, List.mem_filterMap]

theorem mem_labels_getD {ls : LabelSequence} :
    ls ∈ (b.drafts.getD i default).block.labels ↔
      ∃ block, b.blockAt i = some block ∧ ls ∈ block.labels := by
  rw [Array.getD_eq_getD_getElem?, blockAt]
  cases b.drafts[i]? with
  | none =>
      constructor
      · intro h
        cases h
      · intro h
        obtain ⟨_, h, _⟩ := h
        cases h
  | some draft =>
      constructor
      · intro h
        exact ⟨_, rfl, h⟩
      · intro h
        obtain ⟨_, h, hls⟩ := h
        cases h
        exact hls

/-- The step: one more block. -/
theorem appends_of_addBlock (h : addBlock r.layer last b r.segments = .ok b') :
    ∃ block, b.Appends r last block b' := by
  obtain ⟨layer, run⟩ := r
  cases run with
  | nil => cases h
  | cons s run =>
      obtain ⟨joins, _, h⟩ := bind_eq_ok.1 h
      cases h
      refine ⟨⟨s.id, layer + 1, (s :: run).map Segment.pair, .ofList (s.labels.toList ++
          (OrderedSet.ofList ((s :: run).map Segment.pair |>.filterMap
            fun p => b.holder[p]?)).toList.flatMap
              fun i => (b.drafts.getD i default).block.labels.toList), [], .empty⟩,
        ⟨⟨rfl, rfl, rfl⟩, ?_, Array.size_push .., ?_, ?_, ?_, rfl⟩⟩
      · intro ls
        rw [OrderedSet.mem_ofList, List.mem_append, List.mem_flatMap]
        constructor
        · intro hls
          rcases hls with hls | ⟨i, hi, hls⟩
          · exact .inl ⟨s, rfl, hls⟩
          · obtain ⟨pair, hpair, hi⟩ := mem_inherited.1 hi
            exact .inr ⟨pair, hpair, i, hi, mem_labels_getD.1 hls⟩
        · intro hls
          rcases hls with ⟨t, ht, hls⟩ | ⟨pair, hpair, i, hi, hls⟩
          · cases ht
            exact .inl hls
          · exact .inr ⟨i, mem_inherited.2 ⟨pair, hpair, hi⟩, mem_labels_getD.2 hls⟩
      · simp only [blockAt, Array.getElem?_push_size, Option.map_some]
        rfl
      · intro j hj
        simp only [blockAt, Array.getElem?_push, Nat.ne_of_lt hj, if_false]
      · intro pair
        cases last with
        | true => exact getElem?_foldl_erase
        | false => exact getElem?_foldl_insert_const

/-! ### Cores -/

/-- Cores go into one draft, and nothing else changes. -/
theorem addCores_eq_ok (h : b.addCores c limit n = .ok b') :
    b'.blockAt = b.blockAt ∧ b'.drafts.size = b.drafts.size ∧ b'.holder = b.holder ∧
      b'.finals = b.finals := by
  obtain ⟨set, _, h⟩ := bind_eq_ok.1 h
  cases h
  refine ⟨funext fun j => ?_, Array.size_setIfInBounds, rfl, rfl⟩
  simp only [blockAt, Array.getElem?_setIfInBounds]
  by_cases hj : n = j
  · subst hj
    by_cases hn : n < b.drafts.size
    · rw [if_pos rfl, if_pos hn, Array.getElem?_eq_getElem hn]
      simp only [Option.map_some, Array.getD, hn, dite_true]
      rfl
    · rw [if_pos rfl, if_neg hn, Array.getElem?_eq_none (Nat.le_of_not_lt hn)]
  · rw [if_neg hj]

/-! ### The whole construction -/

section Induction

variable {motive : List LayerRun → Builder → Prop}

/-- Cores of many blocks keep what cores of one block keep. -/
theorem addLayerCores_keeps {done : List LayerRun} {layer first : Nat}
    (cores : ∀ b b' n, addCores c limit b n = .ok b' → motive done b → motive done b')
    (h : (b.addLayerCores c limit layer first).result = .ok b') (hb : motive done b) :
    motive done b' := by
  simp only [addLayerCores, Traced.bind_eq_ok, Traced.result_emit, Traced.result_pure,
    Traced.result_foldlM] at h
  obtain ⟨_, _, d, hfold, _, _, hd⟩ := h
  cases hd
  have hsteps := foldlM_induction (motive := fun _ b => motive done b) ?_ hfold hb
  · exact hsteps
  · intro _ x b b' _ hstep hb
    simp only [Traced.bind_eq_ok, Traced.result_emit, Traced.result_lift, Traced.result_pure] at hstep
    obtain ⟨d, hstep, _, _, hd⟩ := hstep
    cases hd
    exact cores _ _ _ hstep hb

/-- What the steps keep, a layer keeps. -/
theorem addLayer_keeps {oc : Option Canonicalizer}
    (block : ∀ done r b b', done ++ [r] <+: p.runsUpTo p.depth →
      addBlock r.layer (r.layer + 1 == p.depth) b r.segments = .ok b' → motive done b →
      motive (done ++ [r]) b')
    (owners : ∀ done b os, motive done b → motive done { b with owners := os })
    (cores : ∀ c ∈ oc, ∀ done b b' n, addCores c limit b n = .ok b' → motive done b → motive done b')
    (hn : n < p.depth) (h : (addLayer oc limit p b n).result = .ok b')
    (hb : motive (p.runsUpTo n) b) : motive (p.runsUpTo (n + 1)) b' := by
  simp only [addLayer, Traced.bind_eq_ok, Traced.result_emit, Traced.result_lift] at h
  obtain ⟨_, _, d, hfold, _, _, h⟩ := h
  have hblocks : motive (p.runsUpTo (n + 1)) d := by
    have hsteps := foldlM_induction
      (motive := fun pre b => motive (p.runsUpTo n ++ pre.map fun run => ⟨n, run⟩) b) ?_ hfold
      (by rw [List.map_nil, List.append_nil]; exact hb)
    · rw [Partition.runsUpTo_succ]
      exact hsteps
    · intro pre run b b' hpre hrun hb
      rw [List.map_append, ← List.append_assoc]
      exact block _ ⟨n, run⟩ b b' (Partition.next_of_prefix_runsOf hn hpre) hrun hb
  cases oc with
  | none =>
      cases h
      exact owners _ _ _ hblocks
  | some c => exact addLayerCores_keeps (cores c rfl _) h (owners _ _ _ hblocks)

/-- What holds of nothing, and is kept by every step, holds of every constructed builder. -/
theorem ofPartition_induction {oc : Option Canonicalizer} (empty : motive [] empty)
    (block : ∀ done r b b', done ++ [r] <+: p.runsUpTo p.depth →
      addBlock r.layer (r.layer + 1 == p.depth) b r.segments = .ok b' → motive done b →
      motive (done ++ [r]) b')
    (owners : ∀ done b os, motive done b → motive done { b with owners := os })
    (cores : ∀ c ∈ oc, ∀ done b b' n, addCores c limit b n = .ok b' → motive done b → motive done b')
    (h : (ofPartition oc limit p).result = .ok b) : motive (p.runsUpTo p.depth) b := by
  rw [ofPartition, Traced.result_foldlM] at h
  refine foldlM_range_induction (motive := fun n b => motive (p.runsUpTo n) b) ?_ h empty
  intro n b b' hn hstep hb
  exact addLayer_keeps block owners cores hn hstep hb

end Induction

end Builder

end PathQueryIndex
