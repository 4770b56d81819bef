/-
Module: PathQueryIndex.Proofs.Index.Blocks
Layer: Proofs
Purpose: The blocks of an index. They divide the pairs that a short enough walk joins: each such pair is
  left with the draft of the newest run that has it, whether that draft is one of the last layer or an
  earlier one that still holds some of its pairs. What the pairs of a run have in common the pairs of a
  block have in common for good, because no later layer has them: their labels are those of all walks up
  to the depth of the index, and no query up to this diameter tells them apart.
Imports: PathQueryIndex.Index, PathQueryIndex.Proofs.Index.Labels, Mathlib.Data.List.Permutation
Main exports: Builder.ComesFrom, Builder.comesFrom_of_mem_finish, Index.exists_ofPartition_of_build,
  Index.holds_iff_of_mem_block, Index.mem_labels_block_iff, Index.blocks_divide_joined_pairs
-/
import PathQueryIndex.Index
import PathQueryIndex.Proofs.Index.Labels
import Mathlib.Data.List.Permutation

namespace PathQueryIndex

/-- Two places cannot both have the newest run with a pair. -/
theorem LayerRun.Newest.place_eq {done : List LayerRun} {pair : Pair} {i j : Nat} {r t : LayerRun}
    (hr : Newest done pair i r) (ht : Newest done pair j t) : i = j := by
  rcases Nat.lt_trichotomy i j with hlt | heq | hgt
  · exact absurd ht.mem_pairs (hr.gap j t hlt ht.place)
  · exact heq
  · exact absurd hr.mem_pairs (ht.gap i r hgt hr.place)

namespace Partition.Layered

variable {g : Graph} {p : Partition} {r : LayerRun} {j : Nat} {pair : Pair}

/-- No run comes after one of the last layer for any of its pairs. -/
theorem newest_of_last_layer (hp : p.Layered g) (hr : (p.runsUpTo p.depth)[j]? = some r)
    (hlast : r.layer + 1 = p.depth) (hpair : pair ∈ r.pairs) :
    LayerRun.Newest (p.runsUpTo p.depth) pair j r := by
  refine ⟨hr, hpair, fun m t hm ht hmem => ?_⟩
  have hrmem := List.mem_of_getElem? hr
  have htmem := List.mem_of_getElem? ht
  have hle : r.layer ≤ t.layer := by
    obtain ⟨hj, rfl⟩ := List.getElem?_eq_some_iff.1 hr
    obtain ⟨hm', rfl⟩ := List.getElem?_eq_some_iff.1 ht
    exact List.pairwise_iff_getElem.1 (pairwise_layer_runsUpTo p p.depth) j m hj hm' hm
  have hlt := (mem_runsUpTo.1 htmem).1
  have hlayer : r.layer = t.layer := by omega
  have hid := hp.id_eq_of_pair_mem (Nat.le_refl _) hrmem htmem hlayer hpair hmem
  have hplace := hp.place_eq_of_id_eq (Nat.le_refl _) hr ht hid
  exact absurd hplace (Nat.ne_of_lt hm)

/-- A walk longer than those of the newest run with a pair is too long for the partition. -/
theorem depth_lt_of_newest (hp : p.Layered g)
    (hr : LayerRun.Newest (p.runsUpTo p.depth) pair j r) {n : Nat} (hn : r.layer < n)
    (h : g.Joined (n + 1) pair.source pair.target) : p.depth ≤ n := by
  apply Nat.le_of_not_lt
  intro hlt
  obtain ⟨t, ht, rfl, hpair⟩ := hp.exists_run_of_joined hlt h
  have hle := hr.layer_le (pairwise_layer_runsUpTo p p.depth) ht hpair
  exact absurd hn (Nat.not_lt.2 hle)

end Partition.Layered

/-! ### The finished blocks -/

namespace Builder

variable {g : Graph} {p : Partition} {b : Builder} {block : Block} {i j : Nat} {r : LayerRun}
  {pair : Pair}

/-- A block comes from the draft of a run, and it has the pairs that no later run has. -/
structure ComesFrom (p : Partition) (b : Builder) (j : Nat) (r : LayerRun) (block : Block) :
    Prop where
  place : (p.runsUpTo p.depth)[j]? = some r
  id_eq : block.id = r.id
  layer_eq : block.layer = r.layer + 1
  labels : ∃ draft, b.blockAt j = some draft ∧ r.Describes draft ∧ block.labels = draft.labels
  mem_pairs : ∀ pair, pair ∈ block.pairs ↔ LayerRun.Newest (p.runsUpTo p.depth) pair j r
  nodup_pairs : block.pairs.Nodup
  pairs_ne_nil : block.pairs ≠ []

/-- The finished blocks with the numbers of their drafts. -/
def numberedBlocks (b : Builder) : List (Nat × Block) :=
  b.finals.map (fun i => (i, (b.drafts.getD i default).block)) ++
    b.drafts.toList.zipIdx.filterMap fun (draft, i) =>
      let pairs := draft.block.pairs.filter fun p => b.holder[p]? == some i
      if pairs.isEmpty then none else some (i, { draft.block with pairs })

theorem map_snd_numberedBlocks (b : Builder) : b.numberedBlocks.map Prod.snd = b.finish := by
  rw [numberedBlocks, finish, List.map_append, List.map_map, List.map_filterMap]
  congr 2
  funext x
  obtain ⟨draft, i⟩ := x
  simp only [apply_ite (Option.map Prod.snd), Option.map_none, Option.map_some]

section Finished

variable (hp : p.Layered g) (hb : b.Built p (p.runsUpTo p.depth))

include hb in
/-- The draft at a place is that of the run at the place. -/
theorem Built.describes_draft (hr : (p.runsUpTo p.depth)[j]? = some r) :
    ∃ draft, b.drafts[j]? = some draft ∧ r.Describes draft.block.bare := by
  obtain ⟨block, hblock, hdescribes⟩ := hb.exists_block j r hr
  obtain ⟨draft, hdraft, rfl⟩ := Option.map_eq_some_iff.1 hblock
  exact ⟨draft, hdraft, hdescribes⟩

include hp hb

/-- A final block has all pairs of its run. -/
theorem comesFrom_of_mem_finals (hj : j ∈ b.finals) :
    ∃ r, ComesFrom p b j r (b.drafts.getD j default).block ∧ r.layer + 1 = p.depth := by
  obtain ⟨r, hr, hlast⟩ := (hb.mem_finals j).1 hj
  obtain ⟨draft, hdraft, hdescribes⟩ := hb.describes_draft hr
  have hrmem := List.mem_of_getElem? hr
  have hrun := (Partition.mem_runsUpTo.1 hrmem).2
  have hpairs : draft.block.pairs = r.pairs := hdescribes.pairs_eq
  have hget : b.drafts.getD j default = draft := by
    rw [Array.getD_eq_getD_getElem?, hdraft]
    rfl
  rw [hget]
  refine ⟨r, ⟨hr, hdescribes.id_eq, hdescribes.layer_eq, ?_, fun pair => ?_, ?_, ?_⟩, hlast⟩
  · exact ⟨draft.block.bare, by rw [blockAt, hdraft]; rfl, hdescribes, rfl⟩
  · rw [hpairs]
    constructor
    · exact hp.newest_of_last_layer hr hlast
    · intro hn
      exact hn.mem_pairs
  · rw [hpairs]
    exact hp.nodup_pairs_run (Nat.le_refl _) hrmem
  · rw [hpairs]
    intro hnil
    exact ne_nil_of_mem_runs hrun (List.map_eq_nil_iff.1 hnil)

/-- An earlier block has the pairs of its run that it still holds. -/
theorem comesFrom_of_holder {draft : Draft} (hdraft : b.drafts[j]? = some draft)
    (hne : draft.block.pairs.filter (fun p => b.holder[p]? == some j) ≠ []) :
    ∃ r, ComesFrom p b j r { draft.block with
        pairs := draft.block.pairs.filter fun p => b.holder[p]? == some j } ∧
      r.layer + 1 ≠ p.depth := by
  have hblock : b.blockAt j = some draft.block.bare := by
    rw [blockAt, hdraft]
    rfl
  obtain ⟨r, hr, hdescribes⟩ := hb.exists_run hblock
  have hpairs : draft.block.pairs = r.pairs := hdescribes.pairs_eq
  have hmem : ∀ pair, pair ∈ draft.block.pairs.filter (fun p => b.holder[p]? == some j) ↔
      LayerRun.Newest (p.runsUpTo p.depth) pair j r ∧ r.layer + 1 ≠ p.depth := by
    intro pair
    rw [List.mem_filter, hpairs, beq_iff_eq, hb.holder_iff]
    constructor
    · intro h
      obtain ⟨_, t, ht, hne⟩ := h
      have heq := ht.place
      rw [hr] at heq
      cases heq
      exact ⟨ht, hne⟩
    · intro h
      exact ⟨h.1.mem_pairs, r, h⟩
  obtain ⟨pair, hpair⟩ := List.exists_mem_of_ne_nil _ hne
  have hearlier := ((hmem pair).1 hpair).2
  refine ⟨r, ⟨hr, hdescribes.id_eq, hdescribes.layer_eq, ⟨_, hblock, hdescribes, rfl⟩,
    fun pair => ?_, ?_, hne⟩, hearlier⟩
  · constructor
    · intro h
      exact ((hmem pair).1 h).1
    · intro h
      exact (hmem pair).2 ⟨h, hearlier⟩
  · have hnodup := hp.nodup_pairs_run (Nat.le_refl _) (List.mem_of_getElem? hr)
    rw [← hpairs] at hnodup
    exact hnodup.sublist List.filter_sublist

theorem mem_numberedBlocks (h : (j, block) ∈ b.numberedBlocks) : ∃ r, ComesFrom p b j r block := by
  rcases List.mem_append.1 h with h | h
  · obtain ⟨i, hi, heq⟩ := List.mem_map.1 h
    cases heq
    obtain ⟨r, hr, _⟩ := comesFrom_of_mem_finals hp hb hi
    exact ⟨r, hr⟩
  · obtain ⟨⟨draft, i⟩, hget, heq⟩ := List.mem_filterMap.1 h
    have hdraft := List.mem_zipIdx_iff_getElem?.1 hget
    rw [Array.getElem?_toList] at hdraft
    simp only at heq
    split at heq
    · cases heq
    · rename_i hne
      cases heq
      obtain ⟨r, hr, _⟩ := comesFrom_of_holder hp hb hdraft (fun hnil => hne (by rw [hnil]; rfl))
      exact ⟨r, hr⟩

/-- No draft gives two blocks: an earlier one that holds a pair is not of the last layer. -/
theorem nodup_numbers : (b.numberedBlocks.map Prod.fst).Nodup := by
  rw [numberedBlocks, List.map_append, List.map_map]
  refine List.nodup_append.2 ⟨?_, ?_, fun i hi j hj => ?_⟩
  · have hid : (Prod.fst ∘ fun i => (i, (b.drafts.getD i default).block)) = id := rfl
    rw [hid, List.map_id]
    exact hb.nodup_finals
  · have hnumbers : (b.drafts.toList.zipIdx.map Prod.snd).Nodup := by
      rw [List.zipIdx_map_snd]
      exact List.nodup_range'
    apply List.pairwise_map.2
    refine (List.pairwise_map.1 hnumbers).filterMap _ fun x y hxy u hu w hw => ?_
    simp only [Option.ite_none_left_eq_some, Option.some_inj] at hu hw
    rw [← hu.2, ← hw.2]
    exact hxy
  · obtain ⟨k, hk, rfl⟩ := List.mem_map.1 hi
    obtain ⟨⟨m, block⟩, hm, rfl⟩ := List.mem_map.1 hj
    obtain ⟨⟨draft, n⟩, hget, heq⟩ := List.mem_filterMap.1 hm
    simp only [Option.ite_none_left_eq_some, Option.some_inj] at heq
    obtain ⟨hne, heq⟩ := heq
    cases heq
    have hdraft := List.mem_zipIdx_iff_getElem?.1 hget
    rw [Array.getElem?_toList] at hdraft
    obtain ⟨r, hr, hlast⟩ := comesFrom_of_mem_finals hp hb hk
    obtain ⟨t, ht, hearlier⟩ := comesFrom_of_holder hp hb hdraft (fun hnil => hne (by rw [hnil]; rfl))
    intro (heq : k = m)
    have hplace := hr.place
    rw [heq, ht.place] at hplace
    cases hplace
    exact hearlier hlast

theorem comesFrom_of_mem_finish (h : block ∈ b.finish) : ∃ j r, ComesFrom p b j r block := by
  rw [← map_snd_numberedBlocks] at h
  obtain ⟨⟨j, block⟩, hmem, rfl⟩ := List.mem_map.1 h
  exact ⟨j, mem_numberedBlocks hp hb hmem⟩

/-- Two finished blocks have different ids and no pair in common. -/
theorem pairwise_finish : b.finish.Pairwise fun x y =>
    x.id ≠ y.id ∧ ∀ pair ∈ x.pairs, pair ∉ y.pairs := by
  rw [← map_snd_numberedBlocks]
  apply List.pairwise_map.2
  refine (List.pairwise_map.1 (nodup_numbers hp hb)).imp_of_mem fun {x y} hx hy hne => ?_
  obtain ⟨r, hr⟩ := mem_numberedBlocks hp hb hx
  obtain ⟨t, ht⟩ := mem_numberedBlocks hp hb hy
  constructor
  · intro hid
    rw [hr.id_eq, ht.id_eq] at hid
    exact hne (hp.place_eq_of_id_eq (Nat.le_refl _) hr.place ht.place hid)
  · intro pair hpair hpair'
    exact hne (((hr.mem_pairs pair).1 hpair).place_eq ((ht.mem_pairs pair).1 hpair'))

omit hp in
/-- Whatever run is the newest with a pair, one of the finished blocks has the pair. -/
theorem exists_mem_finish (h : LayerRun.Newest (p.runsUpTo p.depth) pair j r) :
    ∃ block ∈ b.finish, pair ∈ block.pairs := by
  obtain ⟨draft, hdraft, hdescribes⟩ := hb.describes_draft h.place
  have hpairs : draft.block.pairs = r.pairs := hdescribes.pairs_eq
  by_cases hlast : r.layer + 1 = p.depth
  · have hj := (hb.mem_finals j).2 ⟨r, h.place, hlast⟩
    refine ⟨_, List.mem_append_left _ (List.mem_map_of_mem hj), ?_⟩
    rw [Array.getD_eq_getD_getElem?, hdraft, Option.getD_some, hpairs]
    exact h.mem_pairs
  · have hheld := (hb.holder_iff pair j).2 ⟨r, h, hlast⟩
    have hmem : pair ∈ draft.block.pairs.filter fun p => b.holder[p]? == some j := by
      rw [List.mem_filter, hpairs, beq_iff_eq]
      exact ⟨h.mem_pairs, hheld⟩
    have hget : (draft, j) ∈ b.drafts.toList.zipIdx := by
      rw [List.mem_zipIdx_iff_getElem?, Array.getElem?_toList]
      exact hdraft
    refine ⟨{ draft.block with pairs := draft.block.pairs.filter fun p => b.holder[p]? == some j },
      List.mem_append_right _ (List.mem_filterMap.2 ⟨_, hget, ?_⟩), hmem⟩
    exact if_neg fun hempty => List.ne_nil_of_mem hmem (List.isEmpty_iff.1 hempty)

/-- One of the finished blocks has a pair that a walk joins which is not too long. -/
theorem exists_mem_finish_of_joined {n : Nat} (hn : n < p.depth)
    (h : g.Joined (n + 1) pair.source pair.target) : ∃ block ∈ b.finish, pair ∈ block.pairs := by
  obtain ⟨t, ht, _, hpair⟩ := hp.exists_run_of_joined hn h
  obtain ⟨j, r, hr⟩ := LayerRun.exists_newest ht hpair
  exact exists_mem_finish hb hr

end Finished

end Builder

/-! ### The index of a graph -/

/-- The table of cores is made of the codes of the blocks and of the places where the blocks stand. -/
theorem CoreTable.ofBlocks_eq (blocks : List Block) : CoreTable.ofBlocks blocks =
    groupByKey (blocks.zipIdx.flatMap fun x => x.1.coreHashes.toList.map fun h => (h, x.2)) := rfl

namespace Index

variable {g : Graph} {o : Options} {p : Partition} {index : Index}

/-- An index has the finished blocks of a construction, and the table of their cores. -/
theorem assemble_eq_ok {oc : Option Canonicalizer} {x : Index × Nat}
    (h : (assemble p o oc).result = .ok x) :
    ∃ b : Builder, (Builder.ofPartition (if o.cores then oc else none) o.maxIntersections p).result =
      .ok b ∧ x.1 = ⟨p.depth, b.finish, o.cores, CoreTable.ofBlocks b.finish⟩ := by
  by_cases hdepth : p.depth = 0
  · simp only [assemble, if_pos hdepth, Traced.bind_eq_ok, Traced.result_lift] at h
    obtain ⟨_, hfail, _⟩ := h
    cases hfail
  · by_cases hcores : o.cores = true
    · simp only [assemble, if_neg hdepth, hcores, if_true, Traced.bind_eq_ok, Traced.result_emit] at h ⊢
      obtain ⟨b, hb, _, _, _, _, hx⟩ := h
      cases hx
      exact ⟨b, hb, rfl⟩
    · simp only [assemble, if_neg hdepth, hcores, Traced.bind_eq_ok] at h ⊢
      obtain ⟨b, hb, hx⟩ := h
      cases hx
      exact ⟨b, hb, rfl⟩

theorem exists_partition_of_build (h : (build g o).result = .ok index) :
    ∃ p, (Partition.build g o.depth).result = .ok p := by
  simp only [build, Traced.bind_eq_ok] at h
  obtain ⟨_, _, p, hp, _⟩ := h
  exact ⟨p, hp⟩

/-- An index has the finished blocks of a construction. -/
theorem exists_ofPartition_of_build (hpart : (Partition.build g o.depth).result = .ok p)
    (h : (build g o).result = .ok index) : ∃ b : Builder,
      (Builder.ofPartition (if o.cores then some (canonicalizer o) else none) o.maxIntersections p).result =
        .ok b ∧ index.blocks = b.finish := by
  simp only [build, ofPartition, Traced.bind_eq_ok, Traced.result_lift, hpart] at h
  obtain ⟨_, _, _, hp, _, _, x, hx, hindex⟩ := h
  cases hp
  cases hindex
  obtain ⟨b, hb, hx⟩ := assemble_eq_ok hx
  exact ⟨b, hb, congrArg blocks hx⟩

/-- An index has the finished blocks of a builder of the partition of its graph. -/
theorem exists_builder_of_build (hpart : (Partition.build g o.depth).result = .ok p)
    (h : (build g o).result = .ok index) : ∃ b : Builder, b.Built p (p.runsUpTo p.depth) ∧
      index.blocks = b.finish ∧ (p.runCount ≤ maxSegmentId → b.Labeled g) := by
  obtain ⟨b, hb, hblocks⟩ := exists_ofPartition_of_build hpart h
  exact ⟨b, Builder.built_of_ofPartition hb, hblocks, fun hcount =>
    Builder.labeled_of_ofPartition (Partition.layered_of_build hpart).1 hcount hb⟩

/-- Two steps along one label, one after the other. -/
def twoSteps : Graph where
  vertexCount := 3
  labelCount := 1
  edges := ⟨[⟨0, 1, 0⟩, ⟨1, 2, 0⟩], by decide⟩
  inBounds := by decide

/-- Ask for blocks only, for walks of up to two steps. -/
def blocksOnly : Options where
  depth := 2
  cores := false
  maxIntersections := none
  threads := 1
  timeout := none

variable (hpart : (Partition.build g o.depth).result = .ok p) (h : (build g o).result = .ok index)
  {block : Block}

include hpart h in
/-- No query up to the depth of an index tells two pairs of a block apart, as long as there are ids for
    all runs. A query that asks for a longer walk than the run of the block holds for none of its pairs,
    because no later layer has them. -/
theorem holds_iff_of_mem_block (hcount : p.runCount < UInt32.size) (hblock : block ∈ index.blocks)
    {x y : Pair} (hx : x ∈ block.pairs) (hy : y ∈ block.pairs) {q : Query}
    (hq : q.diameter ≤ o.depth) :
    q.Holds g x.source x.target ↔ q.Holds g y.source y.target := by
  obtain ⟨hp, hdepth⟩ := Partition.layered_of_build hpart
  obtain ⟨b, hb, hblocks, _⟩ := exists_builder_of_build hpart h
  rw [hblocks] at hblock
  obtain ⟨j, r, hr⟩ := Builder.comesFrom_of_mem_finish hp hb hblock
  have hrmem := List.mem_of_getElem? hr.place
  have hxn := (hr.mem_pairs x).1 hx
  have hyn := (hr.mem_pairs y).1 hy
  by_cases hlen : q.diameter ≤ r.layer + 1
  · exact hp.holds_iff_of_mem_pairs (Nat.le_sub_one_of_lt hcount) (Nat.le_refl _) hrmem hxn.mem_pairs
      hyn.mem_pairs hlen
  · have hfails : ∀ z : Pair, LayerRun.Newest (p.runsUpTo p.depth) z j r →
        ¬ q.Holds g z.source z.target := by
      intro z hz hholds
      obtain ⟨n, hn⟩ := Nat.exists_eq_succ_of_ne_zero (Nat.ne_zero_of_lt (Nat.lt_of_not_le hlen))
      have hjoined := Query.joined_of_holds hholds
      rw [hn] at hjoined
      have hlong := hp.depth_lt_of_newest hz (by omega) hjoined
      omega
    constructor
    · intro hholds
      exact absurd hholds (hfails x hxn)
    · intro hholds
      exact absurd hholds (hfails y hyn)

theorem holds_iff_of_mem_block_two_steps :
    (Query.label (.forward 0)).Holds twoSteps 0 1 ↔ (Query.label (.forward 0)).Holds twoSteps 1 2 := by
  obtain ⟨p, hpart, hcount⟩ := exists_ok_of_any
    (x := (Partition.build twoSteps blocksOnly.depth).result)
    (f := fun p => decide (p.runCount < UInt32.size)) (by cbv)
  obtain ⟨index, h, hpairs⟩ := exists_ok_of_any (x := (build twoSteps blocksOnly).result)
    (f := fun index => index.blocks.any fun block =>
      block.pairs.contains ⟨0, 1⟩ && block.pairs.contains ⟨1, 2⟩) (by cbv)
  obtain ⟨block, hblock, hmem⟩ := List.any_eq_true.1 hpairs
  obtain ⟨hx, hy⟩ := Bool.and_eq_true_iff.1 hmem
  exact holds_iff_of_mem_block hpart h (of_decide_eq_true hcount) hblock
    (List.contains_iff_mem.1 hx) (List.contains_iff_mem.1 hy) (Nat.le_succ 1)

include hpart h in
/-- The labels of a block are those of all walks up to the depth of the index between the ends of any
    of its pairs, as long as there are ids for all runs. -/
theorem mem_labels_block_iff (hcount : p.runCount < UInt32.size) (hblock : block ∈ index.blocks)
    {x : Pair} (hx : x ∈ block.pairs) (ls : LabelSequence) :
    ls ∈ block.labels ↔ ls.length ≤ o.depth ∧ g.Walk x.source ls.labels x.target := by
  obtain ⟨hp, hdepth⟩ := Partition.layered_of_build hpart
  obtain ⟨b, hb, hblocks, hlabeled⟩ := exists_builder_of_build hpart h
  rw [hblocks] at hblock
  obtain ⟨j, r, hr⟩ := Builder.comesFrom_of_mem_finish hp hb hblock
  obtain ⟨draft, hdraft, hdescribes, hlabels⟩ := hr.labels
  have hxn := (hr.mem_pairs x).1 hx
  have hlayer := (Partition.mem_runsUpTo.1 (List.mem_of_getElem? hr.place)).1
  rw [hlabels, hlabeled (Nat.le_sub_one_of_lt hcount) j draft hdraft x
    (hdescribes.pairs_eq ▸ hxn.mem_pairs) ls, hdescribes.layer_eq]
  constructor
  · intro hls
    exact ⟨by omega, hls.2⟩
  · intro hls
    obtain ⟨hlen, hwalk⟩ := hls
    refine ⟨Nat.le_of_not_lt fun hlong => ?_, hwalk⟩
    -- a longer walk would have put the pair into a later layer
    obtain ⟨n, hn⟩ := Nat.exists_eq_succ_of_ne_zero (Nat.ne_zero_of_lt hlong)
    have hdeep := hp.depth_lt_of_newest hxn (by omega) ⟨_, hn, hwalk⟩
    omega

theorem mem_labels_block_iff_two_steps :
    ∃ index, (build twoSteps blocksOnly).result = .ok index ∧ ∃ block ∈ index.blocks,
      (LabelSequence.single (.forward 0) ∈ block.labels ↔
        1 ≤ 2 ∧ twoSteps.Walk 1 [.forward 0] 2) := by
  obtain ⟨p, hpart, hcount⟩ := exists_ok_of_any
    (x := (Partition.build twoSteps blocksOnly.depth).result)
    (f := fun p => decide (p.runCount < UInt32.size)) (by cbv)
  obtain ⟨index, h, hpairs⟩ := exists_ok_of_any (x := (build twoSteps blocksOnly).result)
    (f := fun index => index.blocks.any fun block => block.pairs.contains ⟨1, 2⟩) (by cbv)
  obtain ⟨block, hblock, hx⟩ := List.any_eq_true.1 hpairs
  exact ⟨index, h, block, hblock, mem_labels_block_iff hpart h (of_decide_eq_true hcount) hblock
    (List.contains_iff_mem.1 hx) (.single (.forward 0))⟩

/-- The blocks divide the pairs that some walk of one step up to the depth of the index joins: no block
    is empty, no pair occurs twice, and just these pairs occur. No two blocks have the same id, and, as
    long as there are ids for all runs, the pairs of a block are all loops or none is. -/
theorem blocks_divide_joined_pairs (h : (build g o).result = .ok index) :
    (∀ block ∈ index.blocks, block.pairs ≠ []) ∧ (index.blocks.flatMap Block.pairs).Nodup ∧
      (∀ u v, ⟨u, v⟩ ∈ index.blocks.flatMap Block.pairs ↔
        ∃ n, 1 ≤ n ∧ n ≤ o.depth ∧ g.Joined n u v) ∧
      (index.blocks.map Block.id).Nodup ∧
      (∀ p, (Partition.build g o.depth).result = .ok p → p.runCount < UInt32.size →
        ∀ block ∈ index.blocks,
          (∀ x ∈ block.pairs, x.isLoop = true) ∨ (∀ x ∈ block.pairs, x.isLoop = false)) := by
  obtain ⟨p, hpart⟩ := exists_partition_of_build h
  obtain ⟨hp, hdepth⟩ := Partition.layered_of_build hpart
  obtain ⟨b, hb, hblocks, _⟩ := exists_builder_of_build hpart h
  have hpairwise := Builder.pairwise_finish hp hb
  rw [hblocks]
  refine ⟨fun block hblock => ?_, ?_, fun u v => ?_, ?_, fun p' hpart' hcount block hblock => ?_⟩
  · obtain ⟨j, r, hr⟩ := Builder.comesFrom_of_mem_finish hp hb hblock
    exact hr.pairs_ne_nil
  · apply List.nodup_flatMap.2
    refine ⟨fun block hblock => ?_, hpairwise.imp fun hxy pair hx hy => hxy.2 pair hx hy⟩
    obtain ⟨j, r, hr⟩ := Builder.comesFrom_of_mem_finish hp hb hblock
    exact hr.nodup_pairs
  · rw [List.mem_flatMap]
    constructor
    · intro hmem
      obtain ⟨block, hblock, hpair⟩ := hmem
      obtain ⟨j, r, hr⟩ := Builder.comesFrom_of_mem_finish hp hb hblock
      have hrmem := List.mem_of_getElem? hr.place
      have hlayer := (Partition.mem_runsUpTo.1 hrmem).1
      exact ⟨r.layer + 1, Nat.succ_pos _, by omega,
        hp.joined_of_mem_pairs (Nat.le_refl _) hrmem ((hr.mem_pairs _).1 hpair).mem_pairs⟩
    · intro hjoined
      obtain ⟨n, hpos, hn, hjoined⟩ := hjoined
      obtain ⟨m, rfl⟩ := Nat.exists_eq_succ_of_ne_zero (Nat.ne_of_gt hpos)
      exact Builder.exists_mem_finish_of_joined hp hb (by omega) hjoined
  · exact List.pairwise_map.2 (hpairwise.imp fun hxy => hxy.1)
  · rw [hpart] at hpart'
    cases hpart'
    obtain ⟨j, r, hr⟩ := Builder.comesFrom_of_mem_finish hp hb hblock
    have hrmem := List.mem_of_getElem? hr.place
    have hloop : ∀ x ∈ block.pairs, ∀ y ∈ block.pairs, x.isLoop = y.isLoop := by
      intro x hx y hy
      obtain ⟨s, hs, hsmem, rfl⟩ := Partition.exists_mem_segments hrmem ((hr.mem_pairs x).1 hx).mem_pairs
      obtain ⟨t, ht, htmem, rfl⟩ := Partition.exists_mem_segments hrmem ((hr.mem_pairs y).1 hy).mem_pairs
      have hid := (Partition.id_eq_of_mem_segments hrmem hsmem).trans
        (Partition.id_eq_of_mem_segments hrmem htmem).symm
      exact hp.isLoop_eq_of_id_eq (Nat.le_sub_one_of_lt hcount) (Partition.mem_runsUpTo.1 hrmem).1
        hs ht hid
    obtain ⟨x, hx⟩ := List.exists_mem_of_ne_nil _ hr.pairs_ne_nil
    cases hxloop : x.isLoop with
    | true => exact .inl fun y hy => (hloop y hy x hx).trans hxloop
    | false => exact .inr fun y hy => (hloop y hy x hx).trans hxloop

theorem blocks_divide_joined_pairs_two_steps :
    ∃ index, (build twoSteps blocksOnly).result = .ok index ∧
      (⟨0, 2⟩ ∈ index.blocks.flatMap Block.pairs ↔ ∃ n, 1 ≤ n ∧ n ≤ 2 ∧ twoSteps.Joined n 0 2) := by
  obtain ⟨index, h, _⟩ := exists_ok_of_any (x := (build twoSteps blocksOnly).result)
    (f := fun _ => true) (by cbv)
  exact ⟨index, h, (blocks_divide_joined_pairs h).2.2.1 0 2⟩

end Index

end PathQueryIndex
