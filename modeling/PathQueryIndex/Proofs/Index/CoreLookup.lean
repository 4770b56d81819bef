/-
Module: PathQueryIndex.Proofs.Index.CoreLookup
Layer: Proofs
Purpose: What the lookup of cores finds. Every block of an index with cores comes from a draft whose cores are
  true of its run and which has the narrow queries. So a query whose code a block has holds for the pairs of the
  block, and a narrow query that holds for one of them is found, if the id of the block stands for one key. It
  does unless it is the greatest id of an index that needs more ids than there are. In that case the block of
  the greatest id has the steps of its first pair, and a query for the labels of a walk between that pair is found
  although no walk between another pair of the block has them.
Imports: PathQueryIndex.Proofs.Index.Capacity, PathQueryIndex.Proofs.Index.Bookkeeping
Main exports: Index.exists_draft_of_mem_blocks, Index.mem_coreHashes_of_narrow,
  Index.exists_unsound_of_idsNeeded, Index.lookup_sound, Index.lookup_complete_of_narrow
-/
import PathQueryIndex.Proofs.Index.Capacity
import PathQueryIndex.Proofs.Index.Bookkeeping

namespace PathQueryIndex

open Std

/-- An id stands for one key if it is not the greatest one, or if there are ids for all runs. -/
theorem Partition.Layered.sharp_of_lt_or {g : Graph} {p : Partition} (hp : p.Layered g) {n : Nat}
    (h : n < maxSegmentId ∨ p.runCount < UInt32.size) : p.Sharp n := by
  rcases h with hlt | hcount
  · exact hp.sharp_of_lt hlt
  · exact hp.sharp_of_runCount_le (Nat.le_sub_one_of_lt hcount) n

namespace Index

section Blocks

variable {g : Graph} {o : Options} {index : Index} {p : Partition} {block : Block} {q : Query}
  {form : CanonicalForm} {r : LayerRun} {j : Nat}
  (h : (build g o).result = .ok index) (hcores : o.cores = true)
  (hpart : (Partition.build g o.depth).result = .ok p)

include h hcores hpart

/-! ### The blocks of an index with cores -/

/-- A block comes from the draft of a run. The draft has its cores, they are true of the run, their codes are those
    of the block, and the draft is complete. -/
theorem exists_draft_of_mem_blocks (hblock : block ∈ index.blocks) :
    ∃ b j r, ∃ draft : Draft, Builder.ComesFrom p b j r block ∧ block.cores = draft.block.cores ∧
      (∀ core ∈ block.cores, core.TrueOf (canonicalizer o) g p r) ∧
      (∀ code, code ∈ block.coreHashes ↔ ∃ core ∈ block.cores, core.hash = code) ∧
      draft.Complete o.maxIntersections g p r := by
  obtain ⟨hp, _⟩ := Partition.layered_of_build hpart
  obtain ⟨b, hb, hblocks⟩ := exists_construction_of_build hpart h hcores
  rw [hblocks] at hblock
  obtain ⟨j, r, draft, hr, hdraft, hsame, hhashes⟩ :=
    Builder.exists_draft_of_mem_finish hp (Builder.built_of_ofPartition hb) hblock
  obtain ⟨htrue, hcodes⟩ := Builder.sound_of_ofPartition hp hb j draft r hdraft hr.place
  have hlt : j < b.drafts.size := (Array.getElem?_eq_some_iff.1 hdraft).1
  refine ⟨b, j, r, draft, hr, hsame, hsame ▸ htrue, ?_, ?_⟩
  · rw [hsame, hhashes]
    exact hcodes
  · exact Builder.complete_of_ofPartition hp (two_le_of_build h) hb j hlt draft r hdraft hr.place

/-- A block has the code of a narrow query that the index is deep enough for and that holds for one of its pairs. -/
theorem mem_coreHashes_of_narrow (hblock : block ∈ index.blocks)
    (hids : block.id < maxSegmentId ∨ p.runCount < UInt32.size) (hq : q.Narrow o.maxIntersections)
    (hlen : q.diameter ≤ o.depth) (hform : canonicalForm q false = .ok form) {pair : Pair}
    (hpair : pair ∈ block.pairs) (hholds : q.Holds g pair.source pair.target) :
    form.code ∈ block.coreHashes := by
  obtain ⟨hp, hdepth⟩ := Partition.layered_of_build hpart
  obtain ⟨b, j, r, draft, hr, hsame, htrue, hcodes, hcomplete⟩ :=
    exists_draft_of_mem_blocks h hcores hpart hblock
  have hnewest := (hr.mem_pairs pair).1 hpair
  -- no later layer has the pair, so the query is not longer than the walks of this one
  have hshort : q.diameter ≤ r.layer + 1 := by
    apply Nat.le_of_not_lt
    intro hlong
    obtain ⟨n, hn⟩ := Nat.exists_eq_add_of_le' hq.one_le_diameter
    have hjoined := Query.joined_of_holds hholds
    rw [hn] at hjoined
    have hdeep := hp.depth_lt_of_newest hnewest (by omega) hjoined
    omega
  obtain ⟨core, hcore, hagrees⟩ := hcomplete.narrow (hr.id_eq ▸ hp.sharp_of_lt_or hids) pair
    hnewest.mem_pairs q hq hshort hholds
  rw [← hsame] at hcore
  exact (hcodes _).2 ⟨core, hcore, (htrue core hcore).coded.hash_eq hform hagrees⟩

/-- The pairs of a run of the last layer are in one block, and the block has the steps that hold for the first segment
    of the run, even if the id of the run stands for several keys. -/
theorem exists_block_of_head (hr : (p.runsUpTo p.depth)[j]? = some r) (hlast : r.layer + 1 = p.depth)
    {s : Segment} (hhead : r.segments.head? = some s) (hq : q.Narrow o.maxIntersections) (hstep : q.IsStep)
    (hlen : q.diameter ≤ o.depth) (hholds : q.Holds g s.pair.source s.pair.target) :
    ∃ block ∈ index.blocks, HasCore block.cores q ∧ ∀ pair ∈ r.pairs, pair ∈ block.pairs := by
  obtain ⟨hp, hdepth⟩ := Partition.layered_of_build hpart
  obtain ⟨b, hb, hblocks, _⟩ := exists_builder_of_build hpart h
  have hnewest : ∀ pair ∈ r.pairs, LayerRun.Newest (p.runsUpTo p.depth) pair j r := fun _ =>
    hp.newest_of_last_layer hr hlast
  have hspair := hnewest s.pair (List.mem_map_of_mem (List.mem_of_head? hhead))
  obtain ⟨block, hmem, hpair⟩ := Builder.exists_mem_finish hb hspair
  have hblock : block ∈ index.blocks := hblocks ▸ hmem
  obtain ⟨b', i, t, draft, ht, hsame, _, _, hcomplete⟩ := exists_draft_of_mem_blocks h hcores hpart hblock
  -- the run that the block comes from is the newest one with the pair, too
  obtain rfl : j = i := hspair.place_eq ((ht.mem_pairs _).1 hpair)
  obtain rfl : r = t := Option.some.inj (hr.symm.trans ht.place)
  exact ⟨block, hblock, hsame ▸ hcomplete.steps s hhead q hq hstep (by omega) hholds,
    fun pair hin => (ht.mem_pairs pair).2 (hnewest pair hin)⟩

/-- If the layers need more ids than there are, and the labels of the longest walks tell their ends, a block has the
    code of a query that does not hold for all of its pairs. -/
theorem exists_unsound_of_idsNeeded (hg : g.Apart o.depth) (hmany : maxSegmentId < p.idsNeeded o.depth) :
    ∃ block ∈ index.blocks, ∃ q form, canonicalForm q false = .ok form ∧ form.code ∈ block.coreHashes ∧
      ∃ pair ∈ block.pairs, ¬ q.Holds g pair.source pair.target := by
  obtain ⟨hp, hdepth⟩ := Partition.layered_of_build hpart
  obtain ⟨i, hlast⟩ : ∃ i, i + 1 = p.depth := ⟨p.depth - 1, Nat.sub_add_cancel hp.depth_pos⟩
  rw [← hdepth, ← hlast] at hg
  rw [← hdepth] at hmany
  obtain ⟨run, hrun, s, hhead, t, ht, labels, hlen, hwalk, hfails⟩ :=
    Partition.exists_label_of_idsNeeded hp hg hlast hmany
  let ls : LabelSequence := ⟨labels, List.ne_nil_of_length_eq_add_one hlen⟩
  obtain ⟨hnarrow, hstep⟩ : (Query.path ls).Narrow o.maxIntersections ∧ (Query.path ls).IsStep :=
    Query.narrow_path ls
  have hdiameter : (Query.path ls).diameter ≤ o.depth := by
    rw [Query.diameter_path, ← hdepth, ← hlast]
    exact Nat.le_of_eq hlen
  have hmem : (⟨i, run⟩ : LayerRun) ∈ p.runsUpTo p.depth :=
    Partition.mem_runsUpTo.2 ⟨hlast ▸ Nat.lt_succ_self i, hrun⟩
  obtain ⟨j, hj⟩ := List.mem_iff_getElem?.1 hmem
  obtain ⟨block, hblock, ⟨core, hcore, hagrees⟩, hpairs⟩ := exists_block_of_head h hcores hpart hj hlast hhead
    hnarrow hstep hdiameter (Query.holds_path.2 hwalk)
  have hrecorded := (MadeBy.build h).recorded block hblock
  obtain ⟨form, hform, hcode⟩ := (hrecorded.canonical core hcore).hasCode rfl
  refine ⟨block, hblock, core.query, form, hform, (hrecorded.mem_iff _).2 ⟨core, hcore, hcode.symm⟩, t.pair,
    hpairs _ (List.mem_map_of_mem ht), fun hother => hfails ?_⟩
  exact Query.holds_path.1 ((hagrees _ _ _).1 hother)

end Blocks

/-! ### Indexes of stars -/

section Star

variable {star : Star}

/-- Ask for cores of walks of up to two steps, and intersect no more than so many. -/
def coresUpTo (width : Nat) : Options where
  depth := 2
  cores := true
  maxIntersections := some width
  threads := 1
  timeout := none

/-- A star with few labels has an index with cores. -/
theorem exists_build_of_star (width : Nat) (hpos : 0 < star.size) (hroom : 2 * star.size < maxSegmentId)
    (hlabels : star.labelCount.toNat ≤ maxCanonicalLabel) (hwidth : 2 ≤ width)
    (hnodes : 2 + width * baseNodes width 1 ≤ maxCanonicalNodes) : ∃ p index,
      (Partition.build star.graph 2).result = .ok p ∧ (build star.graph (coresUpTo width)).result = .ok index := by
  obtain ⟨p, hpart⟩ := Partition.exists_build_star hpos hroom
  have hvalid : (coresUpTo width).validate = .ok () :=
    Options.validate_eq_ok_iff.2 ⟨Nat.succ_ne_zero 1, Nat.succ_ne_zero 0, fun n hn => Option.some.inj hn ▸ hwidth⟩
  obtain ⟨index, h⟩ := exists_build_of_small hvalid rfl rfl hlabels hnodes hpart
  exact ⟨p, index, hpart, h⟩

/-- To a point and back. -/
def outAndBack (l : Label) : Query := .concat (.label l) (.label l.flip)

theorem holds_outAndBack {i : Nat} {l : Label} (hi : i < star.size) (hl : l ∈ star.labels i) :
    (outAndBack l).Holds star.graph 0 0 :=
  ⟨Graph.rim i, (Star.step_out hi).2 hl, (Star.step_back hi).2 (l.flip_flip.symm ▸ hl)⟩

/-- The star with three points. -/
def threePoints : Star := .oneEach 3 (by decide)

/-- The star with so many points that two layers need one id more than there are. -/
def manyPoints : Star := .decimal 65535 (by decide)

/-- To three points and back to the start each time. -/
def threeLoops : Query :=
  .intersect (.intersect (.intersect (outAndBack (.forward 0)) (outAndBack (.forward 1)))
    (outAndBack (.forward 2))) .identity

theorem narrow_threeLoops : threeLoops.Narrow (some 3) := by
  have huniform : ∀ l, (outAndBack l).Uniform := fun _ => ⟨trivial, trivial⟩
  have hwithin : ∀ l, (outAndBack l).Within (some 3) := fun _ => ⟨trivial, trivial⟩
  refine .anchor (.uniform ⟨⟨huniform _, huniform _, rfl⟩, huniform _, rfl⟩
    ⟨⟨hwithin _, hwithin _, fun n hn => ?_⟩, hwithin _, fun n hn => ?_⟩ (by decide))
  · exact Option.some.inj hn ▸ Nat.le_succ 2
  · exact Option.some.inj hn ▸ Nat.le_refl 3

/-- The center leads to three points and back. -/
theorem holds_threeLoops : threeLoops.Holds threePoints.graph 0 0 := by
  have hloop : ∀ i < 3, (outAndBack (.forward (.ofNat i))).Holds threePoints.graph 0 0 := by
    intro i hi
    exact holds_outAndBack hi (List.mem_singleton_self _)
  exact ⟨⟨⟨hloop 0 (by decide), hloop 1 (by decide)⟩, hloop 2 (by decide)⟩, rfl, by decide⟩

/-- The star of three points has an index, and the three loops have a form. -/
theorem exists_index_of_three_points : ∃ p index form block,
    (Partition.build threePoints.graph 2).result = .ok p ∧ p.runCount < UInt32.size ∧
      (build threePoints.graph (coresUpTo 3)).result = .ok index ∧
      canonicalForm threeLoops false = .ok form ∧ block ∈ index.blocks ∧ ⟨0, 0⟩ ∈ block.pairs := by
  have hpos : 0 < threePoints.size := Nat.succ_pos 2
  obtain ⟨p, index, hpart, h⟩ := exists_build_of_star 3 hpos (by decide) (by decide) (by decide) (by decide)
  obtain ⟨hp, hdepth⟩ := Partition.layered_of_build hpart
  have hcount : p.runCount < UInt32.size := by
    have hle := Partition.runsBefore_le_idsNeeded p p.depth
    rw [hdepth, (Partition.idsNeeded_star hp hpos).2 (by omega)] at hle
    rw [Partition.runCount, hdepth]
    exact Nat.lt_of_le_of_lt hle (by decide)
  have hsmall : threeLoops.Small threePoints.graph.labelCount 9 :=
    ⟨Nat.le_refl 9, Query.below_of_holds holds_threeLoops⟩
  obtain ⟨form, hform⟩ := (exists_canonicalForm_iff threeLoops).2 (hsmall.withinLimits_core (by decide) (by decide))
  obtain ⟨b, hb, hblocks, _⟩ := exists_builder_of_build hpart h
  obtain ⟨block, hblock, hmem⟩ : ∃ block ∈ b.finish, ⟨0, 0⟩ ∈ block.pairs :=
    Builder.exists_mem_finish_of_joined hp hb (by omega) (Star.joined_two.2 (.inl ⟨hpos, rfl, rfl⟩))
  exact ⟨p, index, form, block, hpart, hcount, h, hform, hblocks ▸ hblock, hmem⟩

/-- The star of many points has an index, though not enough ids. -/
theorem exists_index_of_many_points : ∃ p index, (Partition.build manyPoints.graph 2).result = .ok p ∧
    (build manyPoints.graph (coresUpTo 2)).result = .ok index ∧ maxSegmentId < p.idsNeeded 2 := by
  have hpos : 0 < manyPoints.size := Nat.succ_pos _
  obtain ⟨p, index, hpart, h⟩ := exists_build_of_star 2 hpos (by decide) (by decide) (by decide) (by decide)
  obtain ⟨hp, hdepth⟩ := Partition.layered_of_build hpart
  refine ⟨p, index, hpart, h, ?_⟩
  rw [(Partition.idsNeeded_star hp hpos).2 (by omega)]
  decide

end Star

/-! ### The lookup of cores -/

section Lookup

variable {g : Graph} {o : Options} {index : Index} {p : Partition}

/-- The lookup of cores is sound as far as there are ids. The cores of a block ask for no longer walks than those of
    its layer, which the index is deep enough for. A query whose code is among those of a block holds for every
    pair of the block, unless the block has the last id there is and there were not enough ids for all runs: only
    then a run may have segments that can be told apart. If the labels of the longest walks tell their ends, it
    does have such segments then, and the code of some query is among those of a block although the query does
    not hold for all pairs of the block. -/
theorem lookup_sound (h : (build g o).result = .ok index) (hcores : o.cores = true) :
    (∀ block ∈ index.blocks, block.layer ≤ o.depth ∧
      ∀ core ∈ block.cores, core.query.diameter ≤ block.layer) ∧
    ∀ p, (Partition.build g o.depth).result = .ok p →
      (∀ block ∈ index.blocks, block.id < maxSegmentId ∨ p.runCount < UInt32.size →
        ∀ q form, canonicalForm q false = .ok form → form.code ∈ block.coreHashes →
          ∀ pair ∈ block.pairs, q.Holds g pair.source pair.target) ∧
      (g.Apart o.depth → maxSegmentId < p.idsNeeded o.depth →
        ∃ block ∈ index.blocks, ∃ q form, canonicalForm q false = .ok form ∧ form.code ∈ block.coreHashes ∧
          ∃ pair ∈ block.pairs, ¬ q.Holds g pair.source pair.target) := by
  obtain ⟨p, hpart⟩ := exists_partition_of_build h
  obtain ⟨hp, hdepth⟩ := Partition.layered_of_build hpart
  refine ⟨?_, fun p' hpart' => ?_⟩
  · intro block hblock
    obtain ⟨b, j, r, _, hr, _, htrue, _⟩ := exists_draft_of_mem_blocks h hcores hpart hblock
    have hlayer := (Partition.mem_runsUpTo.1 (List.mem_of_getElem? hr.place)).1
    rw [hr.layer_eq, ← hdepth]
    exact ⟨hlayer, fun core hcore => (htrue core hcore).query.diameter_le⟩
  · rw [hpart] at hpart'
    cases hpart'
    refine ⟨?_, exists_unsound_of_idsNeeded h hcores hpart⟩
    intro block hblock hids q form hform hcode pair hpair
    obtain ⟨b, j, r, _, hr, _, htrue, hcodes, _⟩ := exists_draft_of_mem_blocks h hcores hpart hblock
    have hsharp : p.Sharp r.id := hr.id_eq ▸ hp.sharp_of_lt_or hids
    obtain ⟨core, hcore, hsame⟩ := (hcodes _).1 hcode
    exact (htrue core hcore).coded.holds hform hsame
      ((htrue core hcore).query.holds hsharp pair ((hr.mem_pairs pair).1 hpair).mem_pairs)

/-- In the star of three points the lookup is sound, and in a star of 65535 points it is not: they need `2 ^ 32` ids in
    two layers, one more than there are, and twenty-six labels are enough to tell them apart. -/
theorem lookup_sound_stars :
    (∃ index, (build threePoints.graph (coresUpTo 3)).result = .ok index ∧
      ∃ block ∈ index.blocks, ⟨0, 0⟩ ∈ block.pairs ∧ block.layer ≤ 2 ∧
        ∃ form, canonicalForm threeLoops false = .ok form ∧ form.code ∈ block.coreHashes ∧
          ∀ pair ∈ block.pairs, threeLoops.Holds threePoints.graph pair.source pair.target) ∧
    ∃ index, (build manyPoints.graph (coresUpTo 2)).result = .ok index ∧
      ∃ block ∈ index.blocks, ∃ q form, canonicalForm q false = .ok form ∧ form.code ∈ block.coreHashes ∧
        ∃ pair ∈ block.pairs, ¬ q.Holds manyPoints.graph pair.source pair.target := by
  constructor
  · obtain ⟨p, index, form, block, hpart, hcount, h, hform, hblock, hpair⟩ := exists_index_of_three_points
    have hcode := mem_coreHashes_of_narrow h rfl hpart hblock (.inr hcount) narrow_threeLoops (Nat.le_refl 2)
      hform hpair holds_threeLoops
    obtain ⟨hlayers, hsound⟩ := lookup_sound h rfl
    exact ⟨index, h, block, hblock, hpair, (hlayers block hblock).1, form, hform, hcode,
      (hsound p hpart).1 block hblock (.inr hcount) _ form hform hcode⟩
  · obtain ⟨p, index, hpart, h, hmany⟩ := exists_index_of_many_points
    exact ⟨index, h, ((lookup_sound h rfl).2 p hpart).2 Star.apart_two hmany⟩

/-- The lookup of cores is complete for narrow queries. A narrow query that an index is deep enough for and
    that holds for a pair of a block is found: the block is among those for its code. -/
theorem lookup_complete_of_narrow (h : (build g o).result = .ok index) (hcores : o.cores = true)
    (hpart : (Partition.build g o.depth).result = .ok p) {block : Block} (hblock : block ∈ index.blocks)
    (hids : block.id < maxSegmentId ∨ p.runCount < UInt32.size) {q : Query}
    (hq : q.Narrow o.maxIntersections) (hlen : q.diameter ≤ o.depth) {form : CanonicalForm}
    (hform : canonicalForm q false = .ok form) {pair : Pair} (hpair : pair ∈ block.pairs)
    (hholds : q.Holds g pair.source pair.target) : block ∈ index.blocksForCore form.code :=
  (mem_blocksForCore_iff h).2 ⟨hblock,
    mem_coreHashes_of_narrow h hcores hpart hblock hids hq hlen hform hpair hholds⟩

theorem lookup_complete_of_narrow_three_points :
    ∃ index, (build threePoints.graph (coresUpTo 3)).result = .ok index ∧ ∃ block ∈ index.blocks,
      ⟨0, 0⟩ ∈ block.pairs ∧ ∃ form, canonicalForm threeLoops false = .ok form ∧
        block ∈ index.blocksForCore form.code := by
  obtain ⟨p, index, form, block, hpart, hcount, h, hform, hblock, hpair⟩ := exists_index_of_three_points
  exact ⟨index, h, block, hblock, hpair, form, hform,
    lookup_complete_of_narrow h rfl hpart hblock (.inr hcount) narrow_threeLoops (Nat.le_refl 2) hform hpair
      holds_threeLoops⟩

end Lookup

end Index

end PathQueryIndex
