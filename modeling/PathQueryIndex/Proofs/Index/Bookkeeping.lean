/-
Module: PathQueryIndex.Proofs.Index.Bookkeeping
Layer: Proofs
Purpose: What an index says about its cores, before and after it is sorted. Every sorting moves the blocks, and
  the table of cores is made anew each time. So looking a code up always gives the blocks with the code, and
  the counts are those of the cores of the blocks. Sorting leaves the blocks as they are but for the order of
  their pairs. As no two blocks have a pair in common, the first pairs of the sorted blocks ascend strictly,
  and sorting again changes nothing. A construction of one layer in which every draft has a single label can be
  followed to its end, and is an index with cores.
Imports: PathQueryIndex.Proofs.Index.CoreRecords, PathQueryIndex.Proofs.Index.CoreTable,
  PathQueryIndex.Proofs.Listing.Contents
Main exports: Index.exists_index_of_two_steps, Index.MadeBy, Index.CoresRecorded, Index.Sorts,
  Index.sort_sort, Index.cores_are_recorded
-/
import PathQueryIndex.Proofs.Index.CoreRecords
import PathQueryIndex.Proofs.Index.CoreTable
import PathQueryIndex.Proofs.Listing.Contents

namespace PathQueryIndex

open Std

/-! ### A construction of one layer -/

namespace Builder

variable {c : Canonicalizer} {b : Builder} {n : Nat} {ls : LabelSequence} {form : CanonicalForm}

/-- The draft at a place is of the first layer, has a single label, and is not of loops. -/
structure Single (b : Builder) (n : Nat) (ls : LabelSequence) : Prop where
  joins : (b.drafts.getD n default).joins.isEmpty = true
  labels : (b.drafts.getD n default).block.labels.toList = [ls]
  loop : (b.drafts.getD n default).block.isLoop = false

/-- Such a draft has its label as its only core. -/
theorem Single.addCores (h : b.Single n ls)
    (hform : ∀ number, c.resolve number (.ofPattern (canonicalPattern (.path ls) true)) = .ok form) :
    ∃ b', b.addCores c none n = .ok b' ∧ b'.finals = b.finals ∧
      b'.drafts = b.drafts.setIfInBounds n ((b.drafts.getD n default).withCores
        ⟨#[⟨.path ls, form.code⟩], OrderedSet.empty.insert form.code, b.requests + 1⟩) := by
  have hbase : b.baseCores c (b.drafts.getD n default) =
      .ok (⟨#[⟨.path ls, form.code⟩], OrderedSet.empty.insert form.code, b.requests + 1⟩, 0) := by
    unfold baseCores
    rw [h.joins, h.labels]
    exact bind_eq_ok.2 ⟨_, CoreSet.absorb_singleton (hform _), rfl⟩
  have hcores : b.coresOf c none (b.drafts.getD n default) =
      .ok ⟨#[⟨.path ls, form.code⟩], OrderedSet.empty.insert form.code, b.requests + 1⟩ := by
    refine bind_eq_ok.2 ⟨_, hbase, bind_eq_ok.2 ⟨_, CoreSet.close_singleton rfl, ?_⟩⟩
    rw [h.loop]
    rfl
  exact ⟨_, bind_eq_ok.2 ⟨_, hcores, rfl⟩, rfl, rfl⟩

end Builder

namespace Index

/-- Ask for cores, for walks of one step. -/
def coresOfSteps : Options where
  depth := 1
  cores := true
  maxIntersections := none
  threads := 1
  timeout := none

/-- The two directions of a label have forms, whatever their requests are numbered. -/
theorem exists_resolve_label :
    (∃ form, ∀ number, (canonicalizer coresOfSteps).resolve number
      (.ofPattern (canonicalPattern (.label (.forward 0)) true)) = .ok form) ∧
    ∃ form, ∀ number, (canonicalizer coresOfSteps).resolve number
      (.ofPattern (canonicalPattern (.label (.backward 0)) true)) = .ok form := by
  have hforward : ∃ form : CanonicalForm, (canonicalizer coresOfSteps).resolve 0
      (.ofPattern (canonicalPattern (.label (.forward 0)) true)) = .ok form ∧
        form.code = [0, 196, 32, 88, 80] :=
    Canonicalizer.exists_resolve [[0], [1], [2]] (by cbv) (by cbv) (by cbv) (by cbv) (by cbv) (by cbv)
  have hbackward : ∃ form : CanonicalForm, (canonicalizer coresOfSteps).resolve 0
      (.ofPattern (canonicalPattern (.label (.backward 0)) true)) = .ok form ∧
        form.code = [0, 196, 32, 70, 64] :=
    Canonicalizer.exists_resolve [[0], [1], [2]] (by cbv) (by cbv) (by cbv) (by cbv) (by cbv) (by cbv)
  obtain ⟨form, hform, _⟩ := hforward
  obtain ⟨form', hform', _⟩ := hbackward
  exact ⟨⟨form, fun _ => hform⟩, form', fun _ => hform'⟩

/-- The only label of two steps gives two blocks, of the pairs along it and of those against it. -/
theorem exists_index_of_two_steps : ∃ index, (build twoSteps coresOfSteps).result = .ok index ∧
    ∃ block ∈ index.blocks, block.id < maxSegmentId ∧ block.pairs = [⟨0, 1⟩, ⟨1, 2⟩] ∧
      ∃ form, canonicalForm (.label (.forward 0)) false = .ok form ∧
        form.code ∈ block.coreHashes := by
  obtain ⟨⟨form₀, hform₀⟩, form₁, hform₁⟩ := exists_resolve_label
  obtain ⟨p, hpart, hdepth, b, hblocks, hsize, hfinals, h₀, h₁, hid, hpairs⟩ :
      ∃ p, (Partition.build twoSteps coresOfSteps.depth).result = .ok p ∧ p.depth = 1 ∧
        ∃ b, (p.runsOf 0).foldlM (Builder.addBlock 0 true) Builder.empty = .ok b ∧
          b.drafts.size = 2 ∧ b.finals = [0, 1] ∧ b.Single 0 (.single (.forward 0)) ∧
          b.Single 1 (.single (.backward 0)) ∧
          (b.drafts.getD 0 default).block.id < maxSegmentId ∧
          (b.drafts.getD 0 default).block.pairs = [⟨0, 1⟩, ⟨1, 2⟩] :=
    ⟨_, by cbv, by cbv, _, by cbv, by cbv, by cbv, ⟨by cbv, by cbv, by cbv⟩,
      ⟨by cbv, by cbv, by cbv⟩, by decide, by cbv⟩
  let b₀ : Builder := { b with owners := b.owners.push (Builder.layerOwners p 0) }
  have hs₀ : b₀.Single 0 (.single (.forward 0)) := ⟨h₀.joins, h₀.labels, h₀.loop⟩
  obtain ⟨b₁, hb₁, hf₁, hd₁⟩ := hs₀.addCores hform₀
  have hsame : b₁.drafts.getD 1 default = b.drafts.getD 1 default := by
    rw [hd₁, Array.getD_eq_getD_getElem?, Array.getElem?_setIfInBounds_ne Nat.zero_ne_one,
      ← Array.getD_eq_getD_getElem?]
  have hs₁ : b₁.Single 1 (.single (.backward 0)) :=
    ⟨hsame ▸ h₁.joins, hsame ▸ h₁.labels, hsame ▸ h₁.loop⟩
  obtain ⟨b₂, hb₂, hf₂, hd₂⟩ := hs₁.addCores hform₁
  have hcores : (b₀.addLayerCores (canonicalizer coresOfSteps) none 0 0).result = .ok b₂ := by
    have hsize₀ : b₀.drafts.size = 2 := hsize
    simp only [Builder.addLayerCores, Traced.bind_eq_ok, Traced.result_emit, Traced.result_pure,
      Traced.result_foldlM, hsize₀]
    refine ⟨(), trivial, b₂, ?_, (), trivial, rfl⟩
    exact foldlM_cons_eq_ok.2 ⟨b₁, Traced.bind_eq_ok.2 ⟨b₁, hb₁, rfl⟩,
      foldlM_cons_eq_ok.2 ⟨b₂, Traced.bind_eq_ok.2 ⟨b₂, hb₂, rfl⟩, rfl⟩⟩
  have hofPartition :
      (Builder.ofPartition (some (canonicalizer coresOfSteps)) none p).result = .ok b₂ := by
    rw [Builder.ofPartition, hdepth, Traced.result_foldlM]
    refine foldlM_cons_eq_ok.2 ⟨b₂, ?_, rfl⟩
    simp only [Builder.addLayer, Traced.bind_eq_ok, Traced.result_emit, Traced.result_lift, hdepth]
    exact ⟨(), trivial, b, hblocks, (), trivial, hcores⟩
  have hself : b₂.drafts.getD 0 default = (b.drafts.getD 0 default).withCores
      ⟨#[⟨.label (.forward 0), form₀.code⟩], OrderedSet.empty.insert form₀.code, b.requests + 1⟩ := by
    have hlt : 0 < b.drafts.size := hsize ▸ Nat.two_pos
    rw [hd₂, Array.getD_eq_getD_getElem?, Array.getElem?_setIfInBounds_ne Nat.one_ne_zero, hd₁,
      Array.getElem?_setIfInBounds_self_of_lt hlt]
    rfl
  refine ⟨_, build_of_construction (by cbv) hpart (hdepth ▸ Nat.one_ne_zero) rfl hofPartition,
    (b₂.drafts.getD 0 default).block, ?_, ?_⟩
  · refine List.mem_append_left _ (List.mem_map_of_mem ?_)
    rw [hf₂, hf₁]
    exact hfinals ▸ List.mem_cons_self
  · have hfolded : canonicalPattern (.label (.forward 0)) false =
        canonicalPattern (.label (.forward 0)) true := by cbv
    have hform : canonicalForm (.label (.forward 0)) false = .ok form₀ := by
      rw [canonicalForm, hfolded]
      exact hform₀ 0
    rw [hself]
    exact ⟨hid, hpairs, form₀, hform, OrderedSet.mem_insert.2 (.inl rfl)⟩

end Index

/-! ### Indexes of one canonicalizer -/

namespace Index

variable {c : Canonicalizer} {index : Index}

/-- The indexes that can be made with one canonicalizer: of a graph or of a partition of a graph, and any such
    index sorted, any number of times. -/
inductive MadeBy : Canonicalizer → Index → Prop where
  | build {g : Graph} {o : Options} {index : Index} (h : (build g o).result = .ok index) :
      MadeBy (canonicalizer o) index
  | buildWith {g : Graph} {o : Options} {c : Canonicalizer} {index : Index} {requests : Nat}
      (h : (buildWith g o c).result = .ok (index, requests)) : MadeBy c index
  | ofPartition {g : Graph} {k : Nat} {p : Partition} {o : Options} {index : Index}
      (hpart : (Partition.build g k).result = .ok p) (h : (ofPartition p o).result = .ok index) :
      MadeBy (canonicalizer o) index
  | sort {c : Canonicalizer} {index : Index} (h : MadeBy c index) : MadeBy c index.sort

namespace MadeBy

theorem made (h : MadeBy c index) : index.Made := by
  induction h with
  | build h => exact .build h
  | buildWith h => exact .buildWith h
  | ofPartition hpart h => exact .ofPartition hpart h
  | sort _ ih => exact .sort ih

/-- What holds of every index that is assembled of a partition, and is kept by sorting, holds of all. -/
theorem assembled_induction {motive : Canonicalizer → Index → Prop}
    (assembled : ∀ g p o c x, p.Layered g → (assemble p o (some c)).result = .ok x → motive c x.1)
    (sort : ∀ c index, motive c index → motive c index.sort) (h : MadeBy c index) : motive c index := by
  induction h with
  | build h =>
      simp only [Index.build, Index.ofPartition, Traced.bind_eq_ok] at h
      obtain ⟨_, _, p, hpart, _, _, x, hx, hindex⟩ := h
      cases hindex
      exact assembled _ p _ _ x (Partition.layered_of_build hpart).1 hx
  | buildWith h =>
      simp only [Index.buildWith, Traced.bind_eq_ok] at h
      obtain ⟨_, _, p, hpart, hx⟩ := h
      exact assembled _ p _ _ _ (Partition.layered_of_build hpart).1 hx
  | ofPartition hpart h =>
      simp only [Index.ofPartition, Traced.bind_eq_ok] at h
      obtain ⟨_, _, x, hx, hindex⟩ := h
      cases hindex
      exact assembled _ _ _ _ x (Partition.layered_of_build hpart).1 hx
  | sort _ ih => exact sort _ _ ih

/-- The table of cores is always that of the blocks as they stand. -/
theorem coreTable_eq (h : MadeBy c index) : index.coreTable = CoreTable.ofBlocks index.blocks :=
  h.assembled_induction (motive := fun _ index => index.coreTable = CoreTable.ofBlocks index.blocks)
    (fun _ _ _ _ _ _ hx => coreTable_of_assemble hx) fun _ _ _ => rfl

/-- The cores of every block are recorded, whether there are any or not. -/
theorem recorded (h : MadeBy c index) :
    ∀ block ∈ index.blocks, Core.Recorded c block.cores block.coreHashes := by
  refine h.assembled_induction (motive := fun c index =>
    ∀ block ∈ index.blocks, Core.Recorded c block.cores block.coreHashes) ?_ ?_
  · intro g p o c x hp hx block hblock
    obtain ⟨b, hb, hx⟩ := assemble_eq_ok hx
    have hc : ∀ c' ∈ (if o.cores then some c else none : Option Canonicalizer), c' = c := by
      intro c' hc'
      split at hc'
      · exact (Option.some.inj hc').symm
      · cases hc'
    rw [hx] at hblock
    exact (Builder.recorded_of_ofPartition hc hb).of_mem_finish hp (Builder.built_of_ofPartition hb) hblock
  · intro c index ih block hblock
    obtain ⟨x, hx, rfl⟩ := List.mem_map.1 (index.sort_blocks_perm.mem_iff.1 hblock)
    exact ih x hx

end MadeBy

/-- The cores of an index are consistent: those of every block are recorded, a code is looked up to the blocks
    that have it, all of which are different, and the counts are those of the cores of the blocks. -/
structure CoresRecorded (c : Canonicalizer) (index : Index) : Prop where
  recorded : ∀ block ∈ index.blocks, Core.Recorded c block.cores block.coreHashes
  blocksForCore_eq : ∀ code, index.blocksForCore code =
    index.blocks.filter fun block => code ∈ block.coreHashes
  nodup_blocks : index.blocks.Nodup
  totalCores_eq : index.totalCores = sumOf (index.blocks.map fun block => block.cores.length)
  uniqueCores_eq : index.uniqueCores =
    (index.blocks.flatMap fun block => block.cores.map Core.hash).toFinset.card

variable {index : Index}

theorem Proper.nodup_blocks (h : index.Proper) : index.blocks.Nodup := by
  refine h.disjoint.imp_of_mem fun {x y} hx _ hxy heq => ?_
  obtain ⟨pair, hpair⟩ := List.exists_mem_of_ne_nil _ (h.pairs_ne_nil x hx)
  exact hxy pair hpair (heq ▸ hpair)

theorem MadeBy.coresRecorded (h : MadeBy c index) : index.CoresRecorded c where
  recorded := h.recorded
  blocksForCore_eq := index.blocksForCore_eq h.coreTable_eq
  nodup_blocks := (proper_of_made h.made).nodup_blocks
  totalCores_eq := by
    rw [totalCores, h.coreTable_eq, CoreTable.sumOf_lengths]
    exact congrArg sumOf (List.map_congr_left fun block hblock => (h.recorded block hblock).size_eq)
  uniqueCores_eq := by
    rw [uniqueCores, h.coreTable_eq, CoreTable.length_eq]
    congr 1
    ext code
    simp only [List.mem_toFinset, List.mem_flatMap, List.mem_map]
    exact exists_congr fun block => and_congr_right fun hblock => (h.recorded block hblock).mem_iff code

end Index

/-! ### Sorting -/

/-- Two blocks are the same but for the order of their pairs. -/
structure Block.Reordered (x y : Block) : Prop where
  id_eq : y.id = x.id
  layer_eq : y.layer = x.layer
  pairs_perm : y.pairs.Perm x.pairs
  labels_eq : y.labels = x.labels
  cores_eq : y.cores = x.cores
  coreHashes_eq : y.coreHashes = x.coreHashes

namespace Index

variable {c : Canonicalizer} {index other : Index}

/-- The other index has the same blocks in another order, each with its pairs in another order: the pairs of a
    block ascend strictly, and so do the first pairs of the blocks. -/
structure Sorts (index other : Index) : Prop where
  depth_eq : other.depth = index.depth
  hasCores_eq : other.hasCores = index.hasCores
  reordered : ∃ blocks, blocks.Perm index.blocks ∧ List.Forall₂ Block.Reordered blocks other.blocks
  pairs_ascending : ∀ block ∈ other.blocks, Ascending block.pairs
  blocks_ascending : other.blocks.Pairwise fun x y => ∃ p q, x.pairs.head? = some p ∧
    y.pairs.head? = some q ∧ compare p q = .lt

/-- The blocks of a sorted index are those of the index, their pairs being sorted. -/
theorem exists_of_mem_sort_blocks {block : Block} (h : block ∈ index.sort.blocks) :
    ∃ x ∈ index.blocks, { x with pairs := sorted x.pairs } = block :=
  List.mem_map.1 (index.sort_blocks_perm.mem_iff.1 h)

theorem reordered_sort (index : Index) :
    ∃ blocks, blocks.Perm index.blocks ∧ List.Forall₂ Block.Reordered blocks index.sort.blocks := by
  have hpairs : List.Forall₂ (fun y x => Block.Reordered x y)
      (index.blocks.map fun b => { b with pairs := sorted b.pairs }) index.blocks :=
    List.forall₂_map_left_iff.2 (List.forall₂_same.2 fun x _ => ⟨rfl, rfl, sorted_perm x.pairs, rfl, rfl, rfl⟩)
  obtain ⟨blocks, hreordered, hperm⟩ := List.perm_comp_forall₂ index.sort_blocks_perm hpairs
  exact ⟨blocks, hperm, hreordered.flip⟩

/-- The blocks are sorted by their first pairs, and no two of them have a pair in common. -/
theorem blocks_ascending_sort (h : index.Proper) : index.sort.blocks.Pairwise fun x y =>
    ∃ p q, x.pairs.head? = some p ∧ y.pairs.head? = some q ∧ compare p q = .lt := by
  have hsort := h.sort
  have hle := pairwise_sortedOn (fun b : Block => b.pairs.head?)
    (index.blocks.map fun b => { b with pairs := sorted b.pairs })
  refine (hle.and hsort.disjoint).imp_of_mem fun {x y} hx hy hxy => ?_
  obtain ⟨p, ps, hp⟩ := List.exists_cons_of_ne_nil (hsort.pairs_ne_nil x hx)
  obtain ⟨q, qs, hq⟩ := List.exists_cons_of_ne_nil (hsort.pairs_ne_nil y hy)
  refine ⟨p, q, by rw [hp]; rfl, by rw [hq]; rfl, ?_⟩
  have hcompare : (compare p q).isLE = true := by
    have hfirst := hxy.1
    rw [compareOn, hp, hq] at hfirst
    exact hfirst
  have hne : p ≠ q := by
    rintro rfl
    exact hxy.2 p (hp ▸ List.mem_cons_self) (hq ▸ List.mem_cons_self)
  exact (Ordering.isLE_iff_eq_lt_or_eq_eq.1 hcompare).resolve_right
    fun heq => hne (LawfulEqCmp.eq_of_compare heq)

theorem Proper.sorts_sort (h : index.Proper) : index.Sorts index.sort where
  depth_eq := rfl
  hasCores_eq := rfl
  reordered := index.reordered_sort
  pairs_ascending := fun block hblock => by
    obtain ⟨x, hx, rfl⟩ := exists_of_mem_sort_blocks hblock
    exact ascending_sorted (h.nodup_pairs x hx)
  blocks_ascending := blocks_ascending_sort h

/-- Sorting a sorted index changes nothing. -/
theorem sort_sort (index : Index) : index.sort.sort = index.sort := by
  have hpairs : (index.sort.blocks.map fun b => { b with pairs := sorted b.pairs }) = index.sort.blocks := by
    refine (List.map_congr_left fun block hblock => ?_).trans (List.map_id _)
    obtain ⟨x, _, rfl⟩ := exists_of_mem_sort_blocks hblock
    rw [sorted_eq_of_perm (sorted_perm x.pairs)]
    rfl
  have hblocks : index.sort.sort.blocks = index.sort.blocks := by
    change sortedOn _ (index.sort.blocks.map fun b => { b with pairs := sorted b.pairs }) = _
    rw [hpairs]
    exact List.mergeSort_of_pairwise (pairwise_sortedOn _ _)
  change Index.mk _ index.sort.sort.blocks _ (CoreTable.ofBlocks index.sort.sort.blocks) = _
  rw [hblocks]
  rfl

/-- The cores of an index are consistent when it is made and after any number of sortings: no two cores of a
    block have one code, the codes of a block are those of its cores, and each of them is the code of its
    query, which is folded first. The blocks that are looked up for a code are those that have it, each once,
    and the counts are those of all cores and of the different codes. Sorting changes the order of the blocks
    and of their pairs and nothing else, the pairs of a block and the first pairs of the blocks ascend
    strictly, and sorting again has no effect. -/
theorem cores_are_recorded (h : MadeBy c index) :
    index.CoresRecorded c ∧
    (c.labeler = .refinement →
      ∀ block ∈ index.blocks, ∀ core ∈ block.cores, core.query.HasCode core.hash) ∧
    index.Sorts index.sort ∧ index.sort.sort = index.sort :=
  ⟨h.coresRecorded, fun hc block hblock core hcore => ((h.recorded block hblock).canonical core hcore).hasCode hc,
    (proper_of_made h.made).sorts_sort, index.sort_sort⟩

theorem cores_are_recorded_two_steps : ∃ index, (build twoSteps coresOfSteps).result = .ok index ∧
    index.sort.CoresRecorded (canonicalizer coresOfSteps) ∧ index.sort.Sorts index.sort.sort ∧
      ∃ block ∈ index.sort.blocks, ∃ core ∈ block.cores, core.query.HasCode core.hash := by
  obtain ⟨index, h, block, hblock, _, _, form, _, hcode⟩ := exists_index_of_two_steps
  obtain ⟨hcores, hcodes, hsorts, _⟩ := cores_are_recorded (MadeBy.build h).sort
  have hmem : { block with pairs := sorted block.pairs } ∈ index.sort.blocks :=
    index.sort_blocks_perm.mem_iff.2 (List.mem_map_of_mem hblock)
  obtain ⟨core, hcore, _⟩ := ((hcores.recorded _ hmem).mem_iff form.code).1 hcode
  exact ⟨index, h, hcores, hsorts, _, hmem, core, hcore, hcodes rfl _ hmem core hcore⟩

end Index

end PathQueryIndex
