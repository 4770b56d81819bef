/-
Module: PathQueryIndex.Proofs.Index.CoreTable
Layer: Proofs
Purpose: The table of cores says where the codes of the blocks are. It has one entry for each code of a block,
  with the places of the blocks that have the code, ascending. So looking a code up in an index gives just the
  blocks with the code, in their order, and the entries and the places can be counted at the blocks.
Imports: PathQueryIndex.Proofs.Index.Blocks, PathQueryIndex.Proofs.Grouping, Mathlib.Data.Finset.Card
Main exports: CoreTable.places_eq, CoreTable.sumOf_lengths, CoreTable.length_eq,
  Index.coreTable_of_assemble, Index.blocksForCore_eq, Index.mem_blocksForCore_iff
-/
import PathQueryIndex.Proofs.Index.Blocks
import PathQueryIndex.Proofs.Grouping
import Mathlib.Data.Finset.Card

namespace PathQueryIndex

open Std

/-! ### The entries of the table -/

namespace CoreTable

/-- A set has a single entry for each of its elements. -/
theorem filter_codes (codes : OrderedSet CoreHash) (code : CoreHash) :
    codes.toList.filter (· == code) = if code ∈ codes then [code] else [] := by
  rw [List.filter_beq]
  split
  · rename_i hmem
    rw [List.count_eq_one_of_mem codes.nodup_toList hmem]
    rfl
  · rename_i hmem
    rw [List.count_eq_zero_of_not_mem hmem]
    rfl

/-- The places of a code are those of the blocks that have it, ascending. -/
theorem places_eq (blocks : List Block) (code : CoreHash) :
    ((ofBlocks blocks).lookup code).getD [] =
      (blocks.zipIdx.filter fun x => code ∈ x.1.coreHashes).map Prod.snd := by
  have hentries : ∀ xs : List (Block × Nat),
      ((xs.flatMap fun x => x.1.coreHashes.toList.map fun h => (h, x.2)).filter (·.1 == code)).map Prod.snd =
        (xs.filter fun x => code ∈ x.1.coreHashes).map Prod.snd := by
    intro xs
    induction xs with
    | nil => rfl
    | cons x xs ih =>
        rw [List.flatMap_cons, List.filter_append, List.map_append, ih, List.filter_map, List.filter_cons]
        have hcodes := filter_codes x.1.coreHashes code
        simp only [Function.comp_def, hcodes]
        by_cases hmem : code ∈ x.1.coreHashes
        · simp only [hmem, if_true, decide_true]
          rfl
        · simp only [hmem, if_false, decide_false]
          rfl
  rw [ofBlocks_eq, lookup_groupByKey, hentries]

/-- The places of all codes together are as many as the codes of all blocks. -/
theorem sumOf_lengths (blocks : List Block) : sumOf ((ofBlocks blocks).map fun (_, places) => places.length) =
    sumOf (blocks.map fun block => block.coreHashes.size) := by
  have hsizes : (fun x : Block × Nat => (x.1.coreHashes.toList.map fun h => (h, x.2)).length) =
      (fun block => block.coreHashes.size) ∘ Prod.fst := funext fun _ => List.length_map _
  rw [sumOf_map_length, ofBlocks_eq, flatMap_values_groupByKey, List.length_map, sortedOn, List.length_mergeSort,
    ← sumOf_map_length, hsizes, ← List.map_map, List.zipIdx_map_fst]

theorem mem_keys {blocks : List Block} {code : CoreHash} :
    code ∈ (ofBlocks blocks).map Prod.fst ↔ ∃ block ∈ blocks, code ∈ block.coreHashes := by
  rw [ofBlocks_eq, mem_keys_groupByKey]
  simp only [List.mem_map, List.mem_flatMap]
  constructor
  · rintro ⟨_, ⟨⟨block, i⟩, hblock, h, hcode, rfl⟩, rfl⟩
    exact ⟨block, List.mem_of_getElem? (List.mem_zipIdx_iff_getElem?.1 hblock), hcode⟩
  · rintro ⟨block, hblock, hcode⟩
    obtain ⟨i, hi⟩ := List.mem_iff_getElem?.1 hblock
    exact ⟨(code, i), ⟨(block, i), List.mem_zipIdx_iff_getElem?.2 hi, code, hcode, rfl⟩, rfl⟩

/-- The table has one entry for every code of a block. -/
theorem length_eq (blocks : List Block) :
    (ofBlocks blocks).length = (blocks.flatMap fun block => block.coreHashes.toList).toFinset.card := by
  have hnodup : ((ofBlocks blocks).map Prod.fst).Nodup := nodup_keys_groupByKey _
  rw [← List.length_map Prod.fst, ← List.toFinset_card_of_nodup hnodup]
  congr 1
  ext code
  rw [List.mem_toFinset, List.mem_toFinset, mem_keys, List.mem_flatMap]
  rfl

end CoreTable

/-! ### Looking codes up -/

namespace Index

variable {g : Graph} {o : Options} {p : Partition} {index : Index}

/-- The table of an index is that of its blocks. -/
theorem coreTable_of_assemble {oc : Option Canonicalizer} {x : Index × Nat}
    (h : (assemble p o oc).result = .ok x) : x.1.coreTable = CoreTable.ofBlocks x.1.blocks := by
  obtain ⟨b, _, hx⟩ := assemble_eq_ok h
  rw [hx]

theorem coreTable_of_build (h : (build g o).result = .ok index) :
    index.coreTable = CoreTable.ofBlocks index.blocks := by
  simp only [build, ofPartition, Traced.bind_eq_ok, Traced.result_lift] at h
  obtain ⟨_, _, p, _, _, _, x, hx, hindex⟩ := h
  cases hindex
  exact coreTable_of_assemble hx

/-- The blocks that are looked up for a code are those that have it. -/
theorem blocksForCore_eq (h : index.coreTable = CoreTable.ofBlocks index.blocks) (code : CoreHash) :
    index.blocksForCore code = index.blocks.filter fun block => code ∈ block.coreHashes := by
  rw [blocksForCore, h, CoreTable.places_eq, List.filterMap_map]
  have hblock : ∀ x ∈ index.blocks.zipIdx.filter fun x => code ∈ x.1.coreHashes,
      ((fun i => index.blocks[i]?) ∘ Prod.snd) x = (some ∘ Prod.fst) x :=
    fun x hx => List.mem_zipIdx_iff_getElem?.1 (List.mem_filter.1 hx).1
  rw [List.filterMap_congr hblock, List.filterMap_eq_map]
  have hfst := List.filter_map (f := Prod.fst) (p := fun block : Block => decide (code ∈ block.coreHashes))
    (l := index.blocks.zipIdx)
  rw [List.zipIdx_map_fst] at hfst
  exact hfst.symm

theorem mem_blocksForCore_iff (h : (build g o).result = .ok index) {code : CoreHash} {block : Block} :
    block ∈ index.blocksForCore code ↔ block ∈ index.blocks ∧ code ∈ block.coreHashes := by
  rw [index.blocksForCore_eq (coreTable_of_build h), List.mem_filter, decide_eq_true_iff]

end Index

end PathQueryIndex
