/-
Module: PathQueryIndex.Proofs.Listing.Contents
Layer: Proofs
Purpose: What a listing says about an index. In an index that can be made no block is empty, no pair stands
  twice in a block, and no two blocks have a pair in common; so its blocks are listed differently, and two
  lists of blocks are sorted into one list if they have the same blocks. A block is listed by the set of its
  pairs, by its layer, and by its sets of label sequences and codes: ids and orders leave no trace.
Imports: PathQueryIndex.Proofs.Listing.SignedCode, PathQueryIndex.Proofs.Index.Blocks,
  PathQueryIndex.Proofs.Grouping
Main exports: Index.Made, Index.Proper, Index.proper_of_made, Block.Same, Index.SameContents,
  Index.Addressable, Listing.ofIndex_eq_iff, Listing.ofIndex_sort
-/
import PathQueryIndex.Proofs.Listing.SignedCode
import PathQueryIndex.Proofs.Index.Blocks
import PathQueryIndex.Proofs.Grouping

namespace PathQueryIndex

open Std

/-! ### Indexes that can be made -/

namespace Index

variable {index : Index} {g : Graph} {o : Options} {p : Partition}

/-- The indexes that can be made: of a graph, with the usual canonicalizer or another one, or of a partition
    of a graph; and any such index sorted. -/
inductive Made : Index → Prop where
  | build {g : Graph} {o : Options} {index : Index} (h : (build g o).result = .ok index) : Made index
  | buildWith {g : Graph} {o : Options} {c : Canonicalizer} {index : Index} {requests : Nat}
      (h : (buildWith g o c).result = .ok (index, requests)) : Made index
  | ofPartition {g : Graph} {k : Nat} {p : Partition} {o : Options} {index : Index}
      (hpart : (Partition.build g k).result = .ok p) (h : (ofPartition p o).result = .ok index) :
      Made index
  | sort {index : Index} (h : Made index) : Made index.sort

/-- No block is empty, no pair stands twice in a block, and no two blocks have a pair in common. -/
structure Proper (index : Index) : Prop where
  pairs_ne_nil : ∀ block ∈ index.blocks, block.pairs ≠ []
  nodup_pairs : ∀ block ∈ index.blocks, block.pairs.Nodup
  disjoint : index.blocks.Pairwise fun x y => ∀ pair ∈ x.pairs, pair ∉ y.pairs

theorem proper_of_assemble (hp : p.Layered g) {oc : Option Canonicalizer} {x : Index × Nat}
    (h : (assemble p o oc).result = .ok x) : x.1.Proper := by
  obtain ⟨b, hb, hx⟩ := assemble_eq_ok h
  have hblocks : x.1.blocks = b.finish := congrArg blocks hx
  have hbuilt := Builder.built_of_ofPartition hb
  have hcomes : ∀ block ∈ x.1.blocks, ∃ j r, Builder.ComesFrom p b j r block := by
    rw [hblocks]
    exact fun block hblock => Builder.comesFrom_of_mem_finish hp hbuilt hblock
  refine ⟨fun block hblock => ?_, fun block hblock => ?_, ?_⟩
  · rcases hcomes block hblock with ⟨j, r, hr⟩
    exact hr.pairs_ne_nil
  · rcases hcomes block hblock with ⟨j, r, hr⟩
    exact hr.nodup_pairs
  · rw [hblocks]
    exact (Builder.pairwise_finish hp hbuilt).imp fun h => h.2

/-- The blocks of a sorted index are those of the index with their pairs sorted, in another order. -/
theorem sort_blocks_perm (index : Index) :
    index.sort.blocks.Perm (index.blocks.map fun b => { b with pairs := sorted b.pairs }) :=
  List.mergeSort_perm ..

theorem Proper.sort (h : index.Proper) : index.sort.Proper := by
  have hmem : ∀ block ∈ index.sort.blocks, ∃ x ∈ index.blocks, block.pairs = sorted x.pairs := by
    intro block hblock
    rcases List.mem_map.1 (index.sort_blocks_perm.mem_iff.1 hblock) with ⟨x, hx, rfl⟩
    exact ⟨x, hx, rfl⟩
  refine ⟨fun block hblock => ?_, fun block hblock => ?_, ?_⟩
  · rcases hmem block hblock with ⟨x, hx, hpairs⟩
    rw [hpairs]
    exact fun hnil => h.pairs_ne_nil x hx (hnil ▸ sorted_perm x.pairs).symm.eq_nil
  · rcases hmem block hblock with ⟨x, hx, hpairs⟩
    rw [hpairs]
    exact (sorted_perm x.pairs).nodup_iff.2 (h.nodup_pairs x hx)
  · have hsymm : ∀ {x y : Block}, (∀ pair ∈ x.pairs, pair ∉ y.pairs) → ∀ pair ∈ y.pairs, pair ∉ x.pairs :=
      fun hxy pair hy hx => hxy pair hx hy
    refine (index.sort_blocks_perm.pairwise_iff hsymm).2 (List.pairwise_map.2 (h.disjoint.imp ?_))
    intro x y hxy pair
    simpa using hxy pair

theorem proper_of_made (h : index.Made) : index.Proper := by
  induction h with
  | build h =>
      simp only [Index.build, Index.ofPartition, Traced.bind_eq_ok] at h
      rcases h with ⟨_, _, p, hpart, _, _, x, hx, hindex⟩
      cases hindex
      exact proper_of_assemble (Partition.layered_of_build hpart).1 hx
  | buildWith h =>
      simp only [Index.buildWith, Traced.bind_eq_ok] at h
      rcases h with ⟨_, _, p, hpart, hx⟩
      exact proper_of_assemble (Partition.layered_of_build hpart).1 hx
  | ofPartition hpart h =>
      simp only [Index.ofPartition, Traced.bind_eq_ok] at h
      rcases h with ⟨_, _, x, hx, hindex⟩
      cases hindex
      exact proper_of_assemble (Partition.layered_of_build hpart).1 hx
  | sort _ ih => exact ih.sort

/-! ### The contents of an index -/

end Index

/-- Two blocks have the same pairs, layer, label sequences and codes. -/
structure Block.Same (x y : Block) : Prop where
  pairs : ∀ pair, pair ∈ x.pairs ↔ pair ∈ y.pairs
  layer_eq : x.layer = y.layer
  labels : ∀ ls, ls ∈ x.labels ↔ ls ∈ y.labels
  coreHashes : ∀ code, code ∈ x.coreHashes ↔ code ∈ y.coreHashes

namespace Index

/-- Two indexes have the same depth and the same set of blocks. -/
structure SameContents (a b : Index) : Prop where
  depth_eq : a.depth = b.depth
  left : ∀ x ∈ a.blocks, ∃ y ∈ b.blocks, x.Same y
  right : ∀ y ∈ b.blocks, ∃ x ∈ a.blocks, x.Same y

/-- Whatever is numbered or counted in an index fits a word of the machine. -/
structure Addressable (index : Index) : Prop where
  depth : index.depth < 2 ^ 64
  layer : ∀ block ∈ index.blocks, block.layer < 2 ^ 64
  labels : ∀ block ∈ index.blocks, block.labels.size < 2 ^ 64 ∧
    ∀ ls ∈ block.labels, ls.length < 2 ^ 64
  cores : ∀ block ∈ index.blocks, block.coreHashes.size < 2 ^ 64 ∧
    ∀ code ∈ block.coreHashes, code.length < 2 ^ 64

instance (index : Index) : Decidable index.Addressable :=
  decidable_of_iff (index.depth < 2 ^ 64 ∧ (∀ block ∈ index.blocks, block.layer < 2 ^ 64) ∧
      (∀ block ∈ index.blocks, block.labels.size < 2 ^ 64 ∧
        ∀ ls ∈ block.labels.toList, ls.length < 2 ^ 64) ∧
      ∀ block ∈ index.blocks, block.coreHashes.size < 2 ^ 64 ∧
        ∀ code ∈ block.coreHashes.toList, code.length < 2 ^ 64)
    ⟨fun h => ⟨h.1, h.2.1, h.2.2.1, h.2.2.2⟩, fun h => ⟨h.depth, h.layer, h.labels, h.cores⟩⟩

/-- Every label has a number in the lower half of the words. -/
def LabelsSigned (index : Index) : Prop :=
  ∀ block ∈ index.blocks, ∀ ls ∈ block.labels, ∀ l ∈ ls.labels, l.id.toNat < 2 ^ 31

instance (index : Index) : Decidable index.LabelsSigned :=
  inferInstanceAs (Decidable (∀ block ∈ index.blocks, ∀ ls ∈ block.labels.toList, ∀ l ∈ ls.labels,
    l.id.toNat < 2 ^ 31))

end Index

/-! ### Listed blocks -/

namespace ListedBlock

instance : LawfulEqOrd ListedBlock where
  eq_of_compare {a b} h := by
    have h : (compareLex (compareOn pairs) (compareLex (compareOn layer)
      (compareLex (compareOn labels) (compareOn cores)))) a b = .eq := h
    simp only [compareLex_eq_eq, compareOn, LawfulEqCmp.compare_eq_iff_eq] at h
    cases a; cases b; simp_all

variable {x y : Block}

theorem ofBlock_pairs_sorted (x : Block) : ofBlock { x with pairs := sorted x.pairs } = ofBlock x := by
  simp only [ofBlock]
  rw [sorted_eq_of_perm (sorted_perm x.pairs)]

/-- Blocks with the same contents are listed the same. -/
theorem ofBlock_eq_of_same (hx : x.pairs.Nodup) (hy : y.pairs.Nodup) (h : x.Same y) :
    ofBlock x = ofBlock y := by
  have hpairs : sorted x.pairs = sorted y.pairs :=
    sorted_eq_of_perm ((List.perm_ext_iff_of_nodup hx hy).2 h.pairs)
  rw [ofBlock, ofBlock, hpairs, h.layer_eq, OrderedSet.ext_mem h.labels, OrderedSet.ext_mem h.coreHashes]

/-- The labels of listed sequences are determined if their numbers are in the lower half. -/
theorem eq_of_map_signed_eq {ls ms : LabelSequence} (hls : ∀ l ∈ ls.labels, l.id.toNat < 2 ^ 31)
    (hms : ∀ m ∈ ms.labels, m.id.toNat < 2 ^ 31)
    (h : ls.labels.map Label.signed = ms.labels.map Label.signed) : ls = ms := by
  apply LabelSequence.eq_of_labels_eq
  have hcodes := List.forall₂_eq_eq_eq ▸ h
  rw [List.forall₂_map_left_iff, List.forall₂_map_right_iff] at hcodes
  rw [← List.forall₂_eq_eq_eq]
  exact forall₂_imp_of_mem hcodes fun l hl m hm hlm => Label.eq_of_signed_eq (hls l hl) (hms m hm) hlm

/-- Blocks that are listed the same have the same contents, if the numbers of their labels are in the lower
    half. -/
theorem same_of_ofBlock_eq (hlayer : x.layer < 2 ^ 64) (hlayer' : y.layer < 2 ^ 64)
    (hx : ∀ ls ∈ x.labels, ∀ l ∈ ls.labels, l.id.toNat < 2 ^ 31)
    (hy : ∀ ls ∈ y.labels, ∀ l ∈ ls.labels, l.id.toNat < 2 ^ 31)
    (h : ofBlock x = ofBlock y) : x.Same y := by
  have hpairs : sorted x.pairs = sorted y.pairs := congrArg pairs h
  have hlayers : UInt64.ofNat x.layer = UInt64.ofNat y.layer := congrArg layer h
  have hcores : x.coreHashes.toList = y.coreHashes.toList := congrArg cores h
  have hlabels : x.labels.toList.map (fun s => s.labels.map Label.signed) =
      y.labels.toList.map fun s => s.labels.map Label.signed := congrArg labels h
  rw [← List.forall₂_eq_eq_eq, List.forall₂_map_left_iff, List.forall₂_map_right_iff] at hlabels
  have hsame : x.labels.toList = y.labels.toList := by
    rw [← List.forall₂_eq_eq_eq]
    exact forall₂_imp_of_mem hlabels fun ls hls ms hms heq =>
      eq_of_map_signed_eq (hx ls hls) (hy ms hms) heq
  refine ⟨fun pair => ?_, ?_, fun ls => ?_, fun code => ?_⟩
  · rw [← mem_sorted, hpairs, mem_sorted]
  · simpa [UInt64.toNat_ofNat_of_lt' hlayer, UInt64.toNat_ofNat_of_lt' hlayer'] using
      congrArg UInt64.toNat hlayers
  · rw [OrderedSet.mem_iff, hsame, OrderedSet.mem_iff]
  · rw [OrderedSet.mem_iff, hcores, OrderedSet.mem_iff]

end ListedBlock

/-! ### Listings -/

namespace Listing

variable {a b : Index}

/-- No block of a proper index is listed twice. -/
theorem nodup_listed (ha : a.Proper) : (a.blocks.map ListedBlock.ofBlock).Nodup := by
  refine List.pairwise_map.2 (ha.disjoint.imp_of_mem fun {x y} hx hy hxy heq => ?_)
  rcases List.exists_mem_of_ne_nil _ (ha.pairs_ne_nil x hx) with ⟨pair, hpair⟩
  have hpairs : sorted x.pairs = sorted y.pairs := congrArg ListedBlock.pairs heq
  refine hxy pair hpair ?_
  rwa [← mem_sorted, ← hpairs, mem_sorted]

/-- Two proper indexes have the same listing if and only if they have the same contents. -/
theorem ofIndex_eq_iff (ha : a.Proper) (hb : b.Proper) (haddr : a.Addressable) (haddr' : b.Addressable)
    (hlabels : a.LabelsSigned) (hlabels' : b.LabelsSigned) :
    ofIndex a = ofIndex b ↔ a.SameContents b := by
  have hsame : ∀ x ∈ a.blocks, ∀ y ∈ b.blocks,
      ListedBlock.ofBlock x = ListedBlock.ofBlock y ↔ x.Same y := by
    intro x hx y hy
    constructor
    · exact ListedBlock.same_of_ofBlock_eq (haddr.layer x hx) (haddr'.layer y hy) (hlabels x hx)
        (hlabels' y hy)
    · exact ListedBlock.ofBlock_eq_of_same (ha.nodup_pairs x hx) (hb.nodup_pairs y hy)
  constructor
  · intro h
    have hdepth : UInt64.ofNat a.depth = UInt64.ofNat b.depth := congrArg depth h
    have hblocks : sorted (a.blocks.map ListedBlock.ofBlock) = sorted (b.blocks.map ListedBlock.ofBlock) :=
      congrArg blocks h
    have hmem : ∀ z, z ∈ a.blocks.map ListedBlock.ofBlock ↔ z ∈ b.blocks.map ListedBlock.ofBlock := by
      intro z
      rw [← mem_sorted, hblocks, mem_sorted]
    refine ⟨?_, fun x hx => ?_, fun y hy => ?_⟩
    · simpa [UInt64.toNat_ofNat_of_lt' haddr.depth, UInt64.toNat_ofNat_of_lt' haddr'.depth] using
        congrArg UInt64.toNat hdepth
    · rcases List.mem_map.1 ((hmem _).1 (List.mem_map_of_mem hx)) with ⟨y, hy, hyx⟩
      exact ⟨y, hy, (hsame x hx y hy).1 hyx.symm⟩
    · rcases List.mem_map.1 ((hmem _).2 (List.mem_map_of_mem hy)) with ⟨x, hx, hxy⟩
      exact ⟨x, hx, (hsame x hx y hy).1 hxy⟩
  · intro h
    have hperm : (a.blocks.map ListedBlock.ofBlock).Perm (b.blocks.map ListedBlock.ofBlock) := by
      refine (List.perm_ext_iff_of_nodup (nodup_listed ha) (nodup_listed hb)).2 fun z => ?_
      simp only [List.mem_map]
      constructor
      · rintro ⟨x, hx, rfl⟩
        rcases h.left x hx with ⟨y, hy, hxy⟩
        exact ⟨y, hy, ((hsame x hx y hy).2 hxy).symm⟩
      · rintro ⟨y, hy, rfl⟩
        rcases h.right y hy with ⟨x, hx, hxy⟩
        exact ⟨x, hx, (hsame x hx y hy).2 hxy⟩
    simp only [ofIndex, sort, h.depth_eq, sorted_eq_of_perm hperm]

/-- Sorting an index does not change its listing. -/
theorem ofIndex_sort (index : Index) : ofIndex index.sort = ofIndex index := by
  have hlisted : (index.sort.blocks.map ListedBlock.ofBlock).Perm
      (index.blocks.map ListedBlock.ofBlock) := by
    have hperm := index.sort_blocks_perm.map ListedBlock.ofBlock
    rw [List.map_map] at hperm
    simpa [Function.comp_def, ListedBlock.ofBlock_pairs_sorted] using hperm
  have hdepth : index.sort.depth = index.depth := rfl
  simp only [ofIndex, sort, hdepth, sorted_eq_of_perm hlisted]

end Listing

end PathQueryIndex
