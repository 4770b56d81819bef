/-
Module: PathQueryIndex.Proofs.Listing.Export
Layer: Proofs
Purpose: Exports are read back. The header is short, so its length fits the four bytes before it; the
  numbers that it announces are those of the listing behind it, so whatever is checked agrees. Two indexes
  therefore have one export if and only if they have one listing, and an index is verified against the
  export of another one if and only if they have the same contents.
Imports: PathQueryIndex.Listing.Export, PathQueryIndex.Proofs.Listing.Wire,
  PathQueryIndex.Proofs.Listing.Contents, PathQueryIndex.Proofs.Outcome
Main exports: Header.reads_header, Listing.exportUnder, Listing.ofExport_exportUnder, Listing.ofExport_toExport,
  Index.WithinLimits, Index.exports_agree
-/
import PathQueryIndex.Listing.Export
import PathQueryIndex.Proofs.Listing.Wire
import PathQueryIndex.Proofs.Listing.Contents
import PathQueryIndex.Proofs.Outcome

namespace PathQueryIndex

/-! ### Headers -/

/-- A number has no more groups than its size asks for. -/
theorem Wire.length_number_le {count n : Nat} (h : n < 128 ^ count) (hcount : 0 < count) :
    (Wire.number n).length ≤ count := by
  induction count generalizing n with
  | zero => exact absurd hcount (Nat.lt_irrefl 0)
  | succ count ih =>
      rw [Wire.number]
      split
      · exact Nat.succ_le_succ (Nat.zero_le count)
      · rename_i hmore
        have hrest : n / 128 < 128 ^ count := Nat.div_lt_of_lt_mul (by rwa [Nat.pow_succ'] at h)
        have hpos : 0 < count := by
          apply Nat.pos_of_ne_zero
          rintro rfl
          rw [Nat.pow_zero] at hrest
          omega
        exact Nat.succ_le_succ (ih hrest hpos)

namespace Header

theorem length_word_le (x : UInt64) : (Wire.number x.toNat).length ≤ 10 :=
  Wire.length_number_le (Nat.lt_of_lt_of_le x.toNat_lt (by decide)) (by decide)

/-- A header has a mark of four bytes, a version, and four words. -/
theorem length_encode_le {h : Header} (hmagic : h.magic.length = 4) : h.encode.length ≤ 45 := by
  have hdepth := length_word_le h.depth
  have hblocks := length_word_le h.blockCount
  have hpairs := length_word_le h.pairCount
  have hsum := length_word_le h.checksum
  simp only [encode, List.length_append, hmagic, List.length_singleton]
  omega

open Wire Wire.Reader in
theorem reads_header {h : Header} (hmagic : h.magic.length = 4) : Reads reader h.encode h := by
  have hmark : Reads (times h.magic.length byte) (h.magic.flatMap fun x => [x]) h.magic :=
    reads_times fun x _ => reads_byte x
  rw [hmagic, List.flatMap_singleton'] at hmark
  simp only [encode, List.append_assoc]
  apply hmark.bind
  apply (reads_byte h.version).bind
  apply (reads_word64 h.depth).bind
  apply (reads_word64 h.blockCount).bind
  apply (reads_word64 h.pairCount).bind
  exact (reads_word64 h.checksum).map rfl

end Header

/-- Four bytes are enough for a number below the greatest word of 32 bits. -/
theorem lengthBytes_eq {n : Nat} (h : n < 2 ^ 32) : ∃ a b c d, lengthBytes n = [a, b, c, d] ∧
    a.toNat + 256 * (b.toNat + 256 * (c.toNat + 256 * d.toNat)) = n := by
  refine ⟨_, _, _, _, rfl, ?_⟩
  simp only [UInt8.toNat_ofNat']
  omega

/-! ### Listings -/

namespace Listing

variable {l : Listing}

theorem readAll_eq {α : Type} {m : Wire.Reader α} {bytes : List UInt8} {a : α}
    (h : Wire.Reader.Reads m bytes a) (fault : CodecFault) : readAll fault m bytes = .ok a := by
  have hread := h []
  rw [List.append_nil] at hread
  rw [readAll, hread]

/-- A listing agrees with its own header. -/
theorem checkHeader_ofListing (hblocks : l.blocks.length < 2 ^ 64) (hpairs : l.pairCount < 2 ^ 64) :
    checkHeader (Header.ofListing l) l = .ok () := by
  simp [checkHeader, Header.ofListing, UInt64.toNat_ofNat_of_lt' hblocks,
    UInt64.toNat_ofNat_of_lt' hpairs]
  rfl

/-- The bytes of a listing behind any header. -/
def exportUnder (h : Header) (l : Listing) : List UInt8 :=
  lengthBytes h.encode.length ++ h.encode ++ Wire.listing l

theorem toExport_eq (l : Listing) : l.toExport = exportUnder (Header.ofListing l) l := rfl

/-- Behind the header of some listing a listing that fits is read, and then compared with what the header
    announces, unless this is too large to be read. -/
theorem ofExport_exportUnder (announced : Listing) (hl : l.Fits) :
    ofExport (exportUnder (Header.ofListing announced) l) =
      if maxListedBlocks < (Header.ofListing announced).blockCount then
        .error (.codec (.blockCount (Header.ofListing announced).blockCount))
      else if maxListedPairs < (Header.ofListing announced).pairCount then
        .error (.codec (.pairCount (Header.ofListing announced).pairCount))
      else do
        checkHeader (Header.ofListing announced) l
        return l := by
  have hmagic : (Header.ofListing announced).magic.length = 4 := rfl
  have hlen := Header.length_encode_le hmagic
  obtain ⟨a, b, c, d, hbytes, hvalue⟩ :=
    lengthBytes_eq (n := (Header.ofListing announced).encode.length) (by omega)
  have hheader := readAll_eq (Header.reads_header hmagic) .header
  have hdata := readAll_eq (Wire.Reader.reads_listing hl) .data
  have hvalid : (Header.ofListing announced).validate = .ok () := rfl
  simp only [exportUnder, hbytes, List.cons_append, List.nil_append, ofExport, hvalue]
  rw [if_neg (by simp), List.take_left, List.drop_left, hheader, hdata]
  simp only [bind, Except.bind, hvalid, pure, Except.pure]
  split
  · rfl
  · split
    · rfl
    · rfl

/-- The export of a listing that fits is read back, if it is not too large to be read. -/
theorem ofExport_toExport (hl : l.Fits) (hblocks : l.blocks.length ≤ 10000000)
    (hpairs : l.pairCount ≤ 100000000) : ofExport l.toExport = .ok l := by
  have hblocksWord : l.blocks.length < 2 ^ 64 := Nat.lt_of_le_of_lt hblocks (by decide)
  have hpairsWord : l.pairCount < 2 ^ 64 := Nat.lt_of_le_of_lt hpairs (by decide)
  have hcount : ¬ maxListedBlocks < (Header.ofListing l).blockCount := by
    rw [UInt64.lt_iff_toNat_lt, Header.ofListing, UInt64.toNat_ofNat_of_lt' hblocksWord]
    exact Nat.not_lt.2 hblocks
  have hcount' : ¬ maxListedPairs < (Header.ofListing l).pairCount := by
    rw [UInt64.lt_iff_toNat_lt, Header.ofListing, UInt64.toNat_ofNat_of_lt' hpairsWord]
    exact Nat.not_lt.2 hpairs
  rw [toExport_eq, ofExport_exportUnder l hl, if_neg hcount, if_neg hcount',
    checkHeader_ofListing hblocksWord hpairsWord]
  rfl

/-! ### The listing of an index -/

theorem sumOf_eq_of_perm {ns ms : List Nat} (h : ns.Perm ms) : sumOf ns = sumOf ms := by
  induction h with
  | nil => rfl
  | cons n _ ih => simp [ih]
  | swap n m ns => simp [Nat.add_left_comm]
  | trans _ _ ih ih' => exact ih.trans ih'

variable {index : Index}

theorem length_blocks_ofIndex (index : Index) : (ofIndex index).blocks.length = index.blocks.length := by
  simp [ofIndex, sort]

theorem mem_blocks_ofIndex {z : ListedBlock} :
    z ∈ (ofIndex index).blocks ↔ ∃ block ∈ index.blocks, ListedBlock.ofBlock block = z := by
  simp [ofIndex, sort]

theorem pairCount_ofIndex (index : Index) :
    (ofIndex index).pairCount = sumOf (index.blocks.map fun block => block.pairs.length) := by
  have hperm := (sorted_perm (index.blocks.map ListedBlock.ofBlock)).map fun z => z.pairs.length
  rw [pairCount, ofIndex, sort, sumOf_eq_of_perm hperm, List.map_map]
  congr 1
  apply List.map_congr_left
  intro block _
  simp [ListedBlock.ofBlock]

end Listing

namespace Index

/-- The numbers of blocks and pairs up to which an export is read. -/
structure WithinLimits (index : Index) : Prop where
  blocks : index.blocks.length ≤ 10000000
  pairs : sumOf (index.blocks.map fun block => block.pairs.length) ≤ 100000000

instance (index : Index) : Decidable index.WithinLimits :=
  decidable_of_iff (index.blocks.length ≤ 10000000 ∧
      sumOf (index.blocks.map fun block => block.pairs.length) ≤ 100000000)
    ⟨fun h => ⟨h.1, h.2⟩, fun h => ⟨h.blocks, h.pairs⟩⟩

/-- No block has more pairs than all blocks together. -/
theorem WithinLimits.pairs_block {index : Index} (h : index.WithinLimits) {block : Block}
    (hblock : block ∈ index.blocks) : block.pairs.length ≤ 100000000 := by
  obtain ⟨before, behind, hsplit⟩ := List.append_of_mem hblock
  have hpairs := h.pairs
  rw [hsplit, List.map_append, sumOf_append, List.map_cons, sumOf_cons] at hpairs
  omega

/-- The listing of an index fits if the index does. -/
theorem fits_ofIndex {index : Index} (haddr : index.Addressable) (hlimits : index.WithinLimits) :
    (Listing.ofIndex index).Fits := by
  refine ⟨?_, fun z hz => ?_⟩
  · have hblocks := hlimits.blocks
    rw [Listing.length_blocks_ofIndex]
    omega
  · obtain ⟨block, hblock, rfl⟩ := Listing.mem_blocks_ofIndex.1 hz
    have hpairs := hlimits.pairs_block hblock
    obtain ⟨hlabels, hsequences⟩ := haddr.labels block hblock
    obtain ⟨hcores, hcodes⟩ := haddr.cores block hblock
    refine ⟨?_, ?_, ?_, hcores, hcodes⟩
    · simp only [ListedBlock.ofBlock, length_sorted]
      omega
    · simp only [ListedBlock.ofBlock, List.length_map]
      exact hlabels
    · simp only [ListedBlock.ofBlock, List.forall_mem_map, List.length_map]
      exact hsequences

/-- The export of an index is read back as its listing. -/
theorem ofExport_exported {index : Index} (haddr : index.Addressable) (hlimits : index.WithinLimits) :
    Listing.ofExport index.exported = .ok (Listing.ofIndex index) := by
  refine Listing.ofExport_toExport (fits_ofIndex haddr hlimits) ?_ ?_
  · rw [Listing.length_blocks_ofIndex]
    exact hlimits.blocks
  · rw [Listing.pairCount_ofIndex]
    exact hlimits.pairs

variable {a b : Index}

/-- Equal exports mean equal listings. -/
theorem exported_eq_iff (ha : a.Addressable) (hb : b.Addressable) (halimits : a.WithinLimits)
    (hblimits : b.WithinLimits) :
    a.exported = b.exported ↔ Listing.ofIndex a = Listing.ofIndex b := by
  constructor
  · intro h
    have hread := ofExport_exported ha halimits
    rw [h, ofExport_exported hb hblimits] at hread
    exact (Except.ok.inj hread).symm
  · intro h
    rw [exported, exported, h]

/-- An index is verified against the exports that list its contents. -/
theorem verify_exported_iff (hb : b.Addressable) (hblimits : b.WithinLimits) :
    a.verify b.exported = .ok true ↔ Listing.ofIndex a = Listing.ofIndex b := by
  rw [verify, ofExport_exported hb hblimits]
  change Except.ok (Listing.ofIndex b == Listing.ofIndex a) = Except.ok true ↔ _
  rw [Except.ok.injEq, beq_iff_eq, eq_comm]

/-- Export, import and verification agree. An export is read back as the listing of its index, whatever is in
    it. Of two indexes that can be made, with labels in the lower half of the words, either all of this holds
    or none: their exports are the same bytes, the one is verified against the export of the other, and they
    have the same contents. Sorting an index does not change its export. -/
theorem exports_agree :
    (∀ a : Index, a.Addressable → a.WithinLimits →
      Listing.ofExport a.exported = .ok (Listing.ofIndex a)) ∧
    (∀ a b : Index, a.Made → b.Made → a.Addressable → b.Addressable → a.WithinLimits → b.WithinLimits →
      a.LabelsSigned → b.LabelsSigned →
        (a.exported = b.exported ↔ a.verify b.exported = .ok true) ∧
        (a.verify b.exported = .ok true ↔ a.SameContents b)) ∧
    ∀ a : Index, a.sort.exported = a.exported := by
  refine ⟨fun a => ofExport_exported, ?_, fun a => ?_⟩
  · intro a b ha hb haddr haddr' hlimits hlimits' hlabels hlabels'
    rw [exported_eq_iff haddr haddr' hlimits hlimits', verify_exported_iff haddr' hlimits',
      Listing.ofIndex_eq_iff (proper_of_made ha) (proper_of_made hb) haddr haddr' hlabels hlabels']
    exact ⟨Iff.rfl, Iff.rfl⟩
  · rw [exported, exported, Listing.ofIndex_sort]

/-- The index of two steps and the same index sorted have one export, against which both are verified. -/
theorem exports_agree_two_steps : ∃ index, (build twoSteps blocksOnly).result = .ok index ∧
    Listing.ofExport index.exported = .ok (Listing.ofIndex index) ∧
    (index.sort.exported = index.exported ↔ index.sort.verify index.exported = .ok true) ∧
    (index.sort.verify index.exported = .ok true ↔ index.sort.SameContents index) := by
  obtain ⟨index, h, hcheck⟩ := exists_ok_of_any (x := (build twoSteps blocksOnly).result)
    (f := fun index => decide ((index.Addressable ∧ index.WithinLimits ∧ index.LabelsSigned) ∧
      index.sort.Addressable ∧ index.sort.WithinLimits ∧ index.sort.LabelsSigned)) (by cbv)
  obtain ⟨⟨haddr, hlimits, hlabels⟩, haddr', hlimits', hlabels'⟩ := of_decide_eq_true hcheck
  have hmade := Made.build h
  obtain ⟨hread, hagree, _⟩ := exports_agree
  exact ⟨index, h, hread index haddr hlimits,
    hagree _ _ hmade.sort hmade haddr' haddr hlimits' hlimits hlabels' hlabels⟩

end Index

end PathQueryIndex
