/-
Module: PathQueryIndex.Proofs.Listing.Checksum
Layer: Proofs
Purpose: What the checksum of a listing detects. A listing in which one number is replaced has the same words as
  before but for one. Rotating a word and widening a number lose nothing, so this word is another one, and an
  exclusive or tells two lists apart that differ in one place. Behind the header of the original such a listing
  is refused.
Imports: PathQueryIndex.Proofs.Listing.Export
Main exports: rotateLeft_injective, DifferOnce, ListedBlock.Altered, Listing.Altered,
  Listing.checksum_detects_alteration
-/
import PathQueryIndex.Proofs.Listing.Export

namespace PathQueryIndex

/-! ### Words -/

theorem toBitVec_rotateLeft (x : UInt64) (places : Nat) :
    (rotateLeft x places).toBitVec = x.toBitVec.rotateLeft places := by
  have hlt : places % 64 < 64 := Nat.mod_lt _ (by decide)
  unfold rotateLeft BitVec.rotateLeft BitVec.rotateLeftAux
  generalize places % 64 = r at hlt
  have hleft : (UInt64.ofNat r).toBitVec % 64 = BitVec.ofNat 64 r := by
    apply BitVec.eq_of_toNat_eq
    simp
    omega
  rw [UInt64.toBitVec_or, UInt64.toBitVec_shiftLeft, UInt64.toBitVec_shiftRight, hleft]
  cases r with
  | zero =>
      -- A shift by all 64 places is a shift by none on words, and gives zero on bit vectors.
      simp [BitVec.ushiftRight_eq_zero]
  | succ r =>
      have hright : (UInt64.ofNat (64 - (r + 1))).toBitVec % 64 = BitVec.ofNat 64 (64 - (r + 1)) := by
        apply BitVec.eq_of_toNat_eq
        simp
        omega
      have hword : ∀ n, n < 64 → n % 2 ^ 64 = n := fun n hn => Nat.mod_eq_of_lt (by omega)
      rw [hright, BitVec.shiftLeft_eq', BitVec.ushiftRight_eq', BitVec.toNat_ofNat, BitVec.toNat_ofNat,
        hword _ hlt, hword _ (by omega)]

/-- Rotating a word only moves its bits. -/
theorem rotateLeft_injective {x y : UInt64} {places : Nat}
    (h : rotateLeft x places = rotateLeft y places) : x = y := by
  have hlt : places % 64 < 64 := Nat.mod_lt _ (by decide)
  have hbits := congrArg UInt64.toBitVec h
  rw [toBitVec_rotateLeft, toBitVec_rotateLeft] at hbits
  apply UInt64.toBitVec_inj.1
  apply BitVec.eq_of_getLsbD_eq
  intro i hi
  by_cases hw : i + places % 64 < 64
  · have hbit := congrArg (BitVec.getLsbD · (i + places % 64)) hbits
    have hhigh : ¬ i + places % 64 < places % 64 := by omega
    simpa [BitVec.getLsbD_rotateLeft, hw, hi, hhigh] using hbit
  · have hbit := congrArg (BitVec.getLsbD · (i + places % 64 - 64)) hbits
    have hlow : i + places % 64 - 64 < places % 64 := by omega
    have hback : 64 - places % 64 + (i + places % 64 - 64) = i := by omega
    simpa [BitVec.getLsbD_rotateLeft, hlow, hback] using hbit

/-- Widening a number with its sign loses nothing. -/
theorem widened_injective {x y : Int32} (h : x.toInt64.toUInt64 = y.toInt64.toUInt64) : x = y := by
  have hwide : x.toInt64 = y.toInt64 := Int64.toBitVec_inj.1 (UInt64.toBitVec_inj.2 h)
  have hvalue := congrArg Int64.toInt hwide
  rw [Int32.toInt_toInt64, Int32.toInt_toInt64] at hvalue
  exact Int32.toInt_inj.1 hvalue

/-- The exclusive or of some words starts from any word alike. -/
theorem foldl_xor (x : UInt64) (words : List UInt64) :
    words.foldl (· ^^^ ·) x = x ^^^ words.foldl (· ^^^ ·) 0 := by
  induction words generalizing x with
  | nil => simp
  | cons w words ih => rw [List.foldl_cons, List.foldl_cons, ih, ih (0 ^^^ w), UInt64.zero_xor, UInt64.xor_assoc]

/-- Two lists of words are the same but for one place, where they are not. -/
def DifferOnce (words words' : List UInt64) : Prop :=
  ∃ before x y after, words = before ++ x :: after ∧ words' = before ++ y :: after ∧ x ≠ y

namespace DifferOnce

variable {words words' : List UInt64}

theorem single {x y : UInt64} (h : x ≠ y) : DifferOnce [x] [y] := ⟨[], x, y, [], rfl, rfl, h⟩

/-- Two words are as different when they are rotated. -/
theorem rotated {x y : UInt64} (h : x ≠ y) (places : Nat) : DifferOnce [rotateLeft x places] [rotateLeft y places] :=
  single fun heq => h (rotateLeft_injective heq)

/-- The same words stand in front of both and behind both. -/
theorem within (h : DifferOnce words words') (before after : List UInt64) :
    DifferOnce (before ++ words ++ after) (before ++ words' ++ after) := by
  rcases h with ⟨front, x, y, back, rfl, rfl, hne⟩
  refine ⟨before ++ front, x, y, back ++ after, ?_, ?_, hne⟩ <;> simp

theorem behind (h : DifferOnce words words') (before : List UInt64) :
    DifferOnce (before ++ words) (before ++ words') := by
  simpa using h.within before []

theorem ahead (h : DifferOnce words words') (after : List UInt64) :
    DifferOnce (words ++ after) (words' ++ after) := h.within [] after

/-- The exclusive or tells them apart. -/
theorem xor_ne (h : DifferOnce words words') :
    words'.foldl (· ^^^ ·) 0 ≠ words.foldl (· ^^^ ·) (0 : UInt64) := by
  rcases h with ⟨before, x, y, after, rfl, rfl, hne⟩
  intro heq
  rw [List.foldl_append, List.foldl_append, List.foldl_cons, List.foldl_cons, foldl_xor (_ ^^^ y),
    foldl_xor (_ ^^^ x), UInt64.xor_left_inj, UInt64.xor_right_inj] at heq
  exact hne heq.symm

/-- One element of a list, and with it one of its words, is another. -/
theorem flatMap {α : Type} {f : α → List UInt64} {a b : α} (h : DifferOnce (f a) (f b))
    (before after : List α) :
    DifferOnce ((before ++ a :: after).flatMap f) ((before ++ b :: after).flatMap f) := by
  simpa using h.within (before.flatMap f) (after.flatMap f)

/-- One element of a list is another, and the words of an element depend on its place. -/
theorem flatMap_zipIdx {α : Type} {f : α × Nat → List UInt64} {a b : α}
    (h : ∀ i, DifferOnce (f (a, i)) (f (b, i))) (before after : List α) :
    DifferOnce ((before ++ a :: after).zipIdx.flatMap f) ((before ++ b :: after).zipIdx.flatMap f) := by
  rw [List.zipIdx_append, List.zipIdx_append, List.zipIdx_cons, List.zipIdx_cons]
  exact (h _).flatMap _ _

/-- Each element of a list gives one word, and one element is another. -/
theorem map_zipIdx {α : Type} {f : α × Nat → UInt64} {a b : α} (h : ∀ i, f (a, i) ≠ f (b, i))
    (before after : List α) :
    DifferOnce ((before ++ a :: after).zipIdx.map f) ((before ++ b :: after).zipIdx.map f) := by
  rw [List.map_eq_flatMap, List.map_eq_flatMap]
  exact flatMap_zipIdx (fun i => single (h i)) before after

end DifferOnce

/-! ### One number is replaced -/

/-- One number of a block is replaced by another one: its layer, an end of one of its pairs, a label of one of its
    sequences, or a byte of one of its cores. -/
inductive ListedBlock.Altered (b : ListedBlock) : ListedBlock → Prop where
  | layer {layer : UInt64} (h : layer ≠ b.layer) : Altered b { b with layer }
  | source {before after : List Pair} {p : Pair} {source : Vertex}
      (hb : b.pairs = before ++ p :: after) (h : source ≠ p.source) :
      Altered b { b with pairs := before ++ { p with source } :: after }
  | target {before after : List Pair} {p : Pair} {target : Vertex}
      (hb : b.pairs = before ++ p :: after) (h : target ≠ p.target) :
      Altered b { b with pairs := before ++ { p with target } :: after }
  | label {before after : List (List Int32)} {front back : List Int32} {label label' : Int32}
      (hb : b.labels = before ++ (front ++ label :: back) :: after) (h : label' ≠ label) :
      Altered b { b with labels := before ++ (front ++ label' :: back) :: after }
  | byte {before after : List (List UInt8)} {front back : List UInt8} {byte byte' : UInt8}
      (hb : b.cores = before ++ (front ++ byte :: back) :: after) (h : byte' ≠ byte) :
      Altered b { b with cores := before ++ (front ++ byte' :: back) :: after }

/-- One number of a listing is replaced by another one: its depth, or a number of one of its blocks. -/
inductive Listing.Altered (l : Listing) : Listing → Prop where
  | depth {depth : UInt64} (h : depth ≠ l.depth) : Altered l { l with depth }
  | block {before after : List ListedBlock} {b b' : ListedBlock}
      (hl : l.blocks = before ++ b :: after) (h : b.Altered b') :
      Altered l { l with blocks := before ++ b' :: after }

namespace ListedBlock.Altered

variable {b b' : ListedBlock}

/-- The lists of a block keep their lengths. -/
theorem fits (h : b.Altered b') (hb : b.Fits) : b'.Fits := by
  rcases hb with ⟨hpairs, hlabels, hsequences, hcores, hcodes⟩
  cases h with
  | layer h => exact ⟨hpairs, hlabels, hsequences, hcores, hcodes⟩
  | source hsplit h => exact ⟨by simpa [hsplit] using hpairs, hlabels, hsequences, hcores, hcodes⟩
  | target hsplit h => exact ⟨by simpa [hsplit] using hpairs, hlabels, hsequences, hcores, hcodes⟩
  | label hsplit h =>
      refine ⟨hpairs, by simpa [hsplit] using hlabels, ?_, hcores, hcodes⟩
      simpa [hsplit, or_imp, forall_and] using hsequences
  | byte hsplit h =>
      refine ⟨hpairs, hlabels, hsequences, by simpa [hsplit] using hcores, ?_⟩
      simpa [hsplit, or_imp, forall_and] using hcodes

/-- One word of the block is another one, wherever the block stands. -/
theorem differOnce (h : b.Altered b') (position : Nat) : DifferOnce (b.words position) (b'.words position) := by
  unfold words
  cases h with
  | @layer layer h =>
      apply DifferOnce.ahead
      apply DifferOnce.ahead
      apply DifferOnce.ahead
      exact (DifferOnce.rotated h.symm 3).behind [_]
  | @source before after p source hsplit h =>
      have hword : p.source.toUInt64 ≠ source.toUInt64 := mt UInt32.toUInt64_inj.1 h.symm
      rw [hsplit]
      apply DifferOnce.ahead
      apply DifferOnce.ahead
      apply DifferOnce.behind
      apply DifferOnce.flatMap (a := p) (b := { p with source })
      exact (DifferOnce.rotated hword 13).ahead [_]
  | @target before after p target hsplit h =>
      have hword : p.target.toUInt64 ≠ target.toUInt64 := mt UInt32.toUInt64_inj.1 h.symm
      rw [hsplit]
      apply DifferOnce.ahead
      apply DifferOnce.ahead
      apply DifferOnce.behind
      apply DifferOnce.flatMap (a := p) (b := { p with target })
      exact (DifferOnce.rotated hword 7).behind [_]
  | @label before after front back label label' hsplit h =>
      have hwords : DifferOnce (labelWords (front ++ label :: back)) (labelWords (front ++ label' :: back)) := by
        apply DifferOnce.map_zipIdx
        intro i heq
        exact h (widened_injective (rotateLeft_injective heq)).symm
      have hlen : (front ++ label' :: back).length = (front ++ label :: back).length := by simp
      rw [hsplit]
      apply DifferOnce.ahead
      apply DifferOnce.behind
      apply DifferOnce.flatMap
      rw [hlen]
      exact hwords.behind [_]
  | @byte before after front back byte byte' hsplit h =>
      have hwords : DifferOnce (coreWords (front ++ byte :: back)) (coreWords (front ++ byte' :: back)) := by
        apply DifferOnce.map_zipIdx
        intro i heq
        exact h (UInt8.toUInt64_inj.1 (rotateLeft_injective heq)).symm
      rw [hsplit]
      apply DifferOnce.behind
      exact hwords.flatMap before after

end ListedBlock.Altered

namespace Listing

variable {l l' : Listing}

namespace Altered

theorem fits (h : l.Altered l') (hl : l.Fits) : l'.Fits := by
  rcases hl with ⟨hcount, hblocks⟩
  cases h with
  | depth h => exact ⟨hcount, hblocks⟩
  | @block before after b b' hsplit h =>
      rw [hsplit] at hcount hblocks
      refine ⟨by simpa using hcount, fun c hc => ?_⟩
      rcases List.mem_append.1 hc with hc | hc
      · exact hblocks c (List.mem_append.2 (.inl hc))
      · rcases List.mem_cons.1 hc with rfl | hc
        · exact h.fits (hblocks b (List.mem_append.2 (.inr (List.mem_cons_self ..))))
        · exact hblocks c (List.mem_append.2 (.inr (List.mem_cons_of_mem _ hc)))

theorem differOnce (h : l.Altered l') : DifferOnce l.words l'.words := by
  unfold words
  cases h with
  | @depth depth h =>
      exact (DifferOnce.rotated h.symm 29).behind _
  | @block before after b b' hsplit h =>
      rw [hsplit]
      apply DifferOnce.ahead
      exact DifferOnce.flatMap_zipIdx (fun i => h.differOnce i) before after

end Altered

/-- The checksum detects every replacement of one number by another. A listing and one in which the depth, the layer
    of a block, an end of a pair, a label or a byte of a core is another have different checksums; and if the
    lengths of the lists fit words, the bytes of the second one behind the header of the first are refused: for
    the checksum, unless the header announces more blocks or pairs than are read. -/
theorem checksum_detects_alteration (h : l.Altered l') :
    l'.checksum ≠ l.checksum ∧
    (l.Fits → ∃ fault, ofExport (exportUnder (Header.ofListing l) l') = .error (.codec fault) ∧
      ((Header.ofListing l).blockCount ≤ maxListedBlocks → (Header.ofListing l).pairCount ≤ maxListedPairs →
        fault = .checksum l.checksum l'.checksum)) := by
  have hsum : l'.checksum ≠ l.checksum := h.differOnce.xor_ne
  refine ⟨hsum, fun hl => ?_⟩
  have hcheck : checkHeader (Header.ofListing l) l' = .error (.codec (.checksum l.checksum l'.checksum)) := by
    simp [checkHeader, Header.ofListing, hsum]
    rfl
  rw [ofExport_exportUnder l (h.fits hl), hcheck]
  by_cases hblocks : maxListedBlocks < (Header.ofListing l).blockCount
  · rw [if_pos hblocks]
    exact ⟨_, rfl, fun hle => absurd hblocks (UInt64.not_lt.2 hle)⟩
  · rw [if_neg hblocks]
    by_cases hpairs : maxListedPairs < (Header.ofListing l).pairCount
    · rw [if_pos hpairs]
      exact ⟨_, rfl, fun _ hle => absurd hpairs (UInt64.not_lt.2 hle)⟩
    · rw [if_neg hpairs]
      exact ⟨_, rfl, fun _ _ => rfl⟩

/-- The listing of one loop with one label. -/
def ofLoop (label : Int32) : Listing where
  depth := 1
  blocks := [{ pairs := [⟨0, 0⟩], layer := 0, labels := [[label]], cores := [] }]

/-- The direction of a label is its sign. Behind the header of the listing with the label forward, the one with
    the label backward is refused for its checksum. -/
theorem checksum_detects_alteration_sign : (ofLoop 1).Altered (ofLoop (-1)) ∧
    (ofLoop (-1)).checksum ≠ (ofLoop 1).checksum ∧
    ofExport (exportUnder (Header.ofListing (ofLoop 1)) (ofLoop (-1))) =
      .error (.codec (.checksum (ofLoop 1).checksum (ofLoop (-1)).checksum)) := by
  have haltered : (ofLoop 1).Altered (ofLoop (-1)) :=
    @Altered.block _ [] [] _ _ rfl (@ListedBlock.Altered.label _ [] [] [] [] 1 (-1) rfl (by decide))
  have hfits : (ofLoop 1).Fits := ⟨by decide, by
    simp only [ofLoop, List.forall_mem_singleton]
    exact ⟨by decide, by decide, by decide, by decide, by decide⟩⟩
  obtain ⟨hsum, hread⟩ := checksum_detects_alteration haltered
  obtain ⟨fault, herror, hfault⟩ := hread hfits
  exact ⟨haltered, hsum, by rw [herror, hfault (by decide) (by decide)]⟩

end Listing

end PathQueryIndex
