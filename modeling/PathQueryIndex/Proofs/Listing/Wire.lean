/-
Module: PathQueryIndex.Proofs.Listing.Wire
Layer: Proofs
Purpose: Listings survive being written as bytes. A reader is described by the bytes that it takes from the
  front and the value that it gives, whatever follows, and descriptions compose as readers do. A number is
  read back group by group, and so is everything that is made of numbers, as long as the lengths of lists fit
  a word.
Imports: PathQueryIndex.Proofs.Listing.SignedCode
Main exports: Wire.Reader.Reads, Wire.Reader.reads_number, Wire.Reader.reads_list, ListedBlock.Fits,
  Listing.Fits, Wire.Reader.reads_listing
-/
import PathQueryIndex.Proofs.Listing.SignedCode

namespace PathQueryIndex

/-- The lengths of all lists of a block fit a word. -/
structure ListedBlock.Fits (b : ListedBlock) : Prop where
  pairs : b.pairs.length < 2 ^ 64
  labels : b.labels.length < 2 ^ 64
  sequences : ∀ sequence ∈ b.labels, sequence.length < 2 ^ 64
  cores : b.cores.length < 2 ^ 64
  codes : ∀ code ∈ b.cores, code.length < 2 ^ 64

/-- The lengths of all lists of a listing fit a word. -/
structure Listing.Fits (l : Listing) : Prop where
  count : l.blocks.length < 2 ^ 64
  blocks : ∀ b ∈ l.blocks, b.Fits

namespace Wire.Reader

variable {α β : Type} {bytes bytes' : List UInt8} {a : α} {b : β}

/-- Whatever follows them, the reader takes the bytes and gives the value. -/
def Reads (m : Reader α) (bytes : List UInt8) (a : α) : Prop :=
  ∀ rest, m (bytes ++ rest) = some (a, rest)

theorem reads_pure (a : α) : Reads (pure a) [] a := fun _ => rfl

theorem Reads.bind {m : Reader α} {f : α → Reader β} (hm : Reads m bytes a)
    (hf : Reads (f a) bytes' b) : Reads (m >>= f) (bytes ++ bytes') b := by
  intro rest
  rw [List.append_assoc]
  change (m (bytes ++ (bytes' ++ rest)) >>= fun x => f x.1 x.2) = _
  rw [hm]
  exact hf rest

/-- Something is done with the value read. -/
theorem Reads.map {m : Reader α} {f : α → Reader β} (hm : Reads m bytes a) (hf : f a = pure b) :
    Reads (m >>= f) bytes b := by
  have hpure : Reads (f a) [] b := hf ▸ reads_pure b
  simpa using hm.bind hpure

/-- The same reading several times over gives the values in order. -/
theorem reads_times {item : Reader α} {code : α → List UInt8} {xs : List α}
    (h : ∀ x ∈ xs, Reads item (code x) x) : Reads (times xs.length item) (xs.flatMap code) xs := by
  induction xs with
  | nil => exact reads_pure []
  | cons x xs ih =>
      have hrest := ih fun y hy => h y (List.mem_cons_of_mem _ hy)
      exact (h x (List.mem_cons_self ..)).bind (hrest.map rfl)

/-! ### Numbers -/

theorem reads_byte (x : UInt8) : Reads byte [x] x := fun _ => rfl

/-- A number is read from its groups, if that many groups are allowed. -/
theorem reads_groups {count n : Nat} (h : n < 128 ^ count) (hcount : 0 < count) :
    Reads (groups count) (Wire.number n) n := by
  induction count generalizing n with
  | zero => exact absurd hcount (Nat.lt_irrefl 0)
  | succ count ih =>
      rw [Wire.number]
      split
      · rename_i hlast
        have hbyte : (UInt8.ofNat n).toNat = n := UInt8.toNat_ofNat'.trans (by omega)
        refine (reads_byte _).map ?_
        simp [hbyte, hlast]
      · rename_i hmore
        have hgroup : (UInt8.ofNat (n % 128 + 128)).toNat = n % 128 + 128 :=
          UInt8.toNat_ofNat'.trans (by omega)
        have hrest : n / 128 < 128 ^ count := Nat.div_lt_of_lt_mul (by rwa [Nat.pow_succ'] at h)
        have hpos : 0 < count := by
          apply Nat.pos_of_ne_zero
          rintro rfl
          rw [Nat.pow_zero] at hrest
          omega
        rw [← List.singleton_append]
        refine (reads_byte _).bind ?_
        simp only [hgroup]
        rw [if_neg (by omega)]
        refine (ih hrest hpos).map ?_
        rw [Nat.add_sub_cancel, Nat.mod_add_div]

/-- A number of so many bits is read back. -/
theorem reads_number {bits n : Nat} (h : n < 2 ^ bits) (hbits : 0 < bits) :
    Reads (number bits) (Wire.number n) n := by
  have hgroups : n < 128 ^ ((bits + 6) / 7) := by
    apply Nat.lt_of_lt_of_le h
    change 2 ^ bits ≤ (2 ^ 7) ^ ((bits + 6) / 7)
    rw [← Nat.pow_mul]
    exact Nat.pow_le_pow_right Nat.two_pos (by omega)
  refine (reads_groups hgroups (by omega)).map ?_
  rw [Nat.one_shiftLeft, if_pos h]

theorem reads_word32 (x : UInt32) : Reads word32 (Wire.number x.toNat) x :=
  (reads_number x.toNat_lt (by decide)).map (by simp)

theorem reads_word64 (x : UInt64) : Reads word64 (Wire.number x.toNat) x :=
  (reads_number x.toNat_lt (by decide)).map (by simp)

/-- A list is read if its items are. -/
theorem reads_list {item : Reader α} {code : α → List UInt8} {xs : List α}
    (hlen : xs.length < 2 ^ 64) (h : ∀ x ∈ xs, Reads item (code x) x) :
    Reads (list item) (Wire.list code xs) xs :=
  (reads_number hlen (by decide)).bind (reads_times h)

/-! ### Listings -/

theorem reads_pair (p : Pair) : Reads pair (Wire.pair p) p :=
  (reads_word32 p.source).bind ((reads_word32 p.target).map rfl)

/-- A signed number is read from its folded form. -/
theorem reads_signed (v : Int32) :
    Reads (do return unfold (← word32)) (Wire.number (fold v).toNat) v :=
  (reads_word32 (fold v)).map (by rw [unfold_fold])

theorem reads_block {b : ListedBlock} (hb : b.Fits) : Reads block (Wire.block b) b := by
  have hlabels : ∀ sequence ∈ b.labels, Reads (list (do return unfold (← word32)))
      (Wire.list (fun v => Wire.number (fold v).toNat) sequence) sequence :=
    fun sequence hsequence => reads_list (hb.sequences sequence hsequence) fun v _ => reads_signed v
  have hcores : ∀ code ∈ b.cores, Reads (list byte) (Wire.list (fun x => [x]) code) code :=
    fun code hcode => reads_list (hb.codes code hcode) fun x _ => reads_byte x
  rw [Wire.block, List.append_assoc, List.append_assoc]
  apply (reads_list hb.pairs fun p _ => reads_pair p).bind
  apply (reads_word64 b.layer).bind
  apply (reads_list hb.labels hlabels).bind
  exact (reads_list hb.cores hcores).map rfl

/-- A listing whose lengths fit is read back. -/
theorem reads_listing {l : Listing} (hl : l.Fits) : Reads listing (Wire.listing l) l :=
  (reads_word64 l.depth).bind ((reads_list hl.count fun b hb => reads_block (hl.blocks b hb)).map rfl)

end Wire.Reader

end PathQueryIndex
