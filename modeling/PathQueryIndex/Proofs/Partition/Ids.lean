/-
Module: PathQueryIndex.Proofs.Partition.Ids
Layer: Proofs
Purpose: What the ids of segments tell. The order of a layer is a comparison of keys with the pair as a last
  resort, and neighbours share an id if their keys compare equal, so that ids never descend along a layer
  and equal keys always share an id. The other way round an id stands for one key only as long as there
  are ids left: this is what the number of runs bounds. Ids of a later layer are greater than all ids of
  an earlier one in any case, since a layer is only begun behind the last id of the one before.
Imports: PathQueryIndex.Proofs.Partition.Walks, PathQueryIndex.Sums
Main exports: Segment.compareKey, Partition.runCount, Partition.Layered.id_lt_id,
  Partition.Layered.id_eq_of_same, Partition.Layered.id_eq_iff, Partition.Layered.eq_layer_of_id_eq
-/
import PathQueryIndex.Proofs.Partition.Walks
import PathQueryIndex.Sums

namespace PathQueryIndex

open Std

/-! ### Keys -/

theorem compare_split_eq_iff {x y : Split} : compare x y = .eq ↔ x.ids = y.ids := by
  change compareLex (compareOn Split.firstId) (compareOn Split.secondId) x y = .eq ↔ _
  simp only [compareLex_eq_eq, compareOn, LawfulEqCmp.compare_eq_iff_eq, Split.ids, Prod.mk.injEq]

/-- Two lists of splits compare equal if they have the same ids. -/
theorem compare_splits_eq_iff {xs ys : List Split} :
    compare xs ys = .eq ↔ xs.map Split.ids = ys.map Split.ids := by
  induction xs generalizing ys with
  | nil =>
      cases ys with
      | nil => simp
      | cons y ys => simp
  | cons x xs ih =>
      cases ys with
      | nil => simp
      | cons y ys =>
          rw [List.compare_cons_cons, Ordering.then_eq_eq, ih, compare_split_eq_iff]
          simp

/-- The ids of the splits of a set are determined by what they are: they strictly ascend, so that none
    stands twice and their order is fixed. -/
theorem map_ids_eq_of_mem_iff {s t : OrderedSet Split}
    (h : ∀ ids, ids ∈ s.toList.map Split.ids ↔ ids ∈ t.toList.map Split.ids) :
    s.toList.map Split.ids = t.toList.map Split.ids := by
  let idsOrd : Ord (Nat × Nat) := lexOrd
  have htrans : TransOrd (Nat × Nat) :=
    inferInstanceAs (TransCmp (compareLex (compareOn Prod.fst) (compareOn Prod.snd)))
  have hasc : ∀ x : OrderedSet Split, Ascending (x.toList.map Split.ids) :=
    fun x => List.pairwise_map.2 x.ascending
  exact OrderedSet.eq_of_ascending (hasc s) (hasc t) h

namespace Segment

/-- The comparison of the keys of two segments of a layer. -/
def compareKey : Nat → Segment → Segment → Ordering
  | 0 => compareLex (compareOn fun s => s.labels.toList) (compareOn isLoop)
  | _ + 1 => compareLex (compareOn fun s => s.splits.toList)
      (compareLex (compareOn ancestorId) (compareOn isLoop))

instance (i : Nat) : TransCmp (compareKey i) := by
  cases i with
  | zero =>
      exact inferInstanceAs (TransCmp
        (compareLex (compareOn fun s : Segment => s.labels.toList) (compareOn isLoop)))
  | succ i =>
      exact inferInstanceAs (TransCmp (compareLex (compareOn fun s : Segment => s.splits.toList)
        (compareLex (compareOn ancestorId) (compareOn isLoop))))

/-- Segments are ordered by their keys first, and by their pairs if the keys are equal. -/
theorem order_eq (i : Nat) : order i = compareLex (compareKey i) (compareOn pair) := by
  funext a b
  cases i with
  | zero => exact (Ordering.then_assoc _ _ _).symm
  | succ i =>
      change Ordering.then _ _ = Ordering.then (Ordering.then _ (Ordering.then _ _)) _
      rw [Ordering.then_assoc, Ordering.then_assoc]
      rfl

/-- The segments of a layer ascend by their keys. -/
theorem pairwise_mergeSort_order (i : Nat) (xs : List Segment) :
    (xs.mergeSort fun a b => (order i a b).isLE).Pairwise fun a b =>
      (compareKey i a b).isLE = true := by
  rw [order_eq]
  refine (pairwise_mergeSort_isLE xs).imp fun {a b} h => ?_
  change (Ordering.then (compareKey i a b) _).isLE = true at h
  cases hkey : compareKey i a b with
  | lt => rfl
  | eq => rfl
  | gt =>
      rw [hkey] at h
      cases h

/-- Segments cannot be told apart if their keys compare equal. -/
theorem same_eq (i : Nat) (a b : Segment) : same i a b = (compareKey i a b == .eq) := by
  rw [Bool.eq_iff_iff, beq_iff_eq]
  cases i with
  | zero =>
      change (_ && _) = true ↔ compareLex _ _ a b = .eq
      simp only [compareLex_eq_eq, compareOn, LawfulEqCmp.compare_eq_iff_eq, Bool.and_eq_true,
        beq_iff_eq]
  | succ i =>
      change (_ && _ && _) = true ↔ compareLex _ _ a b = .eq
      simp only [compareLex_eq_eq, compareOn, LawfulEqCmp.compare_eq_iff_eq, Bool.and_eq_true,
        beq_iff_eq, compare_splits_eq_iff, and_assoc]

theorem same_iff {i : Nat} {a b : Segment} : same i a b = true ↔ compareKey i a b = .eq := by
  rw [same_eq, beq_iff_eq]

end Segment

/-! ### Numbering an ascending list

The list ascends by key throughout, so that the segments between two with equal keys have that key too.
The induction is on the list: the first segment is compared with the second, and whatever stands behind
the second is compared through it. -/

section Numbering

/-- What lies between equals is equal to them. -/
theorem eq_of_between {α : Type} {cmp : α → α → Ordering} [TransCmp cmp] {a b c : α}
    (hab : (cmp a b).isLE = true) (hbc : (cmp b c).isLE = true) (hac : cmp a c = .eq) :
    cmp a b = .eq := by
  cases h : cmp a b with
  | lt =>
      have hlt := TransCmp.lt_of_lt_of_isLE h hbc
      rw [hac] at hlt
      cases hlt
  | eq => rfl
  | gt =>
      rw [h] at hab
      cases hab

variable {i n : Nat} {xs : List Segment} {z : Segment}

/-- The first id is the given one. -/
theorem assignIds_cons (same : Segment → Segment → Bool) (n : Nat) (s : Segment)
    (xs : List Segment) : ∃ tail, assignIds same n (s :: xs) = { s with id := n } :: tail := by
  cases xs with
  | nil => exact ⟨[], rfl⟩
  | cons t rest => exact ⟨_, rfl⟩

theorem exists_of_mem_assignIds {same : Segment → Segment → Bool} (h : z ∈ assignIds same n xs) :
    ∃ x ∈ xs, z.unnumbered = x.unnumbered := by
  have hz : z.unnumbered ∈ xs.map Segment.unnumbered := by
    rw [← map_unnumbered_assignIds same n xs]
    exact List.mem_map_of_mem h
  obtain ⟨x, hx, heq⟩ := List.mem_map.1 hz
  exact ⟨x, hx, heq.symm⟩

namespace Segment

@[simp] theorem compareKey_unnumbered_left (i : Nat) (a b : Segment) :
    compareKey i a.unnumbered b = compareKey i a b := by cases i <;> rfl

@[simp] theorem compareKey_unnumbered_right (i : Nat) (a b : Segment) :
    compareKey i a b.unnumbered = compareKey i a b := by cases i <;> rfl

theorem compareKey_numbered (i n : Nat) (a b : Segment) :
    compareKey i { a with id := n } b = compareKey i a b := by cases i <;> rfl

theorem compareKey_numbered_right (i n : Nat) (a b : Segment) :
    compareKey i a { b with id := n } = compareKey i a b := by cases i <;> rfl

/-- Keys do not depend on ids. -/
theorem compareKey_congr {i : Nat} {a b c d : Segment} (hac : a.unnumbered = c.unnumbered)
    (hbd : b.unnumbered = d.unnumbered) : compareKey i a b = compareKey i c d := by
  rw [← compareKey_unnumbered_left, ← compareKey_unnumbered_right, hac, hbd,
    compareKey_unnumbered_left, compareKey_unnumbered_right]

end Segment

theorem le_nextId (h : n ≤ maxSegmentId) : n ≤ nextId n ∧ nextId n ≤ maxSegmentId := by
  unfold nextId
  omega

/-- Ids start at the given one and stay in their range. -/
theorem id_bounds_of_mem_assignIds {same : Segment → Segment → Bool} (hn : n ≤ maxSegmentId)
    (hz : z ∈ assignIds same n xs) : n ≤ z.id ∧ z.id ≤ maxSegmentId := by
  induction xs generalizing n with
  | nil => cases hz
  | cons s xs ih =>
      cases xs with
      | nil =>
          rw [List.mem_singleton.1 hz]
          exact ⟨Nat.le_refl _, hn⟩
      | cons t rest =>
          rcases List.mem_cons.1 hz with rfl | hz
          · exact ⟨Nat.le_refl _, hn⟩
          · obtain ⟨hle, hmax⟩ := le_nextId hn
            split at hz
            · exact ih hn hz
            · obtain ⟨hlow, hhigh⟩ := ih hmax hz
              exact ⟨Nat.le_trans hle hlow, hhigh⟩

/-- Ids never descend. -/
theorem pairwise_id_le_assignIds {same : Segment → Segment → Bool} (hn : n ≤ maxSegmentId) :
    (assignIds same n xs).Pairwise fun a b => a.id ≤ b.id := by
  induction xs generalizing n with
  | nil => exact .nil
  | cons s xs ih =>
      cases xs with
      | nil => exact List.pairwise_singleton ..
      | cons t rest =>
          obtain ⟨hle, hmax⟩ := le_nextId hn
          refine List.pairwise_cons.2 ⟨fun z hz => ?_, ?_⟩
          · split at hz
            · exact (id_bounds_of_mem_assignIds hn hz).1
            · exact Nat.le_trans hle (id_bounds_of_mem_assignIds hmax hz).1
          · split
            · exact ih hn
            · exact ih hmax

/-- Segments that cannot be told apart share an id. -/
theorem pairwise_id_eq_of_key_eq (h : xs.Pairwise fun a b => (Segment.compareKey i a b).isLE = true) :
    (assignIds (Segment.same i) n xs).Pairwise fun a b =>
      Segment.compareKey i a b = .eq → a.id = b.id := by
  induction xs generalizing n with
  | nil => exact .nil
  | cons s xs ih =>
      cases xs with
      | nil => exact List.pairwise_singleton ..
      | cons t rest =>
          obtain ⟨hs, hrest⟩ := List.pairwise_cons.1 h
          have ih := fun m => ih (n := m) hrest
          refine List.pairwise_cons.2 ⟨fun z hz hkey => ?_, ih _⟩
          obtain ⟨x, hx, hzx⟩ := exists_of_mem_assignIds hz
          rw [Segment.compareKey_numbered] at hkey
          have hsx : Segment.compareKey i s x = .eq :=
            (Segment.compareKey_congr rfl hzx.symm).trans hkey
          have htx : (Segment.compareKey i t x).isLE = true := by
            rcases List.mem_cons.1 hx with rfl | hx
            · have hself : Segment.compareKey i x x = .eq := ReflCmp.compare_self
              rw [hself]
              rfl
            · exact (List.pairwise_cons.1 hrest).1 x hx
          have hst := eq_of_between (hs t (List.mem_cons_self ..)) htx hsx
          have htx := TransCmp.eq_trans (OrientedCmp.eq_symm hst) hsx
          rw [if_pos (Segment.same_iff.2 hst)] at hz
          obtain ⟨tail, htail⟩ := assignIds_cons (Segment.same i) n t rest
          rw [htail] at hz
          rcases List.mem_cons.1 hz with rfl | hz
          · rfl
          · have hpair := ih n
            rw [htail] at hpair
            refine (List.pairwise_cons.1 hpair).1 z hz ?_
            rw [Segment.compareKey_numbered]
            exact (Segment.compareKey_congr rfl hzx).trans htx

/-- Each step uses up an id if it begins a run, and none otherwise. -/
theorem nextId_add_runs {s t : Segment} {rest : List Segment}
    (hroom : n + (runs (Segment.same i) (s :: t :: rest)).length ≤ maxSegmentId + 1) :
    (if Segment.same i s t then n else nextId n) + (runs (Segment.same i) (t :: rest)).length =
      n + (runs (Segment.same i) (s :: t :: rest)).length := by
  have hpos : 0 < (runs (Segment.same i) (t :: rest)).length := length_runs_pos _ (List.cons_ne_nil _ _)
  rw [length_runs_cons_cons] at hroom ⊢
  by_cases hst : Segment.same i s t = true
  · rw [if_pos hst, if_pos hst, Nat.add_zero]
  · rw [if_neg hst] at hroom
    rw [if_neg hst, if_neg hst]
    unfold nextId
    omega

/-- As long as there are ids for all runs, segments that share an id cannot be told apart. -/
theorem pairwise_key_eq_of_id_eq
    (hroom : n + (runs (Segment.same i) xs).length ≤ maxSegmentId + 1) :
    (assignIds (Segment.same i) n xs).Pairwise fun a b =>
      a.id = b.id → Segment.compareKey i a b = .eq := by
  induction xs generalizing n with
  | nil => exact .nil
  | cons s xs ih =>
      cases xs with
      | nil => exact List.pairwise_singleton ..
      | cons t rest =>
          have hnext := nextId_add_runs hroom
          have hrest := ih (Nat.le_trans (Nat.le_of_eq hnext) hroom)
          rw [assignIds]
          refine List.pairwise_cons.2 ⟨fun z hz hid => ?_, hrest⟩
          have hid : n = z.id := hid
          rw [Segment.compareKey_numbered]
          by_cases hst : Segment.same i s t = true
          · rw [if_pos hst] at hz hrest
            have hst := Segment.same_iff.1 hst
            obtain ⟨tail, htail⟩ := assignIds_cons (Segment.same i) n t rest
            rw [htail] at hz hrest
            rcases List.mem_cons.1 hz with rfl | hz
            · rw [Segment.compareKey_numbered_right]
              exact hst
            · have htz := (List.pairwise_cons.1 hrest).1 z hz hid
              rw [Segment.compareKey_numbered] at htz
              exact TransCmp.eq_trans hst htz
          · rw [if_neg hst] at hz hnext
            rw [length_runs_cons_cons, if_neg hst] at hnext hroom
            have hmax : nextId n ≤ maxSegmentId := Nat.min_le_right ..
            have hbound := (id_bounds_of_mem_assignIds hmax hz).1
            omega

/-- Segments that share an id before the last one cannot be told apart, whether there are ids for all runs
    or not: only the last id is given out twice. -/
theorem pairwise_key_eq_of_id_lt :
    (assignIds (Segment.same i) n xs).Pairwise fun a b =>
      a.id = b.id → a.id < maxSegmentId → Segment.compareKey i a b = .eq := by
  induction xs generalizing n with
  | nil => exact .nil
  | cons s xs ih =>
      cases xs with
      | nil => exact List.pairwise_singleton ..
      | cons t rest =>
          rw [assignIds]
          refine List.pairwise_cons.2 ⟨fun z hz hid hlt => ?_, ih⟩
          have hid : n = z.id := hid
          have hlt : n < maxSegmentId := hlt
          rw [Segment.compareKey_numbered]
          by_cases hst : Segment.same i s t = true
          · have hrest := ih (n := n)
            rw [if_pos hst] at hz
            have hst := Segment.same_iff.1 hst
            obtain ⟨tail, htail⟩ := assignIds_cons (Segment.same i) n t rest
            rw [htail] at hz hrest
            rcases List.mem_cons.1 hz with rfl | hz
            · rw [Segment.compareKey_numbered_right]
              exact hst
            · have htz := (List.pairwise_cons.1 hrest).1 z hz hid hlt
              rw [Segment.compareKey_numbered] at htz
              exact TransCmp.eq_trans hst htz
          · rw [if_neg hst] at hz
            have hmax : nextId n ≤ maxSegmentId := Nat.min_le_right ..
            have hbound := (id_bounds_of_mem_assignIds hmax hz).1
            unfold nextId at hbound
            omega

/-- Up to the greatest id each step uses up an id if it begins a run, and none otherwise. -/
theorem min_nextId_add_runs (i n : Nat) (s t : Segment) (rest : List Segment) :
    min ((if Segment.same i s t then n else nextId n) + (runs (Segment.same i) (t :: rest)).length - 1) maxSegmentId =
      min (n + (runs (Segment.same i) (s :: t :: rest)).length - 1) maxSegmentId := by
  have hpos : 0 < (runs (Segment.same i) (t :: rest)).length := length_runs_pos _ (List.cons_ne_nil _ _)
  rw [length_runs_cons_cons]
  by_cases hst : Segment.same i s t = true
  · rw [if_pos hst, if_pos hst, Nat.add_zero]
  · rw [if_neg hst, if_neg hst]
    unfold nextId
    omega

/-- The last id tells how many runs there were, unless it is the greatest id. -/
theorem getLast?_assignIds_id (hxs : xs ≠ []) (hn : n ≤ maxSegmentId) :
    ∃ last, (assignIds (Segment.same i) n xs).getLast? = some last ∧
      last.id = min (n + (runs (Segment.same i) xs).length - 1) maxSegmentId := by
  induction xs generalizing n with
  | nil => exact absurd rfl hxs
  | cons s xs ih =>
      cases xs with
      | nil => exact ⟨_, rfl, (Nat.min_eq_left hn).symm⟩
      | cons t rest =>
          have hnext : (if Segment.same i s t then n else nextId n) ≤ maxSegmentId := by
            split
            · exact hn
            · exact (le_nextId hn).2
          obtain ⟨last, hlast, hid⟩ := ih (List.cons_ne_nil _ _) hnext
          refine ⟨last, ?_, hid.trans (min_nextId_add_runs i n s t rest)⟩
          obtain ⟨tail, htail⟩ := assignIds_cons (Segment.same i)
            (if Segment.same i s t then n else nextId n) t rest
          rw [assignIds]
          rw [htail] at hlast ⊢
          exact hlast

/-- Numbering leaves the runs as they are. -/
theorem length_runs_assignIds :
    (runs (Segment.same i) (assignIds (Segment.same i) n xs)).length =
      (runs (Segment.same i) xs).length := by
  have hkeys : (fun a b => Segment.same i a.unnumbered b.unnumbered) = Segment.same i := by
    cases i <;> rfl
  have hmap : ∀ ys : List Segment, (runs (Segment.same i) ys).length =
      (runs (Segment.same i) (ys.map Segment.unnumbered)).length := by
    intro ys
    rw [runs_map, hkeys, List.length_map]
  rw [hmap, map_unnumbered_assignIds, ← hmap]

end Numbering

/-! ### The ids of a partition -/

namespace Partition

variable {g : Graph} {p : Partition} {i j : Nat} {s t : Segment}

/-- How many stretches of segments there are in the layers before one that cannot be told apart. -/
def runsBefore (p : Partition) (i : Nat) : Nat :=
  sumOf ((List.range i).map fun j => (runs (Segment.same j) (p.layer j).toList).length)

/-- How many stretches of segments there are in all layers that cannot be told apart. -/
def runCount (p : Partition) : Nat := p.runsBefore p.depth

theorem runsBefore_succ (p : Partition) (i : Nat) : p.runsBefore (i + 1) =
    p.runsBefore i + (runs (Segment.same i) (p.layer i).toList).length := by
  rw [runsBefore, List.range_succ, List.map_append, sumOf_append]
  rfl

theorem runsBefore_mono (p : Partition) (h : i ≤ j) : p.runsBefore i ≤ p.runsBefore j := by
  induction h with
  | refl => exact Nat.le_refl _
  | step _ ih =>
      rw [runsBefore_succ]
      exact Nat.le_trans ih (Nat.le_add_right ..)

/-- No two segments of a layer with this id can be told apart. -/
def Sharp (p : Partition) (n : Nat) : Prop :=
  ∀ i < p.depth, ∀ s ∈ p.layer i, ∀ t ∈ p.layer i, s.id = n → t.id = n →
    Segment.same i s t = true

namespace Layered

variable (hp : p.Layered g)

include hp

/-- A layer is numbered in the order of its keys. -/
theorem toList_layer (hi : i < p.depth) : (p.layer i).toList =
    assignIds (Segment.same i) (p.startId i)
      ((p.rawSegments g i).mergeSort fun a b => (Segment.order i a b).isLE) := by
  rw [hp.layer_eq i hi]
  rfl

theorem pairwise_id_le (hi : i < p.depth) :
    (p.layer i).toList.Pairwise fun a b => a.id ≤ b.id := by
  rw [hp.toList_layer hi]
  exact pairwise_id_le_assignIds (hp.room i hi)

theorem startId_le_id (hi : i < p.depth) (hs : s ∈ p.layer i) : p.startId i ≤ s.id := by
  rw [← Array.mem_toList_iff, hp.toList_layer hi] at hs
  exact (id_bounds_of_mem_assignIds (hp.room i hi) hs).1

/-- All ids of a layer come before the first id of the next one. -/
theorem id_lt_startId_succ (hi : i < p.depth) (hs : s ∈ p.layer i) : s.id < p.startId (i + 1) := by
  rw [startId, Nat.lt_succ_iff]
  have hmem := Array.mem_toList_iff.2 hs
  have hne : (p.layer i).toList ≠ [] := List.ne_nil_of_mem hmem
  have hback : (p.layer i).back? = some ((p.layer i).toList.getLast hne) := by
    rw [← Array.getLast?_toList, List.getLast?_eq_some_getLast hne]
  have hpair := hp.pairwise_id_le hi
  rw [← List.dropLast_concat_getLast hne] at hpair hmem
  rw [lastId, hback]
  rcases List.mem_append.1 hmem with hmem | hmem
  · exact (List.pairwise_append.1 hpair).2.2 s hmem _ (List.mem_singleton_self _)
  · rw [List.mem_singleton.1 hmem]
    exact Nat.le_refl _

theorem startId_lt_succ (hi : i < p.depth) : p.startId i < p.startId (i + 1) := by
  rw [startId, Nat.lt_succ_iff, lastId]
  cases hback : (p.layer i).back? with
  | none => exact Nat.le_refl _
  | some s => exact hp.startId_le_id hi (Array.mem_of_back? hback)

theorem startId_le_startId (hij : i ≤ j) (hj : j ≤ p.depth) : p.startId i ≤ p.startId j := by
  induction j with
  | zero =>
      obtain rfl : i = 0 := Nat.le_zero.1 hij
      exact Nat.le_refl _
  | succ j ih =>
      rcases Nat.lt_or_eq_of_le hij with hlt | rfl
      · have hle := ih (Nat.le_of_lt_succ hlt) (Nat.le_of_succ_le hj)
        exact Nat.le_of_lt (Nat.lt_of_le_of_lt hle (hp.startId_lt_succ hj))
      · exact Nat.le_refl _

/-- Ids of a later layer are greater than those of an earlier one. -/
theorem id_lt_id (hij : i < j) (hj : j < p.depth) (hs : s ∈ p.layer i) (ht : t ∈ p.layer j) :
    s.id < t.id :=
  calc
    s.id < p.startId (i + 1) := hp.id_lt_startId_succ (Nat.lt_trans hij hj) hs
    _ ≤ p.startId j := hp.startId_le_startId hij (Nat.le_of_lt hj)
    _ ≤ t.id := hp.startId_le_id hj ht

/-- An id tells the layer. -/
theorem eq_layer_of_id_eq (hi : i < p.depth) (hj : j < p.depth) (hs : s ∈ p.layer i)
    (ht : t ∈ p.layer j) (hid : s.id = t.id) : i = j := by
  rcases Nat.lt_trichotomy i j with hlt | heq | hgt
  · exact absurd hid (Nat.ne_of_lt (hp.id_lt_id hlt hj hs ht))
  · exact heq
  · exact absurd hid.symm (Nat.ne_of_lt (hp.id_lt_id hgt hi ht hs))

/-- Segments that cannot be told apart share an id. -/
theorem id_eq_of_same (hi : i < p.depth) (hs : s ∈ p.layer i) (ht : t ∈ p.layer i)
    (h : Segment.same i s t = true) : s.id = t.id := by
  rw [← Array.mem_toList_iff, hp.toList_layer hi] at hs ht
  have hpair := pairwise_id_eq_of_key_eq (n := p.startId i)
    (Segment.pairwise_mergeSort_order i (p.rawSegments g i))
  have hflip := hpair.imp fun {a b} hab (hba : Segment.compareKey i b a = .eq) =>
    (hab (OrientedCmp.eq_symm hba)).symm
  exact hpair.forall_of_forall_of_flip (fun _ _ _ => rfl) hflip hs ht (Segment.same_iff.1 h)

/-! ### Enough ids for all runs -/

/-- Before a layer that has segments every layer has some: a walk begins with a shorter one. -/
theorem exists_mem_of_lt (hij : i < j) (hj : j < p.depth) (ht : t ∈ p.layer j) :
    ∃ s, s ∈ p.layer i := by
  have hw := (hp.exists_segment_iff hj).1 ⟨t, ht, rfl⟩
  have hlen : j + 1 = (i + 1) + (j - i) := by omega
  rw [hlen] at hw
  obtain ⟨v, hfirst, _⟩ := Graph.joined_add.1 hw
  obtain ⟨s, hs, _⟩ := (hp.exists_segment_iff (Nat.lt_trans hij hj)).2 hfirst
  exact ⟨s, hs⟩

/-- As long as there are ids for all runs, a layer begins behind the runs of the layers before it. -/
theorem startId_eq (hcount : p.runCount ≤ maxSegmentId) (hi : i < p.depth) (hs : s ∈ p.layer i) :
    p.startId i = p.runsBefore i + 1 := by
  induction i generalizing s with
  | zero => rfl
  | succ i ih =>
      have hlast : i < p.depth := Nat.lt_of_succ_lt hi
      obtain ⟨t, ht⟩ := hp.exists_mem_of_lt (Nat.lt_succ_self i) hi hs
      have hstart := ih hlast ht
      have hruns := runsBefore_succ p i
      have hmono : p.runsBefore (i + 1) ≤ p.runCount := runsBefore_mono p (Nat.le_of_lt hi)
      have hlist := hp.toList_layer hlast
      have hne : (p.rawSegments g i).mergeSort (fun a b => (Segment.order i a b).isLE) ≠ [] := by
        intro hnil
        rw [hnil] at hlist
        have hmem := Array.mem_toList_iff.2 ht
        rw [hlist] at hmem
        cases hmem
      rw [hlist, length_runs_assignIds] at hruns
      have hpos := length_runs_pos (Segment.same i) hne
      obtain ⟨last, hback, hid⟩ := getLast?_assignIds_id (i := i) hne (hp.room i hlast)
      rw [← hlist, Array.getLast?_toList] at hback
      rw [startId, lastId, hback]
      change last.id + 1 = _
      omega

/-- As long as there are ids for all runs, two segments of a layer share an id if and only if they cannot
    be told apart. -/
theorem id_eq_iff (hcount : p.runCount ≤ maxSegmentId) (hi : i < p.depth) (hs : s ∈ p.layer i)
    (ht : t ∈ p.layer i) : s.id = t.id ↔ Segment.same i s t = true := by
  refine ⟨fun hid => Segment.same_iff.2 ?_, hp.id_eq_of_same hi hs ht⟩
  have hstart := hp.startId_eq hcount hi hs
  have hruns := runsBefore_succ p i
  have hmono : p.runsBefore (i + 1) ≤ p.runCount := runsBefore_mono p hi
  have hlist := hp.toList_layer hi
  rw [hlist, length_runs_assignIds] at hruns
  rw [← Array.mem_toList_iff] at hs ht
  have hpair : (p.layer i).toList.Pairwise fun a b =>
      a.id = b.id → Segment.compareKey i a b = .eq := by
    rw [hlist]
    exact pairwise_key_eq_of_id_eq (by omega)
  have hflip := hpair.imp fun {a b} hab (hba : b.id = a.id) => OrientedCmp.eq_symm (hab hba.symm)
  exact hpair.forall_of_forall_of_flip (fun _ _ _ => ReflCmp.compare_self) hflip hs ht hid

/-- As long as there are ids for all runs, every id is sharp. -/
theorem sharp_of_runCount_le (hcount : p.runCount ≤ maxSegmentId) (n : Nat) : p.Sharp n :=
  fun _ hi _ hs _ ht hsid htid => (hp.id_eq_iff hcount hi hs ht).1 (hsid.trans htid.symm)

/-- Every id but the last one is sharp in any case. -/
theorem sharp_of_lt {n : Nat} (hn : n < maxSegmentId) : p.Sharp n := by
  intro i hi s hs t ht hsid htid
  have hlist := hp.toList_layer hi
  rw [← Array.mem_toList_iff] at hs ht
  have hpair : (p.layer i).toList.Pairwise fun a b =>
      a.id = n → b.id = n → Segment.compareKey i a b = .eq := by
    rw [hlist]
    exact pairwise_key_eq_of_id_lt.imp fun hab ha hb =>
      hab (ha.trans hb.symm) (Nat.lt_of_le_of_lt (Nat.le_of_eq ha) hn)
  have hflip := hpair.imp fun {a b} hab (hb : b.id = n) (ha : a.id = n) =>
    OrientedCmp.eq_symm (hab ha hb)
  exact Segment.same_iff.2 (hpair.forall_of_forall_of_flip
    (fun _ _ _ _ => ReflCmp.compare_self) hflip hs ht hsid htid)

/-- The ids of all layers before the last one are sharp, since a later layer needs an id of its own. -/
theorem sharp_of_layer_lt (hij : i < j) (hj : j < p.depth) (hs : s ∈ p.layer i) : p.Sharp s.id := by
  apply hp.sharp_of_lt
  calc
    s.id < p.startId (i + 1) := hp.id_lt_startId_succ (Nat.lt_trans hij hj) hs
    _ ≤ p.startId j := hp.startId_le_startId hij (Nat.le_of_lt hj)
    _ ≤ maxSegmentId := hp.room j hj

/-- The segments of a run of the first layer have the same labels. -/
theorem labels_eq_of_id_eq (hsharp : p.Sharp s.id) (hs : s ∈ p.layer 0)
    (ht : t ∈ p.layer 0) (hid : s.id = t.id) : s.labels = t.labels := by
  have hsame := hsharp 0 hp.depth_pos s hs t ht rfl hid.symm
  have hkey := (Bool.and_eq_true_iff.1 hsame).1
  exact OrderedSet.eq_of_toList_eq (eq_of_beq hkey)

omit hp in
/-- The segments of a run of a further layer record the same splits and the same ancestor id. -/
theorem records_eq_of_id_eq (hsharp : p.Sharp s.id) (hi : i + 1 < p.depth)
    (hs : s ∈ p.layer (i + 1)) (ht : t ∈ p.layer (i + 1)) (hid : s.id = t.id) :
    s.splits.toList.map Split.ids = t.splits.toList.map Split.ids ∧
      s.ancestorId = t.ancestorId := by
  have hsame := hsharp _ hi s hs t ht rfl hid.symm
  have hkey := Bool.and_eq_true_iff.1 (Bool.and_eq_true_iff.1 hsame).1
  exact ⟨eq_of_beq hkey.1, eq_of_beq hkey.2⟩

omit hp in
/-- The segments of a run with a sharp id are all loops or none is. -/
theorem isLoop_eq_of_sharp (hsharp : p.Sharp s.id) (hi : i < p.depth)
    (hs : s ∈ p.layer i) (ht : t ∈ p.layer i) (hid : s.id = t.id) : s.isLoop = t.isLoop := by
  have hsame := hsharp i hi s hs t ht rfl hid.symm
  cases i with
  | zero => exact eq_of_beq (Bool.and_eq_true_iff.1 hsame).2
  | succ i => exact eq_of_beq (Bool.and_eq_true_iff.1 hsame).2

/-- The segments of a run are all loops or none is. -/
theorem isLoop_eq_of_id_eq (hcount : p.runCount ≤ maxSegmentId) (hi : i < p.depth)
    (hs : s ∈ p.layer i) (ht : t ∈ p.layer i) (hid : s.id = t.id) : s.isLoop = t.isLoop :=
  isLoop_eq_of_sharp (hp.sharp_of_runCount_le hcount _) hi hs ht hid

end Layered

end Partition

end PathQueryIndex
