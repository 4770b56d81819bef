/-
Module: PathQueryIndex.Proofs.Partition.Runs
Layer: Proofs
Purpose: The runs of all layers in one list, layer after layer. A run has the segments of one id, ids grow
  along the list, and every segment stands in a run. Since a layer has a pair once, two runs of one layer
  share no pair.
Imports: PathQueryIndex.Proofs.Partition.Ids, Mathlib.Data.List.Induction
Main exports: LayerRun, Partition.runsUpTo, Partition.mem_runsUpTo, Partition.Layered.pairwise_runsUpTo,
  Partition.Layered.id_eq_of_pair_mem, Partition.Layered.mem_run_of_id_eq, LayerRun.Newest,
  LayerRun.exists_newest
-/
import PathQueryIndex.Proofs.Partition.Ids
import Mathlib.Data.List.Induction

namespace PathQueryIndex

open Std

/-- A run with the layer that it comes from. -/
structure LayerRun where
  layer : Nat
  segments : List Segment

namespace LayerRun

/-- The pairs of the segments. -/
def pairs (r : LayerRun) : List Pair := r.segments.map Segment.pair

/-- The id that the segments share. -/
def id (r : LayerRun) : Nat := (r.segments.head?.map Segment.id).getD 0

/-! ### The newest run with a pair -/

variable {done : List LayerRun} {pair : Pair} {i j : Nat} {r t : LayerRun}

/-- Run `r` stands at place `j` and has the pair, and no run behind it has the pair. -/
structure Newest (done : List LayerRun) (pair : Pair) (j : Nat) (r : LayerRun) : Prop where
  place : done[j]? = some r
  mem_pairs : pair ∈ r.pairs
  gap : ∀ m t, j < m → done[m]? = some t → pair ∉ t.pairs

theorem getElem?_concat_eq_some :
    (done ++ [r])[j]? = some t ↔ done[j]? = some t ∨ j = done.length ∧ t = r := by
  rcases Nat.lt_trichotomy j done.length with hlt | rfl | hgt
  · rw [List.getElem?_append_left hlt]
    constructor
    · exact .inl
    · intro h
      rcases h with h | ⟨rfl, _⟩
      · exact h
      · exact absurd hlt (Nat.lt_irrefl _)
  · rw [List.getElem?_append_right (Nat.le_refl _), Nat.sub_self,
      List.getElem?_eq_none (Nat.le_refl done.length)]
    constructor
    · intro h
      cases h
      exact .inr ⟨rfl, rfl⟩
    · intro h
      rcases h with h | ⟨_, rfl⟩
      · cases h
      · rfl
  · have hlen : (done ++ [r]).length ≤ j := by
      rw [List.length_append]
      exact hgt
    have hnone : (done ++ [r])[j]? = none := List.getElem?_eq_none hlen
    rw [hnone, List.getElem?_eq_none (Nat.le_of_lt hgt)]
    constructor
    · intro h
      cases h
    · intro h
      rcases h with h | ⟨rfl, _⟩
      · cases h
      · exact absurd hgt (Nat.lt_irrefl _)

/-- A run that has the pair is the newest one when it is put behind the others. -/
theorem newest_concat_of_mem (h : pair ∈ r.pairs) :
    Newest (done ++ [r]) pair j t ↔ j = done.length ∧ t = r := by
  have hplace : (done ++ [r])[done.length]? = some r := getElem?_concat_eq_some.2 (.inr ⟨rfl, rfl⟩)
  constructor
  · intro hn
    rcases getElem?_concat_eq_some.1 hn.place with hget | hlast
    · have hlt := (List.getElem?_eq_some_iff.1 hget).1
      exact absurd h (hn.gap _ r hlt hplace)
    · exact hlast
  · intro hlast
    obtain ⟨rfl, rfl⟩ := hlast
    refine ⟨hplace, h, fun m u hm hu => ?_⟩
    have hlt := (List.getElem?_eq_some_iff.1 hu).1
    rw [List.length_append, List.length_singleton] at hlt
    exact absurd hm (by omega)

/-- A run without the pair changes nothing. -/
theorem newest_concat_of_not_mem (h : pair ∉ r.pairs) :
    Newest (done ++ [r]) pair j t ↔ Newest done pair j t := by
  constructor
  · intro hn
    rcases getElem?_concat_eq_some.1 hn.place with hget | ⟨_, rfl⟩
    · exact ⟨hget, hn.mem_pairs, fun m u hm hu =>
        hn.gap m u hm (getElem?_concat_eq_some.2 (.inl hu))⟩
    · exact absurd hn.mem_pairs h
  · intro hn
    refine ⟨getElem?_concat_eq_some.2 (.inl hn.place), hn.mem_pairs, fun m u hm hu => ?_⟩
    rcases getElem?_concat_eq_some.1 hu with hu | ⟨_, rfl⟩
    · exact hn.gap m u hm hu
    · exact h

/-- If some run has the pair, one of them is the newest. -/
theorem exists_newest (ht : t ∈ done) (hpair : pair ∈ t.pairs) :
    ∃ j r, Newest done pair j r := by
  induction done using List.reverseRecOn with
  | nil => cases ht
  | append_singleton done r ih =>
      by_cases h : pair ∈ r.pairs
      · exact ⟨_, r, (newest_concat_of_mem h).2 ⟨rfl, rfl⟩⟩
      · rcases List.mem_append.1 ht with ht | ht
        · obtain ⟨j, u, hn⟩ := ih ht
          exact ⟨j, u, (newest_concat_of_not_mem h).2 hn⟩
        · rw [List.mem_singleton.1 ht] at hpair
          exact absurd hpair h

/-- If layers do not decrease, no run with the pair is of a later layer than the newest one. -/
theorem Newest.layer_le (hn : Newest done pair j r)
    (hsorted : done.Pairwise fun r t => r.layer ≤ t.layer) (ht : t ∈ done)
    (hpair : pair ∈ t.pairs) : t.layer ≤ r.layer := by
  obtain ⟨m, hm⟩ := List.mem_iff_getElem?.1 ht
  rcases Nat.lt_trichotomy m j with hlt | rfl | hgt
  · obtain ⟨hmlen, rfl⟩ := List.getElem?_eq_some_iff.1 hm
    obtain ⟨hjlen, rfl⟩ := List.getElem?_eq_some_iff.1 hn.place
    exact List.pairwise_iff_getElem.1 hsorted m j hmlen hjlen hlt
  · rw [hn.place] at hm
    cases hm
    exact Nat.le_refl _
  · exact absurd hpair (hn.gap m t hgt hm)

end LayerRun

namespace Partition

variable {g : Graph} {p : Partition} {i j n : Nat} {s t : Segment} {r r' : LayerRun}
  {run : List Segment} {done : List LayerRun} {pair : Pair}

/-- The runs of the first layers, layer after layer. -/
def runsUpTo (p : Partition) (n : Nat) : List LayerRun :=
  (List.range n).flatMap fun i => (p.runsOf i).map fun run => ⟨i, run⟩

theorem runsUpTo_succ (p : Partition) (n : Nat) :
    p.runsUpTo (n + 1) = p.runsUpTo n ++ (p.runsOf n).map fun run => ⟨n, run⟩ := by
  rw [runsUpTo, List.range_succ, List.flatMap_append, List.flatMap_singleton]
  rfl

theorem mem_runsUpTo : r ∈ p.runsUpTo n ↔ r.layer < n ∧ r.segments ∈ p.runsOf r.layer := by
  simp only [runsUpTo, List.mem_flatMap, List.mem_range, List.mem_map]
  constructor
  · intro h
    obtain ⟨i, hi, run, hrun, rfl⟩ := h
    exact ⟨hi, hrun⟩
  · intro h
    exact ⟨r.layer, h.1, r.segments, h.2, rfl⟩

theorem prefix_runsUpTo (p : Partition) {m : Nat} (h : n ≤ m) : p.runsUpTo n <+: p.runsUpTo m := by
  induction h with
  | refl => exact List.prefix_rfl
  | step _ ih =>
      rw [runsUpTo_succ]
      exact ih.trans (List.prefix_append ..)

/-- The runs of a layer come one after the other behind those of the layers before. -/
theorem next_of_prefix_runsOf {pre : List (List Segment)} (hn : n < p.depth)
    (h : pre ++ [run] <+: p.runsOf n) :
    p.runsUpTo n ++ pre.map (fun run => ⟨n, run⟩) ++ [⟨n, run⟩] <+: p.runsUpTo p.depth := by
  have hmap := h.map fun run => (⟨n, run⟩ : LayerRun)
  rw [List.map_append] at hmap
  have hlayer := (List.prefix_append_right_inj (p.runsUpTo n)).2 hmap
  rw [← runsUpTo_succ, ← List.append_assoc] at hlayer
  exact hlayer.trans (prefix_runsUpTo p hn)

/-! ### Segments and ids of a run -/

theorem mem_layer_of_mem_run (hrun : run ∈ p.runsOf i) (hs : s ∈ run) : s ∈ p.layer i :=
  Array.mem_toList_iff.1 (mem_of_mem_runs hrun hs)

theorem exists_run (hs : s ∈ p.layer i) : ∃ run ∈ p.runsOf i, s ∈ run := by
  have hmem := Array.mem_toList_iff.2 hs
  rw [← flatten_runs (fun a b => a.id == b.id) (p.layer i).toList] at hmem
  exact List.mem_flatten.1 hmem

/-- Cutting where ids differ is cutting where they do not compare equal. -/
theorem runsOf_eq (p : Partition) (i : Nat) : p.runsOf i =
    runs (fun a b => compareOn Segment.id a b == .eq) (p.layer i).toList := by
  have hsame : (fun a b : Segment => a.id == b.id) = fun a b => compareOn Segment.id a b == .eq := by
    funext a b
    rw [Bool.eq_iff_iff, beq_iff_eq, beq_iff_eq]
    exact LawfulEqCmp.compare_eq_iff_eq.symm
  rw [runsOf, hsame]

theorem id_eq_of_mem_run (hrun : run ∈ p.runsOf i) (hs : s ∈ run) (ht : t ∈ run) :
    s.id = t.id := by
  rw [runsOf_eq] at hrun
  have heq : compareOn Segment.id s t = .eq := eq_of_mem_runs hrun hs ht
  exact LawfulEqCmp.eq_of_compare heq

/-- The segments of a run have the id of the run. -/
theorem id_eq_of_mem_segments (hr : r ∈ p.runsUpTo n) (hs : s ∈ r.segments) : s.id = r.id := by
  obtain ⟨_, hrun⟩ := mem_runsUpTo.1 hr
  cases hseg : r.segments with
  | nil =>
      rw [hseg] at hs
      cases hs
  | cons x xs =>
      have hx : x ∈ r.segments := hseg ▸ List.mem_cons_self ..
      rw [LayerRun.id, hseg]
      exact id_eq_of_mem_run hrun hs hx

theorem exists_mem_runsUpTo (hi : i < n) (hs : s ∈ p.layer i) :
    ∃ r ∈ p.runsUpTo n, r.layer = i ∧ s ∈ r.segments := by
  obtain ⟨run, hrun, hmem⟩ := exists_run hs
  exact ⟨⟨i, run⟩, mem_runsUpTo.2 ⟨hi, hrun⟩, rfl, hmem⟩

theorem exists_mem_segments (hr : r ∈ p.runsUpTo n) (hpair : pair ∈ r.pairs) :
    ∃ s ∈ p.layer r.layer, s ∈ r.segments ∧ s.pair = pair := by
  obtain ⟨s, hs, rfl⟩ := List.mem_map.1 hpair
  exact ⟨s, mem_layer_of_mem_run (mem_runsUpTo.1 hr).2 hs, hs, rfl⟩

/-- Layers do not decrease along the list. -/
theorem pairwise_layer_runsUpTo (p : Partition) (n : Nat) :
    (p.runsUpTo n).Pairwise fun r t => r.layer ≤ t.layer := by
  induction n with
  | zero => exact .nil
  | succ n ih =>
      rw [runsUpTo_succ]
      refine List.pairwise_append.2 ⟨ih, ?_, fun r hr t ht => ?_⟩
      · exact List.pairwise_map.2 (List.pairwise_of_forall fun _ _ => Nat.le_refl n)
      · obtain ⟨run, _, rfl⟩ := List.mem_map.1 ht
        exact Nat.le_of_lt (mem_runsUpTo.1 hr).1

/-- Up to a place the list has the runs before it, and then the run at it. -/
theorem take_concat_prefix (hr : (p.runsUpTo n)[j]? = some r) :
    (p.runsUpTo n).take j ++ [r] <+: p.runsUpTo n := by
  obtain ⟨hlt, rfl⟩ := List.getElem?_eq_some_iff.1 hr
  rw [List.take_append_getElem]
  exact List.take_prefix ..

/-- A run of an earlier layer has an earlier place. -/
theorem lt_of_layer_lt (hr : (p.runsUpTo n)[i]? = some r) (hr' : (p.runsUpTo n)[j]? = some r')
    (hlt : r.layer < r'.layer) : i < j := by
  obtain ⟨hi, rfl⟩ := List.getElem?_eq_some_iff.1 hr
  obtain ⟨hj, rfl⟩ := List.getElem?_eq_some_iff.1 hr'
  rcases Nat.lt_trichotomy i j with hij | rfl | hij
  · exact hij
  · exact absurd hlt (Nat.lt_irrefl _)
  · exact absurd hlt (Nat.not_lt.2
      (List.pairwise_iff_getElem.1 (pairwise_layer_runsUpTo p n) j i hj hi hij))

/-- The runs of a layer stand before those of later layers. -/
theorem mem_of_layer_lt (hnext : done ++ [r] <+: p.runsUpTo n) (hr' : r' ∈ p.runsUpTo n)
    (hlt : r'.layer < r.layer) : r' ∈ done := by
  obtain ⟨rest, hrest⟩ := hnext
  have hpair := pairwise_layer_runsUpTo p n
  rw [← hrest, List.append_assoc] at hpair hr'
  rcases List.mem_append.1 hr' with hmem | hmem
  · exact hmem
  · have hlater := (List.pairwise_append.1 hpair).2.1
    rcases List.mem_cons.1 hmem with rfl | hmem
    · exact absurd hlt (Nat.lt_irrefl _)
    · exact absurd hlt (Nat.not_lt.2 ((List.pairwise_cons.1 hlater).1 r' hmem))

namespace Layered

variable (hp : p.Layered g)

include hp

/-- Ids grow from run to run. -/
theorem pairwise_runsUpTo (hn : n ≤ p.depth) :
    (p.runsUpTo n).Pairwise fun r t => r.id < t.id := by
  induction n with
  | zero => exact .nil
  | succ n ih =>
      have hall : ∀ r ∈ p.runsUpTo (n + 1), ∃ s ∈ p.layer r.layer, s ∈ r.segments ∧ s.id = r.id := by
        intro r hr
        obtain ⟨_, hrun⟩ := mem_runsUpTo.1 hr
        obtain ⟨s, hs⟩ := List.exists_mem_of_ne_nil _ (ne_nil_of_mem_runs hrun)
        exact ⟨s, mem_layer_of_mem_run hrun hs, hs, id_eq_of_mem_segments hr hs⟩
      rw [runsUpTo_succ] at hall ⊢
      refine List.pairwise_append.2 ⟨ih (Nat.le_of_succ_le hn), ?_, fun r hr t ht => ?_⟩
      · have hsorted : (p.layer n).toList.Pairwise fun a b =>
            (compareOn Segment.id a b).isLE = true :=
          (hp.pairwise_id_le hn).imp fun hle => Nat.isLE_compare.2 hle
        have hruns := pairwise_runs hsorted
        rw [← runsOf_eq] at hruns
        refine List.pairwise_map.2 (hruns.imp_of_mem fun {run run'} hrun hrun' hlt => ?_)
        obtain ⟨s, _, hs, hsid⟩ :=
          hall ⟨n, run⟩ (List.mem_append_right _ (List.mem_map_of_mem hrun))
        obtain ⟨t, _, ht, htid⟩ :=
          hall ⟨n, run'⟩ (List.mem_append_right _ (List.mem_map_of_mem hrun'))
        rw [← hsid, ← htid]
        exact Nat.compare_eq_lt.1 (hlt s hs t ht)
      · obtain ⟨s, hs, _, hsid⟩ := hall r (List.mem_append_left _ hr)
        obtain ⟨u, hu, _, huid⟩ := hall t (List.mem_append_right _ ht)
        obtain ⟨run, _, rfl⟩ := List.mem_map.1 ht
        rw [← hsid, ← huid]
        exact hp.id_lt_id (mem_runsUpTo.1 hr).1 hn hs hu

/-- The ids of the runs of all layers before the last one are sharp. -/
theorem sharp_of_mem_runsUpTo (hr : r ∈ p.runsUpTo n) (hlt : r.layer < j) (hj : j < p.depth) :
    p.Sharp r.id := by
  obtain ⟨_, hrun⟩ := mem_runsUpTo.1 hr
  obtain ⟨s, hs⟩ := List.exists_mem_of_ne_nil _ (ne_nil_of_mem_runs hrun)
  rw [← id_eq_of_mem_segments hr hs]
  exact hp.sharp_of_layer_lt hlt hj (mem_layer_of_mem_run hrun hs)

/-- A run has all segments of its layer with its id. -/
theorem mem_run_of_id_eq (hi : i < p.depth) (hrun : run ∈ p.runsOf i) (hs : s ∈ run)
    (ht : t ∈ p.layer i) (hid : s.id = t.id) : t ∈ run := by
  rw [runsOf_eq] at hrun
  have hsorted : (p.layer i).toList.Pairwise fun a b => (compareOn Segment.id a b).isLE = true :=
    (hp.pairwise_id_le hi).imp fun hle => Nat.isLE_compare.2 hle
  have heq : compareOn Segment.id s t = .eq := Nat.compare_eq_eq.2 hid
  exact mem_run_of_eq hsorted hrun hs (Array.mem_toList_iff.2 ht) heq

/-- A run has one place in the list. -/
theorem place_eq_of_id_eq (hn : n ≤ p.depth) (hr : (p.runsUpTo n)[i]? = some r)
    (hr' : (p.runsUpTo n)[j]? = some r') (hid : r.id = r'.id) : i = j := by
  have hpair := List.pairwise_iff_getElem.1 (hp.pairwise_runsUpTo hn)
  obtain ⟨hi, rfl⟩ := List.getElem?_eq_some_iff.1 hr
  obtain ⟨hj, rfl⟩ := List.getElem?_eq_some_iff.1 hr'
  rcases Nat.lt_trichotomy i j with hlt | heq | hgt
  · exact absurd hid (Nat.ne_of_lt (hpair i j hi hj hlt))
  · exact heq
  · exact absurd hid.symm (Nat.ne_of_lt (hpair j i hj hi hgt))

/-- Two runs of one layer with a pair in common are the same run. -/
theorem id_eq_of_pair_mem (hn : n ≤ p.depth) (hr : r ∈ p.runsUpTo n) (hr' : r' ∈ p.runsUpTo n)
    (hlayer : r.layer = r'.layer) (h : pair ∈ r.pairs) (h' : pair ∈ r'.pairs) : r.id = r'.id := by
  obtain ⟨s, hs, hmem, hpair⟩ := exists_mem_segments hr h
  obtain ⟨t, ht, hmem', hpair'⟩ := exists_mem_segments hr' h'
  rw [← hlayer] at ht
  have hi := Nat.lt_of_lt_of_le (mem_runsUpTo.1 hr).1 hn
  obtain rfl := hp.eq_of_pair_eq hi hs ht (hpair.trans hpair'.symm)
  rw [← id_eq_of_mem_segments hr hmem, ← id_eq_of_mem_segments hr' hmem']

/-- The runs before one that share a pair with it are of earlier layers. -/
theorem layer_lt_of_next (hn : n ≤ p.depth) (hnext : done ++ [r] <+: p.runsUpTo n)
    (hr' : r' ∈ done) (h' : pair ∈ r'.pairs) (h : pair ∈ r.pairs) : r'.layer < r.layer := by
  have hmem : r ∈ done ++ [r] := List.mem_append_right _ (List.mem_singleton_self r)
  have hmem' : r' ∈ done ++ [r] := List.mem_append_left _ hr'
  have hid := (hp.pairwise_runsUpTo hn).sublist hnext.sublist
  have hid := (List.pairwise_append.1 hid).2.2 r' hr' r (List.mem_singleton_self r)
  have hlayer := (pairwise_layer_runsUpTo p n).sublist hnext.sublist
  have hlayer := (List.pairwise_append.1 hlayer).2.2 r' hr' r (List.mem_singleton_self r)
  apply Nat.lt_of_le_of_ne hlayer
  intro heq
  have hsame := hp.id_eq_of_pair_mem hn (hnext.subset hmem') (hnext.subset hmem) heq h' h
  exact absurd hsame (Nat.ne_of_lt hid)

/-- No pair stands twice in a run. -/
theorem nodup_pairs_run (hn : n ≤ p.depth) (hr : r ∈ p.runsUpTo n) : r.pairs.Nodup := by
  obtain ⟨hi, hrun⟩ := mem_runsUpTo.1 hr
  have hsub := (List.sublist_flatten_of_mem hrun).map Segment.pair
  rw [runsOf, flatten_runs] at hsub
  exact (hp.nodup_pairs (Nat.lt_of_lt_of_le hi hn)).sublist hsub

end Layered

end Partition

end PathQueryIndex
