/-
Module: PathQueryIndex.Proofs.Partition.Splits
Layer: Proofs
Purpose: One way to split walks suffices for the labels. The construction joins the segments of all pairs of
  earlier layers, but it puts labels together only where the second part is one step. Any other split would
  have given the same labels: a walk has a vertex after each of its steps, so wherever it is cut, both parts
  are walks of the layers of their lengths, whose labels are complete already.
Imports: PathQueryIndex.Proofs.Partition.Bisimulation
Main exports: Partition.labelsThrough, Partition.Layered.labels_eq_labelsThrough,
  Partition.one_split_suffices
-/
import PathQueryIndex.Proofs.Partition.Bisimulation

namespace PathQueryIndex

open Std

namespace Partition

variable {g : Graph} {p : Partition} {k k₁ k₂ i : Nat} {s : Segment} {pair : Pair}
  {ls : LabelSequence}

/-- The labels of the walks of a pair that go through a segment of one layer and then through a segment of
    another, put together of the labels of the two. -/
def labelsThrough (p : Partition) (k₁ k₂ : Nat) (pair : Pair) : OrderedSet LabelSequence :=
  .ofList <| (p.layer k₁).toList.flatMap fun x => (p.layer k₂).toList.flatMap fun y =>
    if x.pair.target = y.pair.source ∧ pair = ⟨x.pair.source, y.pair.target⟩ then
      x.labels.toList.flatMap fun ls => y.labels.toList.map fun ms => ls.concat ms
    else []

theorem mem_labelsThrough : ls ∈ p.labelsThrough k₁ k₂ pair ↔
    ∃ x ∈ p.layer k₁, ∃ y ∈ p.layer k₂, x.pair.target = y.pair.source ∧
      pair = ⟨x.pair.source, y.pair.target⟩ ∧ ∃ as ∈ x.labels, ∃ bs ∈ y.labels, as.concat bs = ls := by
  simp only [labelsThrough, OrderedSet.mem_ofList, List.mem_flatMap, Array.mem_toList_iff]
  constructor
  · rintro ⟨x, hx, y, hy, hls⟩
    split at hls
    · rename_i hmeet
      obtain ⟨as, has, hls⟩ := List.mem_flatMap.1 hls
      obtain ⟨bs, hbs, hls⟩ := List.mem_map.1 hls
      exact ⟨x, hx, y, hy, hmeet.1, hmeet.2, as, has, bs, hbs, hls⟩
    · cases hls
  · rintro ⟨x, hx, y, hy, hxy, hpair, as, has, bs, hbs, hls⟩
    refine ⟨x, hx, y, hy, ?_⟩
    rw [if_pos ⟨hxy, hpair⟩]
    exact List.mem_flatMap.2 ⟨as, has, List.mem_map.2 ⟨bs, hbs, hls⟩⟩

namespace Layered

variable (hp : p.Layered g)

include hp

/-- The labels of a later segment are those of the walks through any two layers that make up its length. -/
theorem labels_eq_labelsThrough (hs : s ∈ p.layer (i + 1)) (hsum : k₁ + k₂ = i) :
    s.labels = p.labelsThrough k₁ k₂ s.pair := by
  have hi := lt_depth_of_mem_layer hs
  have h₁ : k₁ < p.depth := by omega
  have h₂ : k₂ < p.depth := by omega
  apply OrderedSet.ext_mem
  intro ls
  have hlen : (k₁ + 1) + (k₂ + 1) = i + 1 + 1 := by omega
  rw [hp.mem_labels_iff hi hs, mem_labelsThrough,
    hp.exists_concat_iff h₁ h₂ (hp.spells h₁) (hp.spells h₂), hlen]

/-- Every segment has a label: its pair is joined by a walk. -/
theorem exists_mem_labels (hs : s ∈ p.layer i) : ∃ ls, ls ∈ s.labels := by
  have hi := lt_depth_of_mem_layer hs
  obtain ⟨labels, hlen, hw⟩ := (hp.exists_segment_iff hi).1 ⟨s, hs, rfl⟩
  exact ⟨⟨labels, List.ne_nil_of_length_eq_add_one hlen⟩, (hp.mem_labels_iff hi hs).2 ⟨hlen, hw⟩⟩

end Layered

/-- The labels of a segment of a later layer are those of the walks through the segments of any two earlier
    layers that make up its length, although they are collected for one choice of the two only. There is at
    least one, and all are as long as the walks of the layer. -/
theorem one_split_suffices (hbuild : (build g k).result = .ok p) (hs : s ∈ p.layer (i + 1)) :
    (∀ k₁ k₂, k₁ + k₂ = i → s.labels = p.labelsThrough k₁ k₂ s.pair) ∧
      (∃ ls, ls ∈ s.labels) ∧ ∀ ls ∈ s.labels, ls.length = i + 2 := by
  have hp := (layered_of_build hbuild).1
  refine ⟨fun k₁ k₂ hsum => hp.labels_eq_labelsThrough hs hsum, hp.exists_mem_labels hs, ?_⟩
  intro ls hls
  exact ((hp.mem_labels_iff (lt_depth_of_mem_layer hs) hs).1 hls).1

set_option maxRecDepth 4000 in
/-- A walk of four steps from end to end of the fork can be cut after one, two or three of them; after two
    of them it may be at either end. -/
theorem one_split_suffices_fork : ∃ p, (build fork 4).result = .ok p ∧ ∃ s ∈ p.layer 3,
    s.pair = ⟨0, 2⟩ ∧ s.labels = p.labelsThrough 2 0 ⟨0, 2⟩ ∧ s.labels = p.labelsThrough 1 1 ⟨0, 2⟩ ∧
      s.labels = p.labelsThrough 0 2 ⟨0, 2⟩ ∧ ∃ ls ∈ s.labels, ls.length = 4 := by
  obtain ⟨p, hbuild, hp⟩ := exists_ok_of_any (x := (build fork 4).result)
    (f := fun p => (p.layer 3).any fun s => s.pair == ⟨0, 2⟩) (by cbv)
  obtain ⟨s, hs, hpair⟩ := Array.any_eq_true'.1 hp
  have hpair : s.pair = ⟨0, 2⟩ := beq_iff_eq.1 hpair
  obtain ⟨hsplits, ⟨ls, hls⟩, hlen⟩ := one_split_suffices hbuild hs
  rw [← hpair]
  exact ⟨p, hbuild, s, hs, rfl, hsplits 2 0 rfl, hsplits 1 1 rfl, hsplits 0 2 rfl, ls, hls,
    hlen ls hls⟩

end Partition

end PathQueryIndex
