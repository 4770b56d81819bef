/-
Module: PathQueryIndex.Proofs.Partition.Walks
Layer: Proofs
Purpose: What the layers of a partition say about walks. Layer `i` has a segment for exactly the pairs that
  a walk of `i + 1` steps joins, each pair once, and the labels of a segment are exactly those of such
  walks. Labels are collected from one way to split a walk only, into all steps but the last and the last
  one; that this misses no walk is the induction over the layers.
Imports: PathQueryIndex.Graph.Walk, PathQueryIndex.Proofs.Grouping, PathQueryIndex.Proofs.Partition.Layers,
  Mathlib.Data.List.Nodup
Main exports: Graph.Joined, mem_joins, Partition.Layered.exists_segment_iff, Partition.Spells,
  Partition.Layered.exists_concat_iff, Partition.Layered.mem_labels_iff, Partition.Layered.nodup_pairs
-/
import PathQueryIndex.Graph.Walk
import PathQueryIndex.Proofs.Grouping
import PathQueryIndex.Proofs.Partition.Layers
import Mathlib.Data.List.Nodup

namespace PathQueryIndex

open Std

/-! ### Pairs joined by walks of a length -/

namespace Graph

variable {g : Graph} {u v w : Vertex} {m n : Nat}

/-- Whether a walk of `n` steps leads from `u` to `v`. -/
def Joined (g : Graph) (n : Nat) (u v : Vertex) : Prop := ∃ ls, ls.length = n ∧ g.Walk u ls v

theorem joined_one : g.Joined 1 u v ↔ ∃ l, g.Step l u v := by
  constructor
  · rintro ⟨ls, hlen, hw⟩
    obtain ⟨l, rfl⟩ := List.length_eq_one_iff.1 hlen
    exact ⟨l, walk_singleton.1 hw⟩
  · rintro ⟨l, hs⟩
    exact ⟨[l], rfl, walk_singleton.2 hs⟩

/-- A walk of `m + n` steps passes a vertex after `m` steps. -/
theorem joined_add : g.Joined (m + n) u w ↔ ∃ v, g.Joined m u v ∧ g.Joined n v w := by
  constructor
  · rintro ⟨ls, hlen, hw⟩
    rw [← List.take_append_drop m ls] at hw
    obtain ⟨v, hfirst, hsecond⟩ := walk_append.1 hw
    exact ⟨v, ⟨_, by rw [List.length_take, hlen]; omega, hfirst⟩,
      ⟨_, by rw [List.length_drop, hlen]; omega, hsecond⟩⟩
  · rintro ⟨v, ⟨ls, hls, hfirst⟩, ms, hms, hsecond⟩
    exact ⟨ls ++ ms, by rw [List.length_append, hls, hms], walk_append.2 ⟨v, hfirst, hsecond⟩⟩

end Graph

namespace LabelSequence

theorem length_concat (s t : LabelSequence) : (s.concat t).length = s.length + t.length :=
  List.length_append

/-- A long enough sequence can be cut after any number of its labels. -/
theorem exists_concat {ls : LabelSequence} {m n : Nat} (h : ls.length = (m + 1) + (n + 1)) :
    ∃ as bs : LabelSequence, as.length = m + 1 ∧ bs.length = n + 1 ∧ as.concat bs = ls := by
  rw [length] at h
  have htake : (ls.labels.take (m + 1)).length = m + 1 := by rw [List.length_take]; omega
  have hdrop : (ls.labels.drop (m + 1)).length = n + 1 := by rw [List.length_drop]; omega
  exact ⟨⟨_, List.ne_nil_of_length_eq_add_one htake⟩, ⟨_, List.ne_nil_of_length_eq_add_one hdrop⟩,
    htake, hdrop, eq_of_labels_eq (List.take_append_drop (m + 1) ls.labels)⟩

end LabelSequence

/-! ### Numbering keeps segments -/

namespace Segment

/-- A segment before it gets its id. -/
def unnumbered (s : Segment) : Segment := { s with id := 0 }

@[simp] theorem unnumbered_labels (s : Segment) : s.unnumbered.labels = s.labels := rfl

end Segment

theorem map_unnumbered_assignIds (same : Segment → Segment → Bool) (id : Nat) (xs : List Segment) :
    (assignIds same id xs).map Segment.unnumbered = xs.map Segment.unnumbered := by
  induction xs generalizing id with
  | nil => rfl
  | cons s xs ih =>
      cases xs with
      | nil => rfl
      | cons t rest =>
          rw [assignIds, List.map_cons, List.map_cons, ih]
          rfl

/-- A layer has the segments that it is made of, in another order and with ids. -/
theorem map_unnumbered_layerOf_perm (order : Segment → Segment → Ordering)
    (same : Segment → Segment → Bool) (id : Nat) (xs : List Segment) :
    ((layerOf order same id xs).toList.map Segment.unnumbered).Perm (xs.map Segment.unnumbered) := by
  rw [layerOf, map_unnumbered_assignIds]
  exact (List.mergeSort_perm ..).map _

/-! ### The first layer -/

section First

variable {g : Graph} {s : Segment} {l : Label} {u v : Vertex}

/-- The labels that the edges give to pairs: forward to their own pair, and the inverse to the pair the
    other way round. -/
def edgeLabels (g : Graph) : List (Pair × LabelSequence) :=
  g.edges.toList.flatMap fun e =>
    [(e.pair, LabelSequence.single (.forward e.label)),
     (e.pair.swap, LabelSequence.single (.backward e.label))]

theorem mem_edgeLabels {pair : Pair} {ls : LabelSequence} :
    (pair, ls) ∈ edgeLabels g ↔ ∃ l, ls = .single l ∧ g.Step l pair.source pair.target := by
  rw [edgeLabels, List.mem_flatMap]
  constructor
  · rintro ⟨⟨a, b, n⟩, he, hmem⟩
    simp only [List.mem_cons, List.not_mem_nil, or_false, Prod.mk.injEq] at hmem
    rcases hmem with ⟨rfl, rfl⟩ | ⟨rfl, rfl⟩
    · exact ⟨.forward n, rfl, Graph.step_forward.2 he⟩
    · exact ⟨.backward n, rfl, Graph.step_backward.2 he⟩
  · rintro ⟨⟨n, inverse⟩, rfl, hs⟩
    cases inverse with
    | false => exact ⟨_, Graph.step_forward.1 hs, List.mem_cons_self ..⟩
    | true =>
        exact ⟨_, Graph.step_backward.1 hs, List.mem_cons_of_mem _ (List.mem_cons_self ..)⟩

theorem unnumbered_of_mem_firstSegments (h : s ∈ firstSegments g) : s.unnumbered = s := by
  obtain ⟨_, _, rfl⟩ := List.mem_map.1 h
  rfl

theorem mem_labels_firstSegments {ls : LabelSequence} (h : s ∈ firstSegments g) :
    ls ∈ s.labels ↔ ∃ l, ls = .single l ∧ g.Step l s.pair.source s.pair.target := by
  obtain ⟨⟨pair, sequences⟩, hgroup, rfl⟩ := List.mem_map.1 h
  rw [OrderedSet.mem_ofList, mem_values_of_mem_groupByKey hgroup]
  exact mem_edgeLabels

theorem exists_mem_firstSegments :
    (∃ s ∈ firstSegments g, s.pair = ⟨u, v⟩) ↔ ∃ l, g.Step l u v := by
  constructor
  · rintro ⟨s, hs, hpair⟩
    obtain ⟨⟨pair, sequences⟩, hgroup, rfl⟩ := List.mem_map.1 hs
    cases hpair
    obtain ⟨ls, rest, _, rfl⟩ := mem_groupByKey.1 hgroup
    have hmem := (mem_values_of_mem_groupByKey hgroup).1 (List.mem_cons_self ..)
    obtain ⟨l, _, hl⟩ := mem_edgeLabels.1 hmem
    exact ⟨l, hl⟩
  · rintro ⟨l, hl⟩
    have hmem : ((⟨u, v⟩ : Pair), LabelSequence.single l) ∈ edgeLabels g :=
      mem_edgeLabels.2 ⟨l, rfl, hl⟩
    obtain ⟨_, hgroup⟩ := exists_mem_groupByKey hmem
    exact ⟨_, List.mem_map.2 ⟨_, hgroup, rfl⟩, rfl⟩

theorem nodup_pairs_firstSegments : ((firstSegments g).map Segment.pair).Nodup := by
  rw [firstSegments, List.map_map]
  exact nodup_keys_groupByKey (edgeLabels g)

end First

/-! ### Further layers -/

section Next

variable {layers : Array Layer} {history : History} {s : Segment} {i : Nat} {pair : Pair}

/-- How walks of a pair go through segment `x` at place `a` of layer `k₁` and then through segment `y` at
    place `b` of layer `k₂`. -/
def joinOf (k₁ a : Nat) (x : Segment) (k₂ b : Nat) (y : Segment) : Join where
  split := ⟨⟨k₁, a⟩, ⟨k₂, b⟩, x.id, y.id⟩
  labels :=
    if k₂ = 0 then x.labels.toList.flatMap fun ls => y.labels.toList.map fun ms => ls.concat ms else []

/-- Two segments are joined if one ends where the other starts. -/
theorem mem_joins {k₁ k₂ : Nat} {j : Join} :
    (pair, j) ∈ joins layers k₁ k₂ ↔ ∃ a b x y, (layers.getD k₁ #[])[a]? = some x ∧
      (layers.getD k₂ #[])[b]? = some y ∧ x.pair.target = y.pair.source ∧
      pair = ⟨x.pair.source, y.pair.target⟩ ∧ j = joinOf k₁ a x k₂ b y := by
  simp only [joins, List.mem_flatMap, List.mem_map, Prod.exists, List.mem_zipIdx_iff_getElem?,
    mem_group_iff, Array.getElem?_toList, Prod.mk.injEq]
  constructor
  · rintro ⟨x, a, hx, y, b, ⟨_, _, hy, hsource, rfl, rfl⟩, rfl, rfl⟩
    exact ⟨a, _, x, _, hx, hy, hsource.symm, rfl, rfl⟩
  · rintro ⟨a, b, x, y, hx, hy, hxy, rfl, rfl⟩
    exact ⟨x, a, hx, y, b, ⟨y, b, hy, hxy.symm, rfl, rfl⟩, rfl, rfl⟩

/-- All ways to go through two earlier layers. -/
def allJoins (layers : Array Layer) (i : Nat) : List (Pair × Join) :=
  (List.range i).reverse.flatMap fun k₁ => joins layers k₁ (i - 1 - k₁)

theorem mem_allJoins {j : Join} :
    (pair, j) ∈ allJoins layers (i + 1) ↔
      ∃ k₁ k₂, k₁ + k₂ = i ∧ (pair, j) ∈ joins layers k₁ k₂ := by
  simp only [allJoins, List.mem_flatMap, List.mem_reverse, List.mem_range, Nat.add_sub_cancel]
  constructor
  · rintro ⟨k₁, hk, hj⟩
    exact ⟨k₁, i - k₁, by omega, hj⟩
  · rintro ⟨k₁, k₂, hsum, hj⟩
    have hk : k₂ = i - k₁ := by omega
    exact ⟨k₁, by omega, hk ▸ hj⟩

/-- What a segment of a further layer is made of. -/
theorem mem_joinedSegments (h : s ∈ joinedSegments layers history i) :
    ∃ js, (s.pair, js) ∈ groupByKey (allJoins layers i) ∧
      s.labels = .ofList (js.flatMap Join.labels) ∧ s.splits = .ofList (js.map Join.split) ∧
      s.ancestor = history[s.pair]?.map Prod.fst ∧ s.ancestorId = history[s.pair]?.map Prod.snd ∧
      s.unnumbered = s := by
  obtain ⟨⟨pair, js⟩, hgroup, rfl⟩ := List.mem_map.1 h
  exact ⟨js, hgroup, rfl, rfl, rfl, rfl, rfl⟩

theorem exists_mem_joinedSegments :
    (∃ s ∈ joinedSegments layers history i, s.pair = pair) ↔
      ∃ j, (pair, j) ∈ allJoins layers i := by
  constructor
  · rintro ⟨s, hs, rfl⟩
    obtain ⟨js, hgroup, -⟩ := mem_joinedSegments hs
    obtain ⟨j, rest, _, rfl⟩ := mem_groupByKey.1 hgroup
    exact ⟨j, (mem_values_of_mem_groupByKey hgroup).1 (List.mem_cons_self ..)⟩
  · rintro ⟨j, hj⟩
    obtain ⟨_, hgroup⟩ := exists_mem_groupByKey hj
    exact ⟨_, List.mem_map.2 ⟨_, hgroup, rfl⟩, rfl⟩

theorem nodup_pairs_joinedSegments : ((joinedSegments layers history i).map Segment.pair).Nodup := by
  rw [joinedSegments, List.map_map]
  exact nodup_keys_groupByKey (allJoins layers i)

end Next

/-! ### All layers -/

namespace Partition

variable {g : Graph} {p : Partition} {i : Nat} {s : Segment} {u v : Vertex}

/-- The labels of the segments of a layer are those of the walks between their ends. -/
def Spells (g : Graph) (p : Partition) (i : Nat) : Prop :=
  ∀ s ∈ p.layer i, ∀ ls : LabelSequence,
    ls ∈ s.labels ↔ ls.length = i + 1 ∧ g.Walk s.pair.source ls.labels s.pair.target

theorem unnumbered_of_mem_rawSegments (h : s ∈ p.rawSegments g i) : s.unnumbered = s := by
  cases i with
  | zero => exact unnumbered_of_mem_firstSegments h
  | succ i =>
      obtain ⟨_, _, _, _, _, _, heq⟩ := mem_joinedSegments h
      exact heq

theorem nodup_pairs_rawSegments : ((p.rawSegments g i).map Segment.pair).Nodup := by
  cases i with
  | zero => exact nodup_pairs_firstSegments
  | succ i => exact nodup_pairs_joinedSegments

namespace Layered

variable (hp : p.Layered g)

include hp

/-- A layer has its raw segments, in another order and with ids. -/
theorem map_unnumbered_perm (hi : i < p.depth) :
    ((p.layer i).toList.map Segment.unnumbered).Perm (p.rawSegments g i) := by
  have hraw : (p.rawSegments g i).map Segment.unnumbered = p.rawSegments g i :=
    (List.map_congr_left fun _ h => unnumbered_of_mem_rawSegments h).trans (List.map_id _)
  have hperm := map_unnumbered_layerOf_perm (Segment.order i) (Segment.same i) (p.startId i)
    (p.rawSegments g i)
  rw [hraw] at hperm
  rw [hp.layer_eq i hi]
  exact hperm

theorem unnumbered_mem (hi : i < p.depth) (hs : s ∈ p.layer i) :
    s.unnumbered ∈ p.rawSegments g i :=
  (hp.map_unnumbered_perm hi).mem_iff.1 (List.mem_map_of_mem (Array.mem_toList_iff.2 hs))

theorem exists_mem_layer (hi : i < p.depth) {pair : Pair} :
    (∃ s ∈ p.layer i, s.pair = pair) ↔ ∃ s ∈ p.rawSegments g i, s.pair = pair := by
  constructor
  · rintro ⟨s, hs, hpair⟩
    exact ⟨_, hp.unnumbered_mem hi hs, hpair⟩
  · rintro ⟨s, hs, hpair⟩
    obtain ⟨t, ht, rfl⟩ := List.mem_map.1 ((hp.map_unnumbered_perm hi).mem_iff.2 hs)
    exact ⟨t, Array.mem_toList_iff.1 ht, hpair⟩

/-- No pair has two segments in a layer. -/
theorem nodup_pairs (hi : i < p.depth) : ((p.layer i).toList.map Segment.pair).Nodup := by
  have hperm := (hp.map_unnumbered_perm hi).map Segment.pair
  rw [List.map_map] at hperm
  exact hperm.nodup_iff.2 nodup_pairs_rawSegments

/-- A pair has one segment in a layer at most. -/
theorem eq_of_pair_eq {t : Segment} (hi : i < p.depth) (hs : s ∈ p.layer i) (ht : t ∈ p.layer i)
    (hpair : s.pair = t.pair) : s = t :=
  List.inj_on_of_nodup_map (hp.nodup_pairs hi) (Array.mem_toList_iff.2 hs)
    (Array.mem_toList_iff.2 ht) hpair

/-- Layer `i` has exactly the pairs that a walk of `i + 1` steps joins. Every split of such a walk is
    between two earlier layers, and all steps but the last are one of the splits. -/
theorem exists_segment_iff (hi : i < p.depth) :
    (∃ s ∈ p.layer i, s.pair = ⟨u, v⟩) ↔ g.Joined (i + 1) u v := by
  induction i using Nat.strongRecOn generalizing u v with
  | ind i ih =>
      rw [hp.exists_mem_layer hi]
      cases i with
      | zero =>
          rw [Graph.joined_one]
          exact exists_mem_firstSegments
      | succ i =>
          refine exists_mem_joinedSegments.trans ?_
          constructor
          · rintro ⟨j, hj⟩
            obtain ⟨k₁, k₂, hsum, hj⟩ := mem_allJoins.1 hj
            obtain ⟨a, b, x, y, hx, hy, hxy, hpair, -⟩ := mem_joins.1 hj
            obtain ⟨rfl, rfl⟩ := Pair.mk.inj hpair
            have hfirst := (ih k₁ (by omega) (by omega)).1 ⟨x, Array.mem_of_getElem? hx, rfl⟩
            have hsecond := (ih k₂ (by omega) (by omega)).1 ⟨y, Array.mem_of_getElem? hy, rfl⟩
            have hlen : i + 1 + 1 = (k₁ + 1) + (k₂ + 1) := by omega
            rw [hlen]
            exact Graph.joined_add.2 ⟨_, hfirst, hxy ▸ hsecond⟩
          · intro hw
            obtain ⟨m, hfirst, hsecond⟩ := Graph.joined_add.1 hw
            obtain ⟨x, hx, hxpair⟩ := (ih i (by omega) (by omega)).2 hfirst
            obtain ⟨y, hy, hypair⟩ := (ih 0 (by omega) (by omega)).2 hsecond
            obtain ⟨a, ha⟩ := Array.mem_iff_getElem?.1 hx
            obtain ⟨b, hb⟩ := Array.mem_iff_getElem?.1 hy
            refine ⟨_, mem_allJoins.2 ⟨i, 0, rfl, mem_joins.2 ⟨a, b, x, y, ha, hb, ?_, ?_, rfl⟩⟩⟩
            · rw [hxpair, hypair]
            · rw [hxpair, hypair]

theorem mem_labels_zero_iff (hs : s ∈ p.layer 0) {ls : LabelSequence} :
    ls ∈ s.labels ↔ ls.length = 1 ∧ g.Walk s.pair.source ls.labels s.pair.target := by
  rw [← Segment.unnumbered_labels, mem_labels_firstSegments (hp.unnumbered_mem hp.depth_pos hs)]
  constructor
  · rintro ⟨l, rfl, hl⟩
    exact ⟨rfl, Graph.walk_singleton.2 hl⟩
  · rintro ⟨hlen, hw⟩
    obtain ⟨l, hl⟩ := List.length_eq_one_iff.1 hlen
    rw [hl] at hw
    exact ⟨l, LabelSequence.eq_of_labels_eq hl, Graph.walk_singleton.1 hw⟩

/-- The labels of a later segment are put together where the second part of a walk is its last step. -/
theorem mem_labels_succ (hi : i + 1 < p.depth) (hs : s ∈ p.layer (i + 1)) {ls : LabelSequence} :
    ls ∈ s.labels ↔ ∃ x ∈ p.layer i, ∃ y ∈ p.layer 0, x.pair.target = y.pair.source ∧
      s.pair = ⟨x.pair.source, y.pair.target⟩ ∧
      ∃ as ∈ x.labels, ∃ bs ∈ y.labels, as.concat bs = ls := by
  obtain ⟨js, hgroup, hlabels, -⟩ := mem_joinedSegments (hp.unnumbered_mem hi hs)
  rw [← Segment.unnumbered_labels, hlabels, OrderedSet.mem_ofList, List.mem_flatMap]
  constructor
  · rintro ⟨j, hj, hls⟩
    obtain ⟨k₁, k₂, hsum, hj⟩ := mem_allJoins.1 ((mem_values_of_mem_groupByKey hgroup).1 hj)
    obtain ⟨a, b, x, y, hx, hy, hxy, hpair, rfl⟩ := mem_joins.1 hj
    cases k₂ with
    | succ k₂ => cases hls
    | zero =>
        obtain rfl : k₁ = i := hsum
        obtain ⟨as, has, hls⟩ := List.mem_flatMap.1 hls
        obtain ⟨bs, hbs, hls⟩ := List.mem_map.1 hls
        exact ⟨x, Array.mem_of_getElem? hx, y, Array.mem_of_getElem? hy, hxy, hpair, as, has, bs, hbs,
          hls⟩
  · rintro ⟨x, hx, y, hy, hxy, hpair, as, has, bs, hbs, hls⟩
    obtain ⟨a, ha⟩ := Array.mem_iff_getElem?.1 hx
    obtain ⟨b, hb⟩ := Array.mem_iff_getElem?.1 hy
    have hjoin := mem_allJoins.2 ⟨i, 0, rfl, mem_joins.2 ⟨a, b, x, y, ha, hb, hxy, hpair, rfl⟩⟩
    exact ⟨_, (mem_values_of_mem_groupByKey hgroup).2 hjoin,
      List.mem_flatMap.2 ⟨as, has, List.mem_map.2 ⟨bs, hbs, hls⟩⟩⟩

/-- Where the labels of two layers are those of their walks, the walks that go through the one and then
    through the other have the labels that are put together of labels of both. -/
theorem exists_concat_iff {k₁ k₂ : Nat} (h₁ : k₁ < p.depth) (h₂ : k₂ < p.depth) (hk₁ : p.Spells g k₁)
    (hk₂ : p.Spells g k₂) {pair : Pair} {ls : LabelSequence} :
    (∃ x ∈ p.layer k₁, ∃ y ∈ p.layer k₂, x.pair.target = y.pair.source ∧
        pair = ⟨x.pair.source, y.pair.target⟩ ∧ ∃ as ∈ x.labels, ∃ bs ∈ y.labels, as.concat bs = ls) ↔
      ls.length = (k₁ + 1) + (k₂ + 1) ∧ g.Walk pair.source ls.labels pair.target := by
  constructor
  · rintro ⟨x, hx, y, hy, hxy, rfl, as, has, bs, hbs, rfl⟩
    obtain ⟨halen, hawalk⟩ := (hk₁ x hx as).1 has
    obtain ⟨hblen, hbwalk⟩ := (hk₂ y hy bs).1 hbs
    rw [LabelSequence.length_concat, halen, hblen]
    exact ⟨rfl, Graph.walk_append.2 ⟨_, hawalk, hxy ▸ hbwalk⟩⟩
  · rintro ⟨hlen, hw⟩
    obtain ⟨as, bs, halen, hblen, rfl⟩ := LabelSequence.exists_concat hlen
    obtain ⟨m, hfirst, hsecond⟩ := Graph.walk_append.1 hw
    obtain ⟨x, hx, hxpair⟩ := (hp.exists_segment_iff h₁).2 ⟨_, halen, hfirst⟩
    obtain ⟨y, hy, hypair⟩ := (hp.exists_segment_iff h₂).2 ⟨_, hblen, hsecond⟩
    have has : as ∈ x.labels := (hk₁ x hx as).2 ⟨halen, by rw [hxpair]; exact hfirst⟩
    have hbs : bs ∈ y.labels := (hk₂ y hy bs).2 ⟨hblen, by rw [hypair]; exact hsecond⟩
    exact ⟨x, hx, y, hy, by rw [hxpair, hypair], by rw [hxpair, hypair], as, has, bs, hbs, rfl⟩

theorem spells (hi : i < p.depth) : p.Spells g i := by
  induction i with
  | zero => exact fun s hs ls => hp.mem_labels_zero_iff hs
  | succ i ih =>
      intro s hs ls
      rw [hp.mem_labels_succ hi hs]
      exact hp.exists_concat_iff (Nat.lt_of_succ_lt hi) hp.depth_pos (ih (Nat.lt_of_succ_lt hi))
        fun y hy bs => hp.mem_labels_zero_iff hy

/-- The labels of a segment of layer `i` are exactly those of the walks of `i + 1` steps between its
    ends. -/
theorem mem_labels_iff (hi : i < p.depth) (hs : s ∈ p.layer i) {ls : LabelSequence} :
    ls ∈ s.labels ↔ ls.length = i + 1 ∧ g.Walk s.pair.source ls.labels s.pair.target :=
  hp.spells hi s hs ls

end Layered

end Partition

end PathQueryIndex
