/-
Module: PathQueryIndex.Proofs.Partition.Bisimulation
Layer: Proofs
Purpose: The ids of a layer as a bisimulation. In the first layer two segments share an id if they have the
  same signed labels and are both loops or both not. In a later layer they share one if they are both loops
  or both not, their pairs were last seen in one earlier layer under one id or in none, and every way to lead
  a walk of the one through two earlier layers is matched by a way to lead a walk of the other, part by part
  under the same ids. The definition goes down from layer to layer just as the construction goes up.
Imports: PathQueryIndex.Proofs.Partition.Records, Mathlib.Data.List.Permutation
Main exports: Partition.SameHistory, Partition.Simulates, Partition.Bisimilar,
  Partition.ids_are_bisimulation
-/
import PathQueryIndex.Proofs.Partition.Records
import Mathlib.Data.List.Permutation

namespace PathQueryIndex

open Std

namespace Partition

variable {g : Graph} {k : Nat} {p : Partition} {i j : Nat} {s t : Segment}

/-! ### The relation -/

/-- No layer before `i` has the pair. -/
def Unseen (p : Partition) (i : Nat) (pair : Pair) : Prop :=
  ∀ j < i, ∀ t ∈ p.layer j, t.pair ≠ pair

/-- Before layer `i` both pairs are unseen, or the last layer that has the one is the last layer that has
    the other, and they share an id there. -/
def SameHistory (p : Partition) (i : Nat) (a b : Pair) : Prop :=
  (p.Unseen i a ∧ p.Unseen i b) ∨
    ∃ r r' x y, p.Latest i a r x ∧ p.Latest i b r' y ∧ r.layer = r'.layer ∧ x.id = y.id

/-- Whichever way a walk between the first pair leads through two layers that come to `n` together, a walk
    between the second pair leads through segments of the same two layers with the same two ids. -/
def Simulates (p : Partition) (n : Nat) (a b : Pair) : Prop :=
  ∀ k₁ k₂, k₁ + k₂ = n → ∀ m, ∀ x ∈ p.layer k₁, ∀ y ∈ p.layer k₂,
    x.pair = ⟨a.source, m⟩ → y.pair = ⟨m, a.target⟩ →
    ∃ m', ∃ x' ∈ p.layer k₁, ∃ y' ∈ p.layer k₂,
      x'.pair = ⟨b.source, m'⟩ ∧ y'.pair = ⟨m', b.target⟩ ∧ x'.id = x.id ∧ y'.id = y.id

/-- Both pairs are loops, or neither is. -/
def LoopAlike (a b : Pair) : Prop := a.source = a.target ↔ b.source = b.target

/-- What the segments of a layer have in common that share an id. -/
def Bisimilar (g : Graph) (p : Partition) : Nat → Pair → Pair → Prop
  | 0, a, b => LoopAlike a b ∧ ∀ l, g.Step l a.source a.target ↔ g.Step l b.source b.target
  | n + 1, a, b => LoopAlike a b ∧ p.SameHistory (n + 1) a b ∧
      p.Simulates n a b ∧ p.Simulates n b a

/-- Only the layers of the partition have segments. -/
theorem lt_depth_of_mem_layer (hs : s ∈ p.layer i) : i < p.depth := by
  apply Nat.lt_of_not_le
  intro hle
  rw [layer, Array.getD_eq_getD_getElem?, Array.getElem?_eq_none hle] at hs
  exact Array.not_mem_empty s hs

theorem isLoop_eq_iff : s.isLoop = t.isLoop ↔ LoopAlike s.pair t.pair := by
  rw [Bool.eq_iff_iff]
  exact iff_congr beq_iff_eq beq_iff_eq

namespace Layered

variable (hp : p.Layered g)

include hp

/-! ### One clause after the other -/

/-- The labels of two segments of the first layer are equal if their pairs have the same signed labels. -/
theorem labels_eq_iff (hs : s ∈ p.layer 0) (ht : t ∈ p.layer 0) : s.labels = t.labels ↔
    ∀ l, g.Step l s.pair.source s.pair.target ↔ g.Step l t.pair.source t.pair.target := by
  have hstep : ∀ {x : Segment}, x ∈ p.layer 0 → ∀ l,
      LabelSequence.single l ∈ x.labels ↔ g.Step l x.pair.source x.pair.target := by
    intro x hx l
    rw [hp.mem_labels_zero_iff hx]
    exact (and_iff_right rfl).trans Graph.walk_singleton
  constructor
  · intro heq l
    rw [← hstep hs, ← hstep ht, heq]
  · intro h
    apply OrderedSet.ext_mem
    intro ls
    rw [hp.mem_labels_zero_iff hs, hp.mem_labels_zero_iff ht]
    refine and_congr_right fun hlen => ?_
    obtain ⟨l, hl⟩ := List.length_eq_one_iff.1 hlen
    rw [hl, Graph.walk_singleton, Graph.walk_singleton]
    exact h l

/-- The ancestor ids of two segments are equal if their pairs have the same history. An id tells the layer,
    so that one id means one layer. -/
theorem ancestorId_eq_iff (hi : i < p.depth) (hs : s ∈ p.layer i) (ht : t ∈ p.layer i) :
    s.ancestorId = t.ancestorId ↔ p.SameHistory i s.pair t.pair := by
  have hle := Nat.le_of_lt hi
  constructor
  · intro heq
    cases hancestor : s.ancestorId with
    | none =>
        have hunseen : ∀ {x : Segment}, x ∈ p.layer i → x.ancestorId = none →
            p.Unseen i x.pair := by
          intro x hx hnone
          rw [(hp.ancestor_eq hi hx).2, Option.map_eq_none_iff] at hnone
          exact (hp.historyBefore_eq_none_iff hle).1 hnone
        exact .inl ⟨hunseen hs hancestor, hunseen ht (heq ▸ hancestor)⟩
    | some n =>
        obtain ⟨r, x, hx, hxid⟩ := hp.exists_latest hi hs hancestor
        obtain ⟨r', y, hy, hyid⟩ := hp.exists_latest hi ht (heq ▸ hancestor)
        have hid : x.id = y.id := hxid.trans hyid.symm
        have hlayer := hp.eq_layer_of_id_eq (Nat.lt_trans hx.before hi) (Nat.lt_trans hy.before hi)
          (Array.mem_of_getElem? hx.segment) (Array.mem_of_getElem? hy.segment) hid
        exact .inr ⟨r, r', x, y, hx, hy, hlayer, hid⟩
  · intro h
    rw [(hp.ancestor_eq hi hs).2, (hp.ancestor_eq hi ht).2]
    rcases h with ⟨hs', ht'⟩ | ⟨r, r', x, y, hx, hy, _, hid⟩
    · rw [(hp.historyBefore_eq_none_iff hle).2 hs', (hp.historyBefore_eq_none_iff hle).2 ht']
    · rw [(hp.historyBefore_eq_some_iff hle).2 ⟨x, hx, rfl⟩,
        (hp.historyBefore_eq_some_iff hle).2 ⟨y, hy, rfl⟩]
      exact congrArg some hid

/-- The ids of the splits of one segment are among those of another if the other simulates it. -/
theorem simulates_iff (hi : i + 1 < p.depth) (hs : s ∈ p.layer (i + 1)) (ht : t ∈ p.layer (i + 1)) :
    p.Simulates i s.pair t.pair ↔
      ∀ ids ∈ s.splits.toList.map Split.ids, ids ∈ t.splits.toList.map Split.ids := by
  constructor
  · intro hsim ids hids
    obtain ⟨k₁, k₂, hsum, x, hx, y, hy, hxy, hpair, rfl⟩ := (hp.mem_split_ids_iff hi hs).1 hids
    have hypair : y.pair = ⟨x.pair.target, s.pair.target⟩ := by rw [hpair, hxy]
    have hxpair : x.pair = ⟨s.pair.source, x.pair.target⟩ := by rw [hpair]
    obtain ⟨m, x', hx', y', hy', hxpair', hypair', hxid, hyid⟩ :=
      hsim k₁ k₂ hsum _ x hx y hy hxpair hypair
    refine (hp.mem_split_ids_iff hi ht).2 ⟨k₁, k₂, hsum, x', hx', y', hy', ?_, ?_, ?_⟩
    · rw [hxpair', hypair']
    · rw [hxpair', hypair']
    · rw [hxid, hyid]
  · intro hsub k₁ k₂ hsum m x hx y hy hxpair hypair
    have hids : (x.id, y.id) ∈ s.splits.toList.map Split.ids := by
      refine (hp.mem_split_ids_iff hi hs).2 ⟨k₁, k₂, hsum, x, hx, y, hy, ?_, ?_, rfl⟩
      · rw [hxpair, hypair]
      · rw [hxpair, hypair]
    obtain ⟨k₁', k₂', hsum', x', hx', y', hy', hxy, hpair, heq⟩ :=
      (hp.mem_split_ids_iff hi ht).1 (hsub _ hids)
    obtain ⟨hxid, hyid⟩ := Prod.mk.inj heq
    obtain rfl := hp.eq_layer_of_id_eq (by omega) (by omega) hx hx' hxid
    obtain rfl := hp.eq_layer_of_id_eq (by omega) (by omega) hy hy' hyid
    refine ⟨x'.pair.target, x', hx', y', hy', ?_, ?_, hxid.symm, hyid.symm⟩
    · rw [hpair]
    · rw [hpair, hxy]

/-! ### The ids -/

/-- Two segments of the first layer share an id if and only if they are bisimilar. -/
theorem id_eq_iff_bisimilar_zero (hcount : p.runCount ≤ maxSegmentId) (hs : s ∈ p.layer 0)
    (ht : t ∈ p.layer 0) : s.id = t.id ↔ p.Bisimilar g 0 s.pair t.pair := by
  rw [hp.id_eq_iff hcount hp.depth_pos hs ht]
  change (s.labels.toList == t.labels.toList && s.isLoop == t.isLoop) = true ↔ _
  rw [Bool.and_eq_true, beq_iff_eq, beq_iff_eq, isLoop_eq_iff, Bisimilar, ← hp.labels_eq_iff hs ht,
    and_comm]
  exact and_congr_right fun _ => ⟨OrderedSet.eq_of_toList_eq, congrArg _⟩

/-- Two segments of a later layer share an id if and only if they are bisimilar. -/
theorem id_eq_iff_bisimilar_succ (hcount : p.runCount ≤ maxSegmentId) (hi : i + 1 < p.depth)
    (hs : s ∈ p.layer (i + 1)) (ht : t ∈ p.layer (i + 1)) :
    s.id = t.id ↔ p.Bisimilar g (i + 1) s.pair t.pair := by
  have hsplits : s.splits.toList.map Split.ids = t.splits.toList.map Split.ids ↔
      p.Simulates i s.pair t.pair ∧ p.Simulates i t.pair s.pair := by
    rw [hp.simulates_iff hi hs ht, hp.simulates_iff hi ht hs]
    constructor
    · intro heq
      rw [heq]
      exact ⟨fun _ h => h, fun _ h => h⟩
    · intro h
      exact map_ids_eq_of_mem_iff fun ids => ⟨h.1 ids, h.2 ids⟩
  rw [hp.id_eq_iff hcount hi hs ht]
  change (_ == _ && _ == _ && s.isLoop == t.isLoop) = true ↔ _
  rw [Bool.and_eq_true, Bool.and_eq_true, beq_iff_eq, beq_iff_eq, beq_iff_eq, isLoop_eq_iff, hsplits,
    hp.ancestorId_eq_iff hi hs ht, Bisimilar]
  constructor
  · intro h
    exact ⟨h.2, h.1.2, h.1.1⟩
  · intro h
    exact ⟨⟨h.2.2, h.2.1⟩, h.1⟩

/-- Segments of one id are neighbours: whatever stands between two of them has the id too. -/
theorem id_eq_of_between (hi : i < p.depth) {a b c : Nat} {x y z : Segment} (hab : a ≤ b)
    (hbc : b ≤ c) (hx : (p.layer i)[a]? = some x) (hy : (p.layer i)[b]? = some y)
    (hz : (p.layer i)[c]? = some z) (hid : x.id = z.id) : y.id = x.id := by
  have hle : ∀ {m n : Nat} {u v : Segment}, m ≤ n → (p.layer i)[m]? = some u →
      (p.layer i)[n]? = some v → u.id ≤ v.id := by
    intro m n u v hmn hu hv
    rw [← Array.getElem?_toList] at hu hv
    rcases Nat.lt_or_eq_of_le hmn with hlt | rfl
    · obtain ⟨hm, rfl⟩ := List.getElem?_eq_some_iff.1 hu
      obtain ⟨hn, rfl⟩ := List.getElem?_eq_some_iff.1 hv
      exact List.pairwise_iff_getElem.1 (hp.pairwise_id_le hi) m n hm hn hlt
    · rw [hu] at hv
      cases hv
      exact Nat.le_refl _
  have hfirst := hle hab hx hy
  have hsecond := hle hbc hy hz
  omega

end Layered

/-- The ids of a built partition are exactly the bisimulation: in every layer two segments share an id if and
    only if their pairs are bisimilar there. The segments of an id are neighbours in their layer, and every
    id of a layer is greater than all ids of the layers before it. -/
theorem ids_are_bisimulation (hbuild : (build g k).result = .ok p)
    (hcount : p.runCount < UInt32.size) :
    (∀ i, ∀ s ∈ p.layer i, ∀ t ∈ p.layer i, s.id = t.id ↔ p.Bisimilar g i s.pair t.pair) ∧
    (∀ i (a b c : Nat) (x y z : Segment), a ≤ b → b ≤ c → (p.layer i)[a]? = some x → (p.layer i)[b]? = some y →
      (p.layer i)[c]? = some z → x.id = z.id → y.id = x.id) ∧
    (∀ i j, j < i → ∀ s ∈ p.layer j, ∀ t ∈ p.layer i, s.id < t.id) := by
  have hp := (layered_of_build hbuild).1
  have hcount : p.runCount ≤ maxSegmentId := Nat.le_pred_of_lt hcount
  have hdepth : ∀ {i : Nat} {s : Segment}, s ∈ p.layer i → i < p.depth := fun hs =>
    lt_depth_of_mem_layer hs
  refine ⟨fun i s hs t ht => ?_, ?_, fun i j hij s hs t ht => hp.id_lt_id hij (hdepth ht) hs ht⟩
  · cases i with
    | zero => exact hp.id_eq_iff_bisimilar_zero hcount hs ht
    | succ i => exact hp.id_eq_iff_bisimilar_succ hcount (hdepth hs) hs ht
  · intro i a b c x y z hab hbc hx hy hz hid
    exact hp.id_eq_of_between (hdepth (Array.mem_of_getElem? hx)) hab hbc hx hy hz hid

/-- Two edges with one label that leave one vertex. -/
def fork : Graph where
  vertexCount := 3
  labelCount := 1
  edges := ⟨[⟨1, 0, 0⟩, ⟨1, 2, 0⟩], by decide⟩
  inBounds := by decide

theorem ids_are_bisimulation_fork : ∃ p, (build fork 2).result = .ok p ∧
    p.runCount < UInt32.size ∧ p.Bisimilar fork 1 ⟨0, 0⟩ ⟨2, 2⟩ := by
  obtain ⟨p, hbuild, hp⟩ := exists_ok_of_any (x := (build fork 2).result)
    (f := fun p => decide (p.runCount < UInt32.size) && (p.layer 1).any fun s =>
      (p.layer 1).any fun t => s.id == t.id && s.pair == ⟨0, 0⟩ && t.pair == ⟨2, 2⟩) (by cbv)
  obtain ⟨hcount, hids⟩ := Bool.and_eq_true_iff.1 hp
  have hcount := of_decide_eq_true hcount
  obtain ⟨s, hs, hst⟩ := Array.any_eq_true'.1 hids
  obtain ⟨t, ht, heq⟩ := Array.any_eq_true'.1 hst
  rw [Bool.and_eq_true, Bool.and_eq_true, beq_iff_eq, beq_iff_eq, beq_iff_eq] at heq
  obtain ⟨⟨hid, hspair⟩, htpair⟩ := heq
  have hbisimilar := ((ids_are_bisimulation hbuild hcount).1 1 s hs t ht).1 hid
  rw [hspair, htpair] at hbisimilar
  exact ⟨p, hbuild, hcount, hbisimilar⟩

end Partition

end PathQueryIndex
