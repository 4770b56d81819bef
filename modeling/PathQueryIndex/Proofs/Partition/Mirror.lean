/-
Module: PathQueryIndex.Proofs.Partition.Mirror
Layer: Proofs
Purpose: Layers look the same from both ends. A walk taken backwards has as many steps, so every layer has
  the swapped pair of each of its segments. The construction itself is one-sided, and the ids of a segment
  and of its mirror have nothing to do with each other; but of two segments that share an id the mirrors
  share one too. That is read off the bisimulation: turning a split around exchanges its parts, so
  the clauses of a layer for the mirrors are those for the segments, given the same of all layers before.
Imports: PathQueryIndex.Proofs.Partition.Bisimulation
Main exports: Graph.Joined.symm, Partition.Mirrored, Partition.Layered.exists_mirror,
  Partition.Layered.bisimilar_swap, Partition.Layered.mirrored
-/
import PathQueryIndex.Proofs.Partition.Bisimulation

namespace PathQueryIndex

/-! ### Walks taken backwards -/

@[simp] theorem length_flipAll (labels : List Label) : (flipAll labels).length = labels.length := by
  rw [flipAll, List.length_reverse, List.length_map]

theorem Graph.Joined.symm {g : Graph} {n : Nat} {u v : Vertex} (h : g.Joined n u v) :
    g.Joined n v u := by
  obtain ⟨ls, hlen, hw⟩ := h
  exact ⟨flipAll ls, (length_flipAll ls).trans hlen, hw.reverse⟩

namespace Partition

variable {g : Graph} {p : Partition} {i n : Nat} {s t : Segment} {a b : Pair} {r : SegmentRef}

/-- Of two segments of a layer that share an id, the segments of the swapped pairs share one too. -/
def Mirrored (p : Partition) (i : Nat) : Prop :=
  ∀ s ∈ p.layer i, ∀ t ∈ p.layer i, ∀ s' ∈ p.layer i, ∀ t' ∈ p.layer i,
    s'.pair = s.pair.swap → t'.pair = t.pair.swap → s.id = t.id → s'.id = t'.id

theorem LoopAlike.swap (h : LoopAlike a b) : LoopAlike a.swap b.swap := by
  constructor
  · intro heq
    exact (h.1 heq.symm).symm
  · intro heq
    exact (h.2 heq.symm).symm

namespace Layered

variable (hp : p.Layered g)

include hp

/-- A layer has the swapped pairs of its segments. -/
theorem exists_mirror (hs : s ∈ p.layer i) : ∃ s' ∈ p.layer i, s'.pair = s.pair.swap := by
  have hi := lt_depth_of_mem_layer hs
  exact (hp.exists_segment_iff hi).2 ((hp.exists_segment_iff hi).1 ⟨s, hs, rfl⟩).symm

/-! ### The clauses of the bisimulation from the other end -/

theorem unseen_swap (h : p.Unseen i a) : p.Unseen i a.swap := by
  intro j hj t ht hpair
  obtain ⟨t', ht', hpair'⟩ := hp.exists_mirror ht
  rw [hpair] at hpair'
  exact h j hj t' ht' hpair'

/-- The swapped pair was last seen in the same layer. -/
theorem exists_latest_swap (h : p.Latest i a r s) :
    ∃ r' s', p.Latest i a.swap r' s' ∧ r'.layer = r.layer := by
  obtain ⟨s', hs', hpair⟩ := hp.exists_mirror (Array.mem_of_getElem? h.segment)
  obtain ⟨index, hindex⟩ := Array.mem_iff_getElem?.1 hs'
  refine ⟨⟨r.layer, index⟩, s', ⟨h.before, hindex, by rw [hpair, h.pair_eq], ?_⟩, rfl⟩
  intro m hm hmi t ht hpair
  obtain ⟨t', ht', hpair'⟩ := hp.exists_mirror ht
  rw [hpair] at hpair'
  exact h.gap m hm hmi t' ht' hpair'

theorem sameHistory_swap (hbefore : ∀ j < i, p.Mirrored j) (h : p.SameHistory i a b) :
    p.SameHistory i a.swap b.swap := by
  rcases h with ⟨ha, hb⟩ | ⟨r, t, x, y, hx, hy, hlayer, hid⟩
  · exact .inl ⟨hp.unseen_swap ha, hp.unseen_swap hb⟩
  · obtain ⟨r', x', hx', hxlayer⟩ := hp.exists_latest_swap hx
    obtain ⟨t', y', hy', hylayer⟩ := hp.exists_latest_swap hy
    refine .inr ⟨r', t', x', y', hx', hy', by rw [hxlayer, hylayer, hlayer], ?_⟩
    have hxmem := Array.mem_of_getElem? hx.segment
    have hymem := Array.mem_of_getElem? hy.segment
    have hxmem' := Array.mem_of_getElem? hx'.segment
    have hymem' := Array.mem_of_getElem? hy'.segment
    rw [← hlayer] at hymem
    rw [hxlayer] at hxmem'
    rw [hylayer, ← hlayer] at hymem'
    refine hbefore _ hx.before x hxmem y hymem x' hxmem' y' hymem' ?_ ?_ hid
    · rw [hx'.pair_eq, hx.pair_eq]
    · rw [hy'.pair_eq, hy.pair_eq]

/-- A split of a walk that is turned around has the mirrors of its parts, in the other order. -/
theorem simulates_swap (hbefore : ∀ j ≤ n, p.Mirrored j) (h : p.Simulates n a b) :
    p.Simulates n a.swap b.swap := by
  intro k₁ k₂ hsum m x hx y hy hxpair hypair
  obtain ⟨x', hx', hxpair'⟩ := hp.exists_mirror hx
  obtain ⟨y', hy', hypair'⟩ := hp.exists_mirror hy
  rw [hxpair] at hxpair'
  rw [hypair] at hypair'
  obtain ⟨m', v', hv', u', hu', hvpair', hupair', hvid, huid⟩ :=
    h k₂ k₁ (by omega) m y' hy' x' hx' hypair' hxpair'
  obtain ⟨u, hu, hupair⟩ := hp.exists_mirror hu'
  obtain ⟨v, hv, hvpair⟩ := hp.exists_mirror hv'
  refine ⟨m', u, hu, v, hv, by rw [hupair, hupair']; rfl, by rw [hvpair, hvpair']; rfl, ?_, ?_⟩
  · refine hbefore k₁ (by omega) u' hu' x' hx' u hu x hx hupair ?_ huid
    rw [hxpair, hxpair']
    rfl
  · refine hbefore k₂ (by omega) v' hv' y' hy' v hv y hy hvpair ?_ hvid
    rw [hypair, hypair']
    rfl

/-- The step: what is bisimilar in a layer is bisimilar from the other end. -/
theorem bisimilar_swap (hbefore : ∀ j < i, p.Mirrored j) (h : p.Bisimilar g i a b) :
    p.Bisimilar g i a.swap b.swap := by
  cases i with
  | zero =>
      obtain ⟨hloop, hsteps⟩ := h
      refine ⟨hloop.swap, fun l => ?_⟩
      rw [← Graph.step_flip, ← Graph.step_flip (l := l)]
      exact hsteps l.flip
  | succ i =>
      obtain ⟨hloop, hhistory, hforth, hback⟩ := h
      have hbefore' : ∀ j ≤ i, p.Mirrored j := fun j hj => hbefore j (Nat.lt_succ_of_le hj)
      exact ⟨hloop.swap, hp.sameHistory_swap hbefore hhistory, hp.simulates_swap hbefore' hforth,
        hp.simulates_swap hbefore' hback⟩

/-! ### The ids of mirrors -/

theorem id_eq_iff_bisimilar (hcount : p.runCount ≤ maxSegmentId) (hs : s ∈ p.layer i)
    (ht : t ∈ p.layer i) : s.id = t.id ↔ p.Bisimilar g i s.pair t.pair := by
  cases i with
  | zero => exact hp.id_eq_iff_bisimilar_zero hcount hs ht
  | succ i => exact hp.id_eq_iff_bisimilar_succ hcount (lt_depth_of_mem_layer hs) hs ht

/-- The run: every layer of a partition is mirrored. -/
theorem mirrored (hcount : p.runCount ≤ maxSegmentId) (i : Nat) : p.Mirrored i := by
  induction i using Nat.strongRecOn with
  | ind i ih =>
      intro s hs t ht s' hs' t' ht' hspair htpair hid
      have hbisimilar := (hp.id_eq_iff_bisimilar hcount hs ht).1 hid
      apply (hp.id_eq_iff_bisimilar hcount hs' ht').2
      rw [hspair, htpair]
      exact hp.bisimilar_swap ih hbisimilar

end Layered

end Partition

end PathQueryIndex
