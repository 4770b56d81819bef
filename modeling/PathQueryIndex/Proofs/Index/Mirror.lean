/-
Module: PathQueryIndex.Proofs.Index.Mirror
Layer: Proofs
Purpose: Blocks come in mirrored pairs. A block has the pairs whose newest run is the one that it comes from.
  The newest run with the swapped pair is of the same layer, because the walks of a pair and of the swapped
  pair are as long, and it is one run for all pairs of the block, because of two segments that share an id
  the mirrors share one. What labels walks one way labels them the other way, reversed and inverted.
Imports: PathQueryIndex.Proofs.Index.Blocks, PathQueryIndex.Proofs.Partition.Mirror,
  Mathlib.Data.List.Pairwise
Main exports: Block.Mirrors, Partition.Layered.newest_swap, Builder.exists_mirror_of_mem_finish,
  Index.blocks_are_mirrored
-/
import PathQueryIndex.Proofs.Index.Blocks
import PathQueryIndex.Proofs.Partition.Mirror
import Mathlib.Data.List.Pairwise

namespace PathQueryIndex

/-- One block has the pairs and the label sequences of another from the other end, in the same layer. -/
structure Block.Mirrors (block mirror : Block) : Prop where
  mem_pairs : ∀ x, x ∈ mirror.pairs ↔ x.swap ∈ block.pairs
  layer_eq : mirror.layer = block.layer
  mem_labels : ∀ ls, ls ∈ mirror.labels ↔ ls.reverse ∈ block.labels

@[simp] theorem LabelSequence.length_reverse (ls : LabelSequence) : ls.reverse.length = ls.length :=
  length_flipAll ls.labels

/-! ### The newest runs with swapped pairs -/

namespace Partition.Layered

variable {g : Graph} {p : Partition} {i j : Nat} {r t : LayerRun} {x y : Pair}

variable (hp : p.Layered g)

include hp

theorem joined_swap_of_newest (hr : LayerRun.Newest (p.runsUpTo p.depth) x i r) :
    g.Joined (r.layer + 1) x.swap.source x.swap.target :=
  (hp.joined_of_mem_pairs (Nat.le_refl _) (List.mem_of_getElem? hr.place) hr.mem_pairs).symm

theorem layer_le_of_newest_swap (hr : LayerRun.Newest (p.runsUpTo p.depth) x i r)
    (ht : LayerRun.Newest (p.runsUpTo p.depth) x.swap j t) : r.layer ≤ t.layer := by
  apply Nat.le_of_not_lt
  intro hlt
  have hdepth := hp.depth_lt_of_newest ht hlt (hp.joined_swap_of_newest hr)
  exact absurd (mem_runsUpTo.1 (List.mem_of_getElem? hr.place)).1 (Nat.not_lt.2 hdepth)

/-- A pair and the swapped pair were last seen in the same layer. -/
theorem layer_eq_of_newest_swap (hr : LayerRun.Newest (p.runsUpTo p.depth) x i r)
    (ht : LayerRun.Newest (p.runsUpTo p.depth) x.swap j t) : t.layer = r.layer :=
  Nat.le_antisymm (hp.layer_le_of_newest_swap ht hr) (hp.layer_le_of_newest_swap hr ht)

theorem exists_newest_swap (hr : LayerRun.Newest (p.runsUpTo p.depth) x i r) :
    ∃ j t, LayerRun.Newest (p.runsUpTo p.depth) x.swap j t := by
  have hlayer := (mem_runsUpTo.1 (List.mem_of_getElem? hr.place)).1
  obtain ⟨t, ht, _, hmem⟩ := hp.exists_run_of_joined hlayer (hp.joined_swap_of_newest hr)
  exact LayerRun.exists_newest ht hmem

/-- The pairs with one newest run have one newest run from the other end, too. -/
theorem newest_swap (hcount : p.runCount ≤ maxSegmentId)
    (hx : LayerRun.Newest (p.runsUpTo p.depth) x i r)
    (hy : LayerRun.Newest (p.runsUpTo p.depth) y i r)
    (hx' : LayerRun.Newest (p.runsUpTo p.depth) x.swap j t) :
    LayerRun.Newest (p.runsUpTo p.depth) y.swap j t := by
  obtain ⟨k, u, hy'⟩ := hp.exists_newest_swap hy
  have htlayer := hp.layer_eq_of_newest_swap hx hx'
  have hulayer := hp.layer_eq_of_newest_swap hy hy'
  have hrmem := List.mem_of_getElem? hx.place
  have htmem := List.mem_of_getElem? hx'.place
  have humem := List.mem_of_getElem? hy'.place
  obtain ⟨a, ha, har, hapair⟩ := exists_mem_segments hrmem hx.mem_pairs
  obtain ⟨b, hb, hbr, hbpair⟩ := exists_mem_segments hrmem hy.mem_pairs
  obtain ⟨a', ha', hat, hapair'⟩ := exists_mem_segments htmem hx'.mem_pairs
  obtain ⟨b', hb', hbu, hbpair'⟩ := exists_mem_segments humem hy'.mem_pairs
  rw [htlayer] at ha'
  rw [hulayer] at hb'
  have hab := (id_eq_of_mem_segments hrmem har).trans (id_eq_of_mem_segments hrmem hbr).symm
  have hab' : a'.id = b'.id :=
    hp.mirrored hcount r.layer a ha b hb a' ha' b' hb' (by rw [hapair', hapair])
      (by rw [hbpair', hbpair]) hab
  have hid : t.id = u.id := by
    rw [← id_eq_of_mem_segments htmem hat, ← id_eq_of_mem_segments humem hbu, hab']
  have hplace : j = k := hp.place_eq_of_id_eq (Nat.le_refl _) hx'.place hy'.place hid
  subst hplace
  have hrun : t = u := Option.some.inj (hx'.place.symm.trans hy'.place)
  subst hrun
  exact hy'

end Partition.Layered

/-! ### The blocks of a construction -/

namespace Builder

variable {g : Graph} {p : Partition} {b : Builder} {block other : Block} {j : Nat} {r : LayerRun}
  {x : Pair}

theorem ComesFrom.mem_labels_iff (hr : ComesFrom p b j r block) (hl : b.Labeled g)
    (hx : x ∈ block.pairs) (ls : LabelSequence) :
    ls ∈ block.labels ↔ ls.length ≤ r.layer + 1 ∧ g.Walk x.source ls.labels x.target := by
  obtain ⟨draft, hdraft, hdescribes, hlabels⟩ := hr.labels
  have hpair : x ∈ draft.pairs := hdescribes.pairs_eq ▸ ((hr.mem_pairs x).1 hx).mem_pairs
  rw [hlabels, hl j draft hdraft x hpair ls, hdescribes.layer_eq]

variable (hp : p.Layered g) (hb : b.Built p (p.runsUpTo p.depth))

include hp hb

/-- No pair is in two of the blocks. -/
theorem eq_of_mem_pairs (hblock : block ∈ b.finish) (hother : other ∈ b.finish)
    (hx : x ∈ block.pairs) (hx' : x ∈ other.pairs) : block = other := by
  have hapart : b.finish.Pairwise fun y z => ∀ pair ∈ y.pairs, pair ∉ z.pairs :=
    (pairwise_finish hp hb).imp fun h => h.2
  by_contra hne
  have hsymm : Std.Symm fun y z : Block => ∀ pair ∈ y.pairs, pair ∉ z.pairs :=
    ⟨fun y z h pair hz hy => h pair hy hz⟩
  exact hapart.forall hblock hother hne x hx hx'

theorem exists_mirror_of_mem_finish (hcount : p.runCount ≤ maxSegmentId) (hl : b.Labeled g)
    (hblock : block ∈ b.finish) : ∃ mirror ∈ b.finish, block.Mirrors mirror := by
  obtain ⟨j, r, hr⟩ := comesFrom_of_mem_finish hp hb hblock
  obtain ⟨x, hx⟩ := List.exists_mem_of_ne_nil _ hr.pairs_ne_nil
  have hxn := (hr.mem_pairs x).1 hx
  obtain ⟨k, t, hxn'⟩ := hp.exists_newest_swap hxn
  obtain ⟨mirror, hmirror, hx'⟩ := exists_mem_finish hb hxn'
  obtain ⟨k', t', ht⟩ := comesFrom_of_mem_finish hp hb hmirror
  have hxt := (ht.mem_pairs x.swap).1 hx'
  have hlayer : t'.layer = r.layer := hp.layer_eq_of_newest_swap hxn hxt
  refine ⟨mirror, hmirror, fun y => ?_, ?_, fun ls => ?_⟩
  · rw [ht.mem_pairs, hr.mem_pairs]
    constructor
    · intro hy
      exact hp.newest_swap hcount hxt hy hxn
    · intro hy
      exact hp.newest_swap hcount hxn hy hxt
  · rw [ht.layer_eq, hr.layer_eq, hlayer]
  · rw [ht.mem_labels_iff hl hx', hr.mem_labels_iff hl hx, LabelSequence.length_reverse, hlayer]
    exact and_congr_right fun _ => Graph.walk_flipAll.symm

end Builder

/-! ### The blocks of an index -/

namespace Index

variable {g : Graph} {o : Options} {p : Partition} {index : Index}

/-- Blocks come in mirrored pairs, as long as there are ids for all runs: just one block has the swapped
    pairs of a block, it is of the same layer, and its label sequences are those of the block reversed,
    with every label inverted. In each layer two segments share an id iff their mirrors do. -/
theorem blocks_are_mirrored (hpart : (Partition.build g o.depth).result = .ok p)
    (h : (build g o).result = .ok index) (hcount : p.runCount < UInt32.size) :
    (∀ block ∈ index.blocks, ∃ mirror ∈ index.blocks, block.Mirrors mirror ∧
      ∀ other ∈ index.blocks, (∀ x, x ∈ other.pairs ↔ x.swap ∈ block.pairs) → other = mirror) ∧
    ∀ i, (∀ s ∈ p.layer i, ∃ s' ∈ p.layer i, s'.pair = s.pair.swap) ∧
      ∀ s ∈ p.layer i, ∀ t ∈ p.layer i, ∀ s' ∈ p.layer i, ∀ t' ∈ p.layer i,
        s'.pair = s.pair.swap → t'.pair = t.pair.swap → (s.id = t.id ↔ s'.id = t'.id) := by
  obtain ⟨hp, hdepth⟩ := Partition.layered_of_build hpart
  obtain ⟨b, hb, hblocks, hlabeled⟩ := exists_builder_of_build hpart h
  have hcount : p.runCount ≤ maxSegmentId := Nat.le_sub_one_of_lt hcount
  refine ⟨fun block hblock => ?_, fun i => ⟨fun s hs => hp.exists_mirror hs, ?_⟩⟩
  · rw [hblocks] at hblock ⊢
    obtain ⟨mirror, hmirror, hmirrors⟩ :=
      Builder.exists_mirror_of_mem_finish hp hb hcount (hlabeled hcount) hblock
    refine ⟨mirror, hmirror, hmirrors, fun other hother hpairs => ?_⟩
    obtain ⟨j, r, hr⟩ := Builder.comesFrom_of_mem_finish hp hb hother
    obtain ⟨x, hx⟩ := List.exists_mem_of_ne_nil _ hr.pairs_ne_nil
    exact Builder.eq_of_mem_pairs hp hb hother hmirror hx ((hmirrors.mem_pairs x).2 ((hpairs x).1 hx))
  · intro s hs t ht s' hs' t' ht' hspair htpair
    constructor
    · intro hid
      exact hp.mirrored hcount i s hs t ht s' hs' t' ht' hspair htpair hid
    · intro hid
      refine hp.mirrored hcount i s' hs' t' ht' s hs t ht ?_ ?_ hid
      · rw [hspair, Pair.swap_swap]
      · rw [htpair, Pair.swap_swap]

theorem blocks_are_mirrored_two_steps : ∃ index, (build twoSteps blocksOnly).result = .ok index ∧
    ∃ block ∈ index.blocks, ⟨0, 2⟩ ∈ block.pairs ∧ ∃ mirror ∈ index.blocks, block.Mirrors mirror := by
  obtain ⟨p, hpart, hcount⟩ := exists_ok_of_any
    (x := (Partition.build twoSteps blocksOnly.depth).result)
    (f := fun p => decide (p.runCount < UInt32.size)) (by cbv)
  obtain ⟨index, h, hpairs⟩ := exists_ok_of_any (x := (build twoSteps blocksOnly).result)
    (f := fun index => index.blocks.any fun block => block.pairs.contains ⟨0, 2⟩) (by cbv)
  obtain ⟨block, hblock, hx⟩ := List.any_eq_true.1 hpairs
  obtain ⟨mirror, hmirror, hmirrors, _⟩ :=
    (blocks_are_mirrored hpart h (of_decide_eq_true hcount)).1 block hblock
  exact ⟨index, h, block, hblock, List.contains_iff_mem.1 hx, mirror, hmirror, hmirrors⟩

end Index

end PathQueryIndex
