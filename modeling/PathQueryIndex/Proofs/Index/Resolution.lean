/-
Module: PathQueryIndex.Proofs.Index.Resolution
Layer: Proofs
Purpose: What the segments record is complete, and every place that is recorded is found again. A segment
  has one split for each pair of ids that its walks lead through, each split names two earlier segments that
  join to the pair, and the ancestor is the latest earlier segment of the pair. So the blocks of both ends of
  a split are always there when a run becomes a block: blocks alone cannot fail to be built, whatever the
  cores before them were.
Imports: PathQueryIndex.Proofs.Index.Blocks, PathQueryIndex.Proofs.Index.Links,
  PathQueryIndex.Proofs.Partition.Bisimulation
Main exports: Partition.Recorded, Partition.Layered.recorded, Builder.Stage.exists_addBlock,
  Builder.Stage.addLayer, Index.records_are_complete
-/
import PathQueryIndex.Proofs.Index.Blocks
import PathQueryIndex.Proofs.Index.Links
import PathQueryIndex.Proofs.Partition.Bisimulation

namespace PathQueryIndex

open Std

/-! ### What a segment records -/

namespace Partition

variable {g : Graph} {k : Nat} {p : Partition} {i n : Nat} {s : Segment}

/-- Segments `x` and `y` join to segment `s`: the one ends where the other starts, and `s` has the outer
    ends. -/
def JoinsTo (x y s : Segment) : Prop :=
  x.pair.target = y.pair.source ∧ s.pair = ⟨x.pair.source, y.pair.target⟩

/-- A segment of layer `i` records the layers before it: none in the first layer, and later the ids of all
    pairs of earlier segments that join to it, each once and with the places of two segments that have them,
    and the latest earlier segment of its pair. -/
structure Recorded (p : Partition) (i : Nat) (s : Segment) : Prop where
  splits_empty : i = 0 → s.splits = .empty
  mem_split_ids : ∀ ids, ids ∈ s.splits.toList.map Split.ids ↔ ∃ k₁ k₂, k₁ + k₂ + 1 = i ∧
    ∃ x ∈ p.layer k₁, ∃ y ∈ p.layer k₂, JoinsTo x y s ∧ ids = (x.id, y.id)
  nodup_split_ids : (s.splits.toList.map Split.ids).Nodup
  split_places : ∀ sp ∈ s.splits, sp.first.layer + sp.second.layer + 1 = i ∧
    ∃ x y, (p.layer sp.first.layer)[sp.first.index]? = some x ∧
      (p.layer sp.second.layer)[sp.second.index]? = some y ∧ JoinsTo x y s ∧ sp.ids = (x.id, y.id)
  ancestor_iff : ∀ r, s.ancestor = some r ↔ ∃ t, p.Latest i s.pair r t
  ancestor_none_iff : s.ancestor = none ↔ p.Unseen i s.pair
  ancestorId_eq : ∀ r t, p.Latest i s.pair r t → s.ancestorId = some t.id

/-- No two splits of a segment have the same ids. -/
theorem nodup_split_ids (splits : OrderedSet Split) : (splits.toList.map Split.ids).Nodup := by
  refine List.pairwise_map.2 (splits.ascending.imp fun {x y} hlt heq => ?_)
  rw [compare_split_eq_iff.2 heq] at hlt
  cases hlt

namespace Layered

variable (hp : p.Layered g)

include hp

/-- Every segment records the layers before it. -/
theorem recorded (hs : s ∈ p.layer i) : p.Recorded i s := by
  have hi := lt_depth_of_mem_layer hs
  obtain ⟨hancestor, hancestorId⟩ := hp.ancestor_eq hi hs
  have hlatest : ∀ r n, (p.historyBefore i)[s.pair]? = some (r, n) ↔
      ∃ t, p.Latest i s.pair r t ∧ t.id = n := fun _ _ => hp.historyBefore_eq_some_iff (Nat.le_of_lt hi)
  refine ⟨?_, fun ids => ?_, nodup_split_ids s.splits, fun sp hsp => ?_, fun r => ?_, ?_, fun r t ht => ?_⟩
  · rintro rfl
    exact hp.splits_eq_empty hs
  · cases i with
    | zero =>
        rw [hp.splits_eq_empty hs]
        constructor
        · intro h
          cases h
        · rintro ⟨_, _, hsum, _⟩
          cases hsum
    | succ i =>
        simp only [hp.mem_split_ids_iff hi hs, Nat.add_right_cancel_iff, JoinsTo, and_assoc]
  · cases i with
    | zero =>
        rw [hp.splits_eq_empty hs] at hsp
        cases hsp
    | succ i =>
        obtain ⟨x, y, hx, hy, hsum, hxy, hpair, hids⟩ := hp.exists_of_mem_splits hi hs hsp
        exact ⟨congrArg (· + 1) hsum, x, y, hx, hy, ⟨hxy, hpair⟩, hids⟩
  · rw [hancestor, Option.map_eq_some_iff]
    constructor
    · rintro ⟨⟨r, n⟩, hhist, rfl⟩
      obtain ⟨t, ht, _⟩ := (hlatest _ _).1 hhist
      exact ⟨t, ht⟩
    · rintro ⟨t, ht⟩
      exact ⟨(r, t.id), (hlatest _ _).2 ⟨t, ht, rfl⟩, rfl⟩
  · rw [hancestor, Option.map_eq_none_iff]
    exact hp.historyBefore_eq_none_iff (Nat.le_of_lt hi)
  · rw [hancestorId, (hlatest _ _).2 ⟨t, ht, rfl⟩]
    rfl

end Layered

end Partition

/-! ### Blocks are always found -/

namespace Builder

variable {g : Graph} {p : Partition} {b b' : Builder} {done : List LayerRun} {r : LayerRun} {n : Nat}
  {oc : Option Canonicalizer} {limit : Option Nat}

/-- The blocks of the layers before layer `n`, as they are built with or without cores. -/
def firstLayers (oc : Option Canonicalizer) (limit : Option Nat) (p : Partition) (n : Nat) :
    Traced Builder :=
  (List.range n).foldlM (addLayer oc limit p) empty

namespace Stage

/-- The next run becomes a block: every split of its first segment names two segments of earlier layers,
    whose runs have blocks already. -/
theorem exists_addBlock (hp : p.Layered g) (hnext : done ++ [r] <+: p.runsUpTo p.depth)
    (hb : b.Stage p r.layer done) :
    ∃ b', Builder.addBlock r.layer (r.layer + 1 == p.depth) b r.segments = .ok b' := by
  obtain ⟨hlayer, hrun⟩ :=
    Partition.mem_runsUpTo.1 (List.mem_of_getElem? (getElem?_runsUpTo_of_next hnext))
  obtain ⟨s, rest, hsegments⟩ := List.exists_cons_of_ne_nil (ne_nil_of_mem_runs hrun)
  have hs := Partition.mem_layer_of_mem_run hrun (hsegments ▸ List.mem_cons_self ..)
  have hjoins : ∃ joins, s.splits.toList.mapM b.joinOf = .ok joins := by
    apply exists_mapM
    intro sp hsp
    obtain ⟨hsum, x, y, hx, hy, _⟩ := (hp.recorded hs).split_places sp hsp
    obtain ⟨first, hfirst⟩ := Partition.exists_ownedBy (by omega) hx
    obtain ⟨second, hsecond⟩ := Partition.exists_ownedBy (by omega) hy
    exact ⟨⟨first, second⟩, (joinOf_eq_ok_iff hp hnext hb.owned hs hsp).2 ⟨hfirst, hsecond⟩⟩
  obtain ⟨joins, hjoins⟩ := hjoins
  rw [hsegments]
  exact ⟨_, bind_eq_ok.2 ⟨joins, hjoins, rfl⟩⟩

/-- All runs of the next layer become blocks. -/
theorem exists_addBlocks (hp : p.Layered g) (hn : n < p.depth) (hb : b.Stage p n (p.runsUpTo n)) :
    ∃ b', (p.runsOf n).foldlM (Builder.addBlock n (n + 1 == p.depth)) b = .ok b' ∧
      b'.Stage p n (p.runsUpTo (n + 1)) := by
  rw [Partition.runsUpTo_succ]
  refine exists_foldlM_keeping
    (motive := fun runs b => Stage p n (p.runsUpTo n ++ runs.map fun run => ⟨n, run⟩) b) ?_
    (by rw [List.map_nil, List.append_nil]; exact hb)
  intro runs run b hruns hb
  have hnext := Partition.next_of_prefix_runsOf hn hruns
  obtain ⟨b', hb'⟩ := exists_addBlock (r := ⟨n, run⟩) hp hnext hb
  rw [List.map_append, ← List.append_assoc]
  exact ⟨b', hb', Stage.addBlock (r := ⟨n, run⟩) hp hnext hb hb'⟩

/-- A layer without cores is built. -/
theorem exists_addLayer (hp : p.Layered g) (hn : n < p.depth) (hb : b.Stage p n (p.runsUpTo n)) :
    ∃ b', (Builder.addLayer none limit p b n).result = .ok b' := by
  obtain ⟨d, hblocks, _⟩ := exists_addBlocks hp hn hb
  simp only [Builder.addLayer, Traced.bind_eq_ok, Traced.result_emit, Traced.result_lift]
  exact ⟨_, (), trivial, d, hblocks, (), trivial, rfl⟩

/-- The step: a layer with its cores or without. -/
theorem addLayer (hp : p.Layered g) (hn : n < p.depth) (hb : b.Stage p n (p.runsUpTo n))
    (h : (Builder.addLayer oc limit p b n).result = .ok b') : b'.Stage p (n + 1) (p.runsUpTo (n + 1)) := by
  obtain ⟨d, hblocks, hd⟩ := exists_addBlocks hp hn hb
  simp only [Builder.addLayer, Traced.bind_eq_ok, Traced.result_emit, Traced.result_lift] at h
  obtain ⟨_, _, d', hfold, _, _, h⟩ := h
  rw [hblocks] at hfold
  cases hfold
  rw [hb.built.size_eq] at h
  have howners := hd.push hn
  cases oc with
  | none =>
      cases h
      exact howners
  | some c =>
      exact addLayerCores_keeps (motive := fun done b => b.Stage p (n + 1) done)
        (fun _ _ _ hcores hb => hb.addCores hcores) h howners

/-- The run: whatever layers are built, their segments are looked up and their drafts are linked. -/
theorem firstLayers (hp : p.Layered g) (hn : n ≤ p.depth)
    (h : (Builder.firstLayers oc limit p n).result = .ok b) : b.Stage p n (p.runsUpTo n) := by
  rw [Builder.firstLayers, Traced.result_foldlM] at h
  refine foldlM_range_induction (motive := fun m b => Stage p m (p.runsUpTo m) b) ?_ h (Stage.empty p)
  intro m b b' hm hstep hb
  exact hb.addLayer hp (Nat.lt_of_lt_of_le hm hn) hstep

end Stage

/-- Without cores, all layers are built. -/
theorem exists_ofPartition (hp : p.Layered g) (limit : Option Nat) :
    ∃ b, (ofPartition none limit p).result = .ok b := by
  rw [ofPartition, Traced.result_foldlM]
  have hlayers := exists_foldlM_range (f := fun b n => (addLayer none limit p b n).result)
    (motive := fun n b => Stage p n (p.runsUpTo n) b) (n := p.depth) (b := empty) ?_ (Stage.empty p)
  · obtain ⟨b, hb, _⟩ := hlayers
    exact ⟨b, hb⟩
  · intro n b hn hb
    obtain ⟨b', hb'⟩ := hb.exists_addLayer hp hn
    exact ⟨b', hb', hb.addLayer hp hn hb'⟩

end Builder

namespace Index

variable {g : Graph} {k : Nat} {p : Partition} {o : Options}

/-- An index without cores is put together of any partition that was built. -/
theorem exists_assemble (hp : p.Layered g) (ho : o.cores = false) (oc : Option Canonicalizer) :
    ∃ x, (assemble p o oc).result = .ok x := by
  obtain ⟨b, hb⟩ := Builder.exists_ofPartition hp o.maxIntersections
  have hdepth : p.depth ≠ 0 := Nat.ne_of_gt hp.depth_pos
  simp only [assemble, if_neg hdepth, ho, Bool.false_eq_true, if_false, Traced.bind_eq_ok]
  exact ⟨_, b, hb, rfl⟩

/-- With valid settings an index without cores is built of any partition that was built. -/
theorem exists_ofPartition_iff (hp : p.Layered g) (ho : o.cores = false) :
    (∃ index, (ofPartition p o).result = .ok index) ↔ o.validate = .ok () := by
  simp only [ofPartition, Traced.bind_eq_ok, Traced.result_lift]
  constructor
  · rintro ⟨_, _, hvalid, _⟩
    exact hvalid
  · intro hvalid
    obtain ⟨x, hx⟩ := exists_assemble hp ho (some (canonicalizer o))
    exact ⟨x.1, (), hvalid, x, hx, rfl⟩

/-- Every segment of every layer of a partition records all ways to split its walks and the latest earlier
    segment of its pair. Therefore a layer always becomes blocks, whatever blocks and cores there are of the
    layers before it, and an index without cores is built whenever its settings are valid. -/
theorem records_are_complete (hbuild : (Partition.build g k).result = .ok p) :
    (∀ i, ∀ s ∈ p.layer i, p.Recorded i s) ∧
      (∀ oc limit n b, n < p.depth → (Builder.firstLayers oc limit p n).result = .ok b →
        ∃ b', (p.runsOf n).foldlM (Builder.addBlock n (n + 1 == p.depth)) b = .ok b') ∧
      ∀ o, o.cores = false →
        ((∃ index, (ofPartition p o).result = .ok index) ↔ o.validate = .ok ()) := by
  have hp := (Partition.layered_of_build hbuild).1
  refine ⟨fun i s hs => hp.recorded hs, fun oc limit n b hn hb => ?_, fun o ho => ?_⟩
  · obtain ⟨b', hb', _⟩ := (Builder.Stage.firstLayers hp (Nat.le_of_lt hn) hb).exists_addBlocks hp hn
    exact ⟨b', hb'⟩
  · exact exists_ofPartition_iff hp ho

/-- Of two steps along one label: the pair of their ends is recorded as one split, and the index is
    built. -/
theorem records_are_complete_two_steps : ∃ p, (Partition.build twoSteps 2).result = .ok p ∧
    (∃ s ∈ p.layer 1, s.pair = ⟨0, 2⟩ ∧ s.ancestor = none ∧
      ∃ x ∈ p.layer 0, ∃ y ∈ p.layer 0, Partition.JoinsTo x y s ∧
        (x.id, y.id) ∈ s.splits.toList.map Split.ids) ∧
    ∃ index, (ofPartition p blocksOnly).result = .ok index := by
  obtain ⟨p, hbuild, hp⟩ := exists_ok_of_any (x := (Partition.build twoSteps 2).result)
    (f := fun p => (p.layer 1).any fun s =>
      s.pair == ⟨0, 2⟩ && decide (s.ancestor = none) && !s.splits.isEmpty) (by cbv)
  obtain ⟨s, hs, hshape⟩ := Array.any_eq_true'.1 hp
  simp only [Bool.and_eq_true, beq_iff_eq, decide_eq_true_eq] at hshape
  obtain ⟨⟨hpair, hancestor⟩, hsplits⟩ := hshape
  obtain ⟨sp, hsp⟩ := List.exists_mem_of_ne_nil s.splits.toList fun hnil => by
    rw [OrderedSet.isEmpty, hnil] at hsplits
    cases hsplits
  obtain ⟨hrecorded, _, hindex⟩ := records_are_complete hbuild
  obtain ⟨hsum, x, y, hx, hy, hjoins, hids⟩ := (hrecorded 1 s hs).split_places sp hsp
  have hfirst : sp.first.layer = 0 := by omega
  have hsecond : sp.second.layer = 0 := by omega
  rw [hfirst] at hx
  rw [hsecond] at hy
  exact ⟨p, hbuild, ⟨s, hs, hpair, hancestor, x, Array.mem_of_getElem? hx, y,
    Array.mem_of_getElem? hy, hjoins, hids ▸ List.mem_map_of_mem hsp⟩,
    (hindex blocksOnly rfl).2 rfl⟩

end Index

end PathQueryIndex
