/-
Module: PathQueryIndex.Proofs.Index.Labels
Layer: Proofs
Purpose: The labels of a draft. A run gives its draft the labels of one of its segments, which are those of
  walks of one length only; shorter walks come with the pairs that the draft takes over. That this makes
  the labels of all walks up to the layer, for every pair of the draft, is kept by every step: the pairs of
  a run have the same walks, and whatever layer has a pair, the draft that holds it is of that layer or a
  later one.
Imports: PathQueryIndex.Proofs.Index.Holders, PathQueryIndex.Proofs.Partition.Agreement
Main exports: Partition.Layered.walk_iff_of_mem_pairs, Partition.Layered.holds_iff_of_mem_pairs,
  Builder.Labeled, Builder.labeled_of_ofPartition
-/
import PathQueryIndex.Proofs.Index.Holders
import PathQueryIndex.Proofs.Partition.Agreement

namespace PathQueryIndex

/-! ### The pairs of one run -/

namespace Partition.Layered

variable {g : Graph} {p : Partition} {r : LayerRun} {n : Nat} {x y : Pair}

variable (hp : p.Layered g)

include hp

/-- Pairs of one run with a sharp id agree on every query up to the length of its walks. -/
theorem holds_iff_of_sharp (hsharp : p.Sharp r.id) (hn : n ≤ p.depth)
    (hr : r ∈ p.runsUpTo n) (hx : x ∈ r.pairs) (hy : y ∈ r.pairs) {q : Query}
    (hq : q.diameter ≤ r.layer + 1) :
    q.Holds g x.source x.target ↔ q.Holds g y.source y.target := by
  obtain ⟨s, hs, hmem, rfl⟩ := exists_mem_segments hr hx
  obtain ⟨t, ht, hmem', rfl⟩ := exists_mem_segments hr hy
  have hi := Nat.lt_of_lt_of_le (mem_runsUpTo.1 hr).1 hn
  have hsid := id_eq_of_mem_segments hr hmem
  have hid := hsid.trans (id_eq_of_mem_segments hr hmem').symm
  exact hp.holds_iff_of_id_eq (hsid ▸ hsharp) hi hs ht hid hq

/-- Pairs of one run agree on every query up to the length of its walks. -/
theorem holds_iff_of_mem_pairs (hcount : p.runCount ≤ maxSegmentId) (hn : n ≤ p.depth)
    (hr : r ∈ p.runsUpTo n) (hx : x ∈ r.pairs) (hy : y ∈ r.pairs) {q : Query}
    (hq : q.diameter ≤ r.layer + 1) :
    q.Holds g x.source x.target ↔ q.Holds g y.source y.target :=
  hp.holds_iff_of_sharp (hp.sharp_of_runCount_le hcount _) hn hr hx hy hq

theorem walk_iff_of_mem_pairs (hcount : p.runCount ≤ maxSegmentId) (hn : n ≤ p.depth)
    (hr : r ∈ p.runsUpTo n) (hx : x ∈ r.pairs) (hy : y ∈ r.pairs) {ls : LabelSequence}
    (hlen : ls.length ≤ r.layer + 1) :
    g.Walk x.source ls.labels x.target ↔ g.Walk y.source ls.labels y.target := by
  rw [← Query.holds_path, ← Query.holds_path]
  exact hp.holds_iff_of_mem_pairs hcount hn hr hx hy (Query.diameter_path ls ▸ hlen)

/-- The layers of a pair are given by the lengths of its walks. -/
theorem exists_run_of_joined (hn : n < p.depth) (h : g.Joined (n + 1) x.source x.target) :
    ∃ r ∈ p.runsUpTo p.depth, r.layer = n ∧ x ∈ r.pairs := by
  obtain ⟨s, hs, hpair⟩ := (hp.exists_segment_iff hn).2 h
  obtain ⟨r, hr, hlayer, hmem⟩ := exists_mem_runsUpTo hn hs
  exact ⟨r, hr, hlayer, List.mem_map.2 ⟨s, hmem, hpair⟩⟩

theorem joined_of_mem_pairs (hn : n ≤ p.depth) (hr : r ∈ p.runsUpTo n) (hx : x ∈ r.pairs) :
    g.Joined (r.layer + 1) x.source x.target := by
  obtain ⟨s, hs, _, rfl⟩ := exists_mem_segments hr hx
  exact (hp.exists_segment_iff (Nat.lt_of_lt_of_le (mem_runsUpTo.1 hr).1 hn)).1 ⟨s, hs, rfl⟩

end Partition.Layered

/-! ### The labels of the drafts -/

namespace Builder

variable {g : Graph} {p : Partition} {b b' : Builder} {done : List LayerRun} {r : LayerRun}
  {block : Block} {oc : Option Canonicalizer} {limit : Option Nat}

/-- Every block has the labels of all walks between any of its pairs up to its layer. -/
def Labeled (g : Graph) (b : Builder) : Prop :=
  ∀ j block, b.blockAt j = some block → ∀ pair ∈ block.pairs, ∀ ls,
    ls ∈ block.labels ↔ ls.length ≤ block.layer ∧ g.Walk pair.source ls.labels pair.target

section Step

variable (hp : p.Layered g) (hcount : p.runCount ≤ maxSegmentId)
  (hnext : done ++ [r] <+: p.runsUpTo p.depth) (hb : b.Built p done) (hl : b.Labeled g)
  (h : b.Appends r (r.layer + 1 == p.depth) block b')

include hnext in
theorem mem_runsUpTo_of_next : r ∈ p.runsUpTo p.depth :=
  hnext.subset (List.mem_append_right _ (List.mem_singleton_self r))

include hp hnext hb hl in
/-- A pair of the run is held by a draft that has the labels of all its shorter walks. -/
theorem exists_holder {pair : Pair} (hpair : pair ∈ r.pairs) {ls : LabelSequence}
    (hlen : ls.length ≤ r.layer) (hwalk : g.Walk pair.source ls.labels pair.target) :
    ∃ i, b.holder[pair]? = some i ∧ ∃ other, b.blockAt i = some other ∧ ls ∈ other.labels := by
  have hlayer := (Partition.mem_runsUpTo.1 (mem_runsUpTo_of_next hnext)).1
  obtain ⟨n, hn⟩ := Nat.exists_eq_succ_of_ne_zero
    (fun hzero => ls.nonempty (List.length_eq_zero_iff.1 hzero))
  have hn : ls.length = n + 1 := hn
  obtain ⟨t, ht, htlayer, htpair⟩ := hp.exists_run_of_joined (by omega) ⟨_, hn, hwalk⟩
  have ht := Partition.mem_of_layer_lt hnext ht (by omega)
  obtain ⟨i, u, hu⟩ := LayerRun.exists_newest ht htpair
  have humem : u ∈ done := List.mem_of_getElem? hu.place
  have hsorted := (Partition.pairwise_layer_runsUpTo p p.depth).sublist hnext.sublist
  have hle := hu.layer_le (List.pairwise_append.1 hsorted).1 ht htpair
  have hlt := hp.layer_lt_of_next (Nat.le_refl _) hnext humem hu.mem_pairs hpair
  obtain ⟨other, hother, hdescribes⟩ := hb.exists_block i u hu.place
  refine ⟨i, (hb.holder_iff pair i).2 ⟨u, hu, by omega⟩, other, hother, ?_⟩
  apply (hl i other hother pair (hdescribes.pairs_eq ▸ hu.mem_pairs) ls).2
  rw [hdescribes.layer_eq]
  exact ⟨by omega, hwalk⟩

include hp hcount hnext hb hl h in
/-- The labels of the new block are those of all walks between any of its pairs. -/
theorem mem_labels_appended {pair : Pair} (hpair : pair ∈ r.pairs) (ls : LabelSequence) :
    ls ∈ block.labels ↔ ls.length ≤ r.layer + 1 ∧ g.Walk pair.source ls.labels pair.target := by
  have hr := mem_runsUpTo_of_next hnext
  obtain ⟨hlayer, hrun⟩ := Partition.mem_runsUpTo.1 hr
  rw [h.mem_labels]
  constructor
  · intro hls
    rcases hls with ⟨s, hhead, hls⟩ | ⟨other, hother, i, hi, draft, hdraft, hls⟩
    · have hs := List.mem_of_head? hhead
      obtain ⟨hlen, hwalk⟩ :=
        (hp.mem_labels_iff hlayer (Partition.mem_layer_of_mem_run hrun hs)).1 hls
      have hle := Nat.le_of_eq hlen
      exact ⟨hle, (hp.walk_iff_of_mem_pairs hcount (Nat.le_refl _) hr (List.mem_map_of_mem hs) hpair
        hle).1 hwalk⟩
    · obtain ⟨t, ht, _⟩ := (hb.holder_iff other i).1 hi
      obtain ⟨draft', hdraft', hdescribes⟩ := hb.exists_block i t ht.place
      rw [hdraft] at hdraft'
      cases hdraft'
      obtain ⟨hlen, hwalk⟩ := (hl i draft hdraft other (hdescribes.pairs_eq ▸ ht.mem_pairs) ls).1 hls
      rw [hdescribes.layer_eq] at hlen
      have hlt := hp.layer_lt_of_next (Nat.le_refl _) hnext (List.mem_of_getElem? ht.place)
        ht.mem_pairs hother
      have hle : ls.length ≤ r.layer + 1 := by omega
      exact ⟨hle, (hp.walk_iff_of_mem_pairs hcount (Nat.le_refl _) hr hother hpair hle).1 hwalk⟩
  · intro hls
    obtain ⟨hlen, hwalk⟩ := hls
    by_cases hlong : ls.length = r.layer + 1
    · obtain ⟨rep, rest, hsegments⟩ := List.exists_cons_of_ne_nil (ne_nil_of_mem_runs hrun)
      have hrep : rep ∈ r.segments := hsegments ▸ List.mem_cons_self ..
      refine .inl ⟨rep, by rw [hsegments]; rfl, ?_⟩
      apply (hp.mem_labels_iff hlayer (Partition.mem_layer_of_mem_run hrun hrep)).2
      exact ⟨hlong, (hp.walk_iff_of_mem_pairs hcount (Nat.le_refl _) hr hpair
        (List.mem_map_of_mem hrep) hlen).1 hwalk⟩
    · obtain ⟨i, hi, other, hother, hls⟩ :=
        exists_holder hp hnext hb hl hpair (by omega) hwalk
      exact .inr ⟨pair, hpair, i, hi, other, hother, hls⟩

end Step

/-- The run: all blocks of a construction have the labels of the walks between any of their pairs. -/
theorem labeled_of_ofPartition (hp : p.Layered g) (hcount : p.runCount ≤ maxSegmentId)
    (h : (ofPartition oc limit p).result = .ok b) : b.Labeled g := by
  refine forall_block_of_ofPartition (fun done r b b' block hnext hb hl happends => ?_) h
  intro pair hpair ls
  rw [happends.describes.pairs_eq] at hpair
  rw [happends.describes.layer_eq]
  exact mem_labels_appended hp hcount hnext hb hl happends hpair ls

end Builder

end PathQueryIndex
