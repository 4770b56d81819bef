/-
Module: PathQueryIndex.Proofs.Index.Completeness
Layer: Proofs
Purpose: Which cores a block is sure to have. Closing leaves out every larger set of cores that has two cores
  whose intersection folds, so a block does not have the codes of all queries that hold for its pairs.
  It has those of the narrow ones: a query of shorter walks than those of a run is inherited, a concatenation
  is joined of cores of two earlier runs, two cores of which one is not inherited are always intersected
  unless one maps into the other, and any number of steps of one length are, because uniform cores do not
  fold. That the longer side of an intersection is tight keeps it from being inherited. Of a run whose id
  does not stand for one key, this is known of the steps of its first segment only.
Imports: PathQueryIndex.Proofs.Index.Soundness, PathQueryIndex.Proofs.Index.EvenCores,
  PathQueryIndex.Proofs.Partition.Exhaustion
Main exports: Builder.coresOf_eq_ok, Builder.exists_parts_of_le, Draft.Complete,
  Builder.complete_of_ofPartition
-/
import PathQueryIndex.Proofs.Index.Soundness
import PathQueryIndex.Proofs.Index.EvenCores
import PathQueryIndex.Proofs.Partition.Exhaustion

namespace PathQueryIndex

open Std

variable {workers : Nat} {timeout limit : Option Nat} {a a' q : Query} {core core' : Core}
  {cores cores' : List Core}

/-! ### The steps of the cores of a draft -/

namespace Builder

variable {c : Canonicalizer} {b : Builder} {draft : Draft} {set : CoreSet} {inherited : Nat}

/-- The cores of a block come in three steps. -/
theorem coresOf_eq_ok (h : b.coresOf c limit draft = .ok set) : ∃ base inherited closed,
    b.baseCores c draft = .ok (base, inherited) ∧ base.close c limit inherited = .ok closed ∧
      if draft.block.isLoop then closed.anchor c inherited = .ok set else set = closed := by
  obtain ⟨⟨base, inherited⟩, hbase, h⟩ := bind_eq_ok.1 h
  obtain ⟨closed, hclosed, h⟩ := bind_eq_ok.1 h
  refine ⟨base, inherited, closed, hbase, hclosed, ?_⟩
  split
  · rename_i hloop
    rw [hloop] at h
    exact h
  · rename_i hloop
    rw [if_neg hloop] at h
    cases h
    rfl

/-- The concatenations that a joined block starts from. -/
def joinedItems (b : Builder) (draft : Draft) : List (Query × Pattern) :=
  (draft.joins.toList.flatMap fun j =>
    (b.drafts.getD j.first default).block.cores.flatMap fun p =>
      (b.drafts.getD j.second default).block.cores.map fun s =>
        Query.concat p.query s.query).map CoreSet.folded

/-- A joined block starts from the inherited cores and goes on with concatenations. -/
theorem baseCores_of_joins (h : b.baseCores c draft = .ok (set, inherited))
    (hjoins : draft.joins.isEmpty = false) : ∃ early : CoreSet, CoreSet.Takes
      (draft.inherited.toList.flatMap fun i => (b.drafts.getD i default).block.cores)
      (CoreSet.empty b.requests) early ∧
      inherited = early.cores.size ∧ early.absorb c (b.joinedItems draft) = .ok set := by
  unfold baseCores at h
  rw [hjoins] at h
  obtain ⟨set', hset, h⟩ := bind_eq_ok.1 h
  cases h
  exact ⟨_, CoreSet.takes_foldl_insert .., rfl, hset⟩

/-- A block that is joined of nothing starts from its paths. -/
theorem baseCores_of_isEmpty (h : b.baseCores c draft = .ok (set, inherited))
    (hjoins : draft.joins.isEmpty = true) : inherited = 0 ∧
      (CoreSet.empty b.requests).absorb c ((draft.block.labels.toList.map Query.path).map fun q =>
        (q, canonicalPattern q true)) = .ok set := by
  unfold baseCores at h
  rw [hjoins] at h
  obtain ⟨set', hset, h⟩ := bind_eq_ok.1 h
  cases h
  exact ⟨rfl, hset⟩

/-- The leading cores are those of the drafts that a block inherits from, also when there are more. -/
theorem exists_inherited_of_lt (h : b.baseCores c draft = .ok (set, inherited))
    (hfront : set.cores.toList <+: cores) {i : Nat} (hi : cores[i]? = some core)
    (hlt : i < inherited) :
    ∃ k ∈ draft.inherited, core ∈ (b.drafts.getD k default).block.cores := by
  cases hjoins : draft.joins.isEmpty with
  | true =>
      rw [(baseCores_of_isEmpty h hjoins).1] at hlt
      exact absurd hlt (Nat.not_lt_zero i)
  | false =>
      obtain ⟨early, hearly, rfl, habsorb⟩ := baseCores_of_joins h hjoins
      obtain ⟨_, htakes⟩ := CoreSet.takes_of_absorb habsorb
      obtain ⟨rest, hrest⟩ := htakes.before.trans hfront
      have hmem : core ∈ early.cores.toList := by
        rw [← hrest, List.getElem?_append_left (by rw [Array.length_toList]; exact hlt)] at hi
        exact List.mem_of_getElem? hi
      rcases hearly.origin core hmem with hnone | hcore
      · cases hnone
      · obtain ⟨k, hk, hcore⟩ := List.mem_flatMap.1 hcore
        exact ⟨k, hk, hcore⟩

/-- A core that is not inherited is a path of a block of the first layer, or a concatenation of cores of joined
    drafts whose code no inherited core has. -/
theorem exists_parts_of_le (h : b.baseCores c draft = .ok (set, inherited)) {i : Nat}
    (hi : set.cores.toList[i]? = some core) (hle : inherited ≤ i) :
    (draft.joins.isEmpty = true ∧ ∃ ls ∈ draft.block.labels, core.query = .path ls) ∨
      ∃ x ∈ draft.joins, ∃ first ∈ (b.drafts.getD x.first default).block.cores,
        ∃ second ∈ (b.drafts.getD x.second default).block.cores,
          core.query = .concat first.query second.query ∧
          ∀ k ∈ draft.inherited, ∀ old ∈ (b.drafts.getD k default).block.cores,
            old.hash ≠ core.hash := by
  cases hjoins : draft.joins.isEmpty with
  | true =>
      left
      obtain ⟨cores, hgives, rfl⟩ := CoreSet.absorb_eq_ok (baseCores_of_isEmpty h hjoins).2
      obtain ⟨hmem, _⟩ := (CoreSet.takes_foldl_insert (CoreSet.empty b.requests) cores).new i core
        (Nat.zero_le i) hi
      obtain ⟨item, hitem, hgive⟩ := exists_of_mem_right hgives hmem
      obtain ⟨q, hq, rfl⟩ := List.mem_map.1 hitem
      obtain ⟨ls, hls, rfl⟩ := List.mem_map.1 hq
      exact ⟨rfl, ls, hls, hgive.query_eq⟩
  | false =>
      right
      obtain ⟨early, hearly, rfl, habsorb⟩ := baseCores_of_joins h hjoins
      obtain ⟨cores, hgives, rfl⟩ := CoreSet.absorb_eq_ok habsorb
      obtain ⟨hmem, hfresh⟩ := (CoreSet.takes_foldl_insert early cores).new i core hle hi
      obtain ⟨item, hitem, hgive⟩ := exists_of_mem_right hgives hmem
      obtain ⟨q, hq, rfl⟩ := List.mem_map.1 hitem
      obtain ⟨x, hx, hq⟩ := List.mem_flatMap.1 hq
      obtain ⟨first, hfirst, hq⟩ := List.mem_flatMap.1 hq
      obtain ⟨second, hsecond, rfl⟩ := List.mem_map.1 hq
      refine ⟨x, hx, first, hfirst, second, hsecond, hgive.query_eq, fun k hk old hold heq => ?_⟩
      exact hfresh (heq ▸ hearly.found old (List.mem_flatMap.2 ⟨k, hk, hold⟩))

end Builder

/-! ### Complete drafts -/

/-- The draft of a run has the steps that hold for the first segment. If the id of the run stands for one key, it
    has every narrow query that holds for a pair of the run, the cores of loops are anchored, and all cores are
    settled. -/
structure Draft.Complete (limit : Option Nat) (g : Graph) (p : Partition) (r : LayerRun) (draft : Draft) :
    Prop where
  steps : ∀ s, r.segments.head? = some s → ∀ q : Query, q.Narrow limit → q.IsStep →
    q.diameter ≤ r.layer + 1 → q.Holds g s.pair.source s.pair.target → HasCore draft.block.cores q
  narrow : p.Sharp r.id → ∀ pair ∈ r.pairs, ∀ q : Query, q.Narrow limit → q.diameter ≤ r.layer + 1 →
    q.Holds g pair.source pair.target → HasCore draft.block.cores q
  anchored : p.Sharp r.id → draft.block.isLoop = true → ∀ core ∈ draft.block.cores,
    HasCore draft.block.cores (.intersect core.query .identity)
  settled : p.Sharp r.id → ∀ core ∈ draft.block.cores, core.query.Settled limit

namespace Builder

variable {g : Graph} {p : Partition} {r t : LayerRun} {b b' : Builder} {draft : Draft}
  {base set : CoreSet} {inherited i k m n : Nat} {s : Segment}

/-- The first drafts are complete. -/
def Complete (limit : Option Nat) (g : Graph) (p : Partition) (m : Nat) (b : Builder) : Prop :=
  ∀ j < m, ∀ draft r, b.drafts[j]? = some draft → (p.runsUpTo p.depth)[j]? = some r →
    draft.Complete limit g p r

section Cores

variable (hp : p.Layered g) (hr : (p.runsUpTo p.depth)[m]? = some r) (hlinked : Linked p m r draft)
  (hsound : b.Sound (.ofWorkers workers timeout) g p)
  (hbase : b.baseCores (.ofWorkers workers timeout) draft = .ok (base, inherited))

include hp hr hlinked hsound hbase

theorem proper_base : base.Proper (.ofWorkers workers timeout) :=
  have hbase := baseCores_true hp hr hlinked hsound hbase
  ⟨hbase.2, fun core hcore => (hbase.1 core hcore).coded⟩

/-- A block has what the drafts have that it inherits from. -/
theorem hasCore_of_inherited (hk : k ∈ draft.inherited)
    (h : HasCore (b.drafts.getD k default).block.cores q) : HasCore base.cores.toList q := by
  obtain ⟨core, hcore, hagrees⟩ := h
  obtain ⟨_, _, _, _, hlt, _⟩ := hlinked.of_mem_inherited hp hr hk
  have hjoins : draft.joins.isEmpty = false := by
    apply Bool.eq_false_iff.2
    intro hempty
    rw [hlinked.layer_eq_zero hp hr hempty] at hlt
    exact absurd hlt (Nat.not_lt_zero _)
  obtain ⟨early, hearly, _, habsorb⟩ := baseCores_of_joins hbase hjoins
  obtain ⟨_, htakes⟩ := CoreSet.takes_of_absorb habsorb
  have hfound := htakes.kept _ (hearly.found core (List.mem_flatMap.2 ⟨k, hk, hcore⟩))
  exact ((proper_base hp hr hlinked hsound hbase).hasCore
    (true_of_inherited hp hr hlinked hsound hk hcore).coded hfound).congr hagrees

/-- A leading core asks for no longer walks than those of earlier layers. -/
theorem diameter_le_of_lt (hi : base.cores.toList[i]? = some core) (hlt : i < inherited) :
    core.query.diameter ≤ r.layer := by
  obtain ⟨k, hk, hcore⟩ := exists_inherited_of_lt hbase List.prefix_rfl hi hlt
  obtain ⟨_, t, _, ht, hlayer, _⟩ := hlinked.of_mem_inherited hp hr hk
  exact Nat.le_trans (hsound.true ht hcore).query.diameter_le hlayer

variable (hcomplete : b.Complete limit g p m) (hsize : m < b.drafts.size)

include hcomplete hsize

omit hlinked hsound hbase in
/-- The drafts of earlier layers are complete, and the ids of their runs stand for one key each. -/
theorem complete_of_lt (ht : (p.runsUpTo p.depth)[k]? = some t) (hlt : t.layer < r.layer) :
    (b.drafts.getD k default).Complete limit g p t ∧ p.Sharp t.id := by
  have hlayer := (Partition.mem_runsUpTo.1 (List.mem_of_getElem? hr)).1
  have hk := Partition.lt_of_layer_lt ht hr hlt
  have hget := Array.getElem?_eq_getElem (Nat.lt_trans hk hsize)
  rw [Array.getD_eq_getD_getElem?, hget]
  exact ⟨hcomplete k hk _ t hget ht, hp.sharp_of_mem_runsUpTo (List.mem_of_getElem? ht) hlt hlayer⟩

omit hsound hbase in
/-- A query of shorter walks that holds for a pair of the run is a core of the newest run before that has the
    pair. -/
theorem exists_inherited_of_shorter (hq : q.Narrow limit) (hlen : q.diameter ≤ r.layer) {pair : Pair}
    (hpair : pair ∈ r.pairs) (h : q.Holds g pair.source pair.target) :
    ∃ k ∈ draft.inherited, HasCore (b.drafts.getD k default).block.cores q := by
  have hlayer := (Partition.mem_runsUpTo.1 (List.mem_of_getElem? hr)).1
  obtain ⟨n, hn⟩ := Nat.exists_eq_add_of_le' hq.one_le_diameter
  have hjoined := Query.joined_of_holds h
  rw [hn] at hjoined
  obtain ⟨t', ht', ht'layer, ht'pair⟩ := hp.exists_run_of_joined (by omega) hjoined
  have hnext := Partition.take_concat_prefix hr
  have ht'mem := Partition.mem_of_layer_lt hnext ht' (by omega)
  obtain ⟨k, t, ht⟩ := LayerRun.exists_newest ht'mem ht'pair
  have hsorted := (Partition.pairwise_layer_runsUpTo p p.depth).sublist
    (List.take_sublist m (p.runsUpTo p.depth))
  have hle := ht.layer_le hsorted ht'mem ht'pair
  have hlt := hp.layer_lt_of_next (Nat.le_refl _) hnext (List.mem_of_getElem? ht.place) ht.mem_pairs hpair
  obtain ⟨hearlier, hsharp⟩ := complete_of_lt hp hr hcomplete hsize ht.getElem?_of_take hlt
  exact ⟨k, (hlinked.inherited k).2 ⟨pair, hpair, t, ht⟩,
    hearlier.narrow hsharp pair ht.mem_pairs q hq (by omega) h⟩

theorem hasCore_of_shorter (hq : q.Narrow limit) (hlen : q.diameter ≤ r.layer) {pair : Pair}
    (hpair : pair ∈ r.pairs) (h : q.Holds g pair.source pair.target) :
    HasCore base.cores.toList q := by
  obtain ⟨k, hk, hcore⟩ := exists_inherited_of_shorter hp hr hlinked hcomplete hsize hq hlen hpair h
  exact hasCore_of_inherited hp hr hlinked hsound hbase hk hcore

omit hr hlinked hsound hbase in
/-- The draft of an earlier segment has every narrow query that is as long as the walks of the layer of the
    segment and holds for a segment with the same id. -/
theorem hasCore_of_ownedBy {ref : SegmentRef} (howned : p.OwnedBy ref k) {x y : Segment}
    (hx : (p.layer ref.layer)[ref.index]? = some x) (hlt : ref.layer < r.layer)
    (hr : (p.runsUpTo p.depth)[m]? = some r) (hy : y ∈ p.layer ref.layer) (hid : y.id = x.id)
    (hq : q.Narrow limit) (hlen : q.diameter ≤ ref.layer + 1)
    (h : q.Holds g y.pair.source y.pair.target) :
    HasCore (b.drafts.getD k default).block.cores q := by
  have hlayer := (Partition.mem_runsUpTo.1 (List.mem_of_getElem? hr)).1
  obtain ⟨t, ht, htlayer, hpair⟩ := howned.exists_run hp hx (Nat.lt_trans hlt hlayer) hy hid
  obtain ⟨hearlier, hsharp⟩ := complete_of_lt hp hr hcomplete hsize ht (htlayer ▸ hlt)
  exact hearlier.narrow hsharp y.pair hpair q hq (htlayer ▸ hlen) h

variable (hhead : r.segments.head? = some s)

include hhead

omit hcomplete hsize in
/-- A label of the first segment of a run of the first layer is one of the paths that the block starts
    from. -/
theorem hasCore_of_label {l : Label} (hzero : r.layer = 0)
    (h : g.Step l s.pair.source s.pair.target) : HasCore base.cores.toList (.label l) := by
  have hrun := (Partition.mem_runsUpTo.1 (List.mem_of_getElem? hr)).2
  have hs := Partition.mem_layer_of_mem_run hrun (List.mem_of_head? hhead)
  rw [hzero] at hs
  have hlabel : LabelSequence.single l ∈ draft.block.labels :=
    (hlinked.labels hzero _).2 ⟨s, hhead, (hp.mem_labels_zero_iff hs).2
      ⟨rfl, Graph.walk_singleton.2 h⟩⟩
  obtain ⟨_, habsorb⟩ := baseCores_of_isEmpty hbase (hlinked.joins_isEmpty hp hr hzero)
  exact (proper_base hp hr hlinked hsound hbase).hasCore_of_absorb habsorb (fun _ => id)
    (List.mem_map_of_mem (List.mem_map_of_mem hlabel)) (Pattern.standsFor_label l)

/-- A concatenation that holds for the first segment of a run and is as long as the walks of its layer is
    joined of cores of the runs of its two parts. -/
theorem hasCore_of_concat (ha : a.Narrow limit) (ha' : a'.Narrow limit)
    (hlen : a.diameter + a'.diameter = r.layer + 1) {w : Vertex}
    (hfirst : a.Holds g s.pair.source w) (hsecond : a'.Holds g w s.pair.target) :
    HasCore base.cores.toList (.concat a a') := by
  obtain ⟨hlayer, hrun⟩ := Partition.mem_runsUpTo.1 (List.mem_of_getElem? hr)
  have hs := Partition.mem_layer_of_mem_run hrun (List.mem_of_head? hhead)
  obtain ⟨d, hd⟩ := Nat.exists_eq_add_of_le' ha.one_le_diameter
  obtain ⟨d', hd'⟩ := Nat.exists_eq_add_of_le' ha'.one_le_diameter
  have hn : r.layer = d + d' + 1 := by omega
  -- the two parts of the walk are segments of earlier layers, with the ids of a split
  have hjoined := Query.joined_of_holds hfirst
  have hjoined' := Query.joined_of_holds hsecond
  rw [hd] at hjoined
  rw [hd'] at hjoined'
  obtain ⟨x, hx, hxpair⟩ := (hp.exists_segment_iff (by omega)).2 hjoined
  obtain ⟨y, hy, hypair⟩ := (hp.exists_segment_iff (by omega)).2 hjoined'
  have hs' := hn ▸ hs
  have hlayer' := hn ▸ hlayer
  have hids : (x.id, y.id) ∈ s.splits.toList.map Split.ids :=
    (hp.mem_split_ids_iff hlayer' hs').2
      ⟨d, d', rfl, x, hx, y, hy, by rw [hxpair, hypair], by rw [hxpair, hypair], rfl⟩
  obtain ⟨sp, hsp, hspids⟩ := List.mem_map.1 hids
  obtain ⟨x₁, y₁, hx₁, hy₁, hsum, _, _, hids₁⟩ := hp.exists_of_mem_splits hlayer' hs' hsp
  rw [hspids] at hids₁
  injection hids₁ with hidx hidy
  have hfirstlayer := hp.eq_layer_of_id_eq (by omega) (by omega) hx (Array.mem_of_getElem? hx₁) hidx
  have hsecondlayer := hp.eq_layer_of_id_eq (by omega) (by omega) hy (Array.mem_of_getElem? hy₁) hidy
  -- the block is joined of the drafts of the split
  obtain ⟨i, hi⟩ := Partition.exists_ownedBy (by omega) hx₁
  obtain ⟨j, hj⟩ := Partition.exists_ownedBy (by omega) hy₁
  have hjoin : ⟨i, j⟩ ∈ draft.joins := (hlinked.joins _).2 ⟨s, hhead, sp, hsp, hi, hj⟩
  obtain ⟨core, hcore, hagrees⟩ := hasCore_of_ownedBy hp hcomplete hsize hi hx₁ (by omega) hr
    (hfirstlayer ▸ hx) hidx ha (by omega) (by rw [hxpair]; exact hfirst)
  obtain ⟨core', hcore', hagrees'⟩ := hasCore_of_ownedBy hp hcomplete hsize hj hy₁ (by omega) hr
    (hsecondlayer ▸ hy) hidy ha' (by omega) (by rw [hypair]; exact hsecond)
  have hjoins : draft.joins.isEmpty = false := by
    apply Bool.eq_false_iff.2
    intro hempty
    have hzero := hlinked.layer_eq_zero hp hr hempty
    omega
  obtain ⟨early, _, _, habsorb⟩ := baseCores_of_joins hbase hjoins
  have hitem : CoreSet.folded (.concat core.query core'.query) ∈ b.joinedItems draft :=
    List.mem_map_of_mem (List.mem_flatMap.2 ⟨_, hjoin, List.mem_flatMap.2 ⟨core, hcore,
      List.mem_map.2 ⟨core', hcore', rfl⟩⟩⟩)
  exact ((proper_base hp hr hlinked hsound hbase).hasCore_of_absorb habsorb (fun _ => id) hitem
    (Pattern.standsFor_canonicalPattern _)).congr (hagrees.concat hagrees')

/-- A step that holds for the first segment of a run is among the cores that the block starts from. -/
theorem hasCore_of_isStep (hq : q.Narrow limit) (hstep : q.IsStep) (hlen : q.diameter ≤ r.layer + 1)
    (h : q.Holds g s.pair.source s.pair.target) : HasCore base.cores.toList q := by
  have hpair : s.pair ∈ r.pairs := List.mem_map_of_mem (List.mem_of_head? hhead)
  rcases Nat.lt_or_ge r.layer q.diameter with hlong | hshort
  · have hlen : q.diameter = r.layer + 1 := by omega
    cases q with
    | identity => cases hstep
    | label l =>
        exact hasCore_of_label hp hr hlinked hsound hbase hhead (Nat.succ.inj hlen).symm h
    | concat first second =>
        obtain ⟨hfirst, hsecond⟩ := hq.of_concat
        obtain ⟨w, hw, hw'⟩ := h
        exact hasCore_of_concat hp hr hlinked hsound hbase hcomplete hsize hhead hfirst hsecond hlen hw hw'
    | intersect left right => cases hstep
  · exact hasCore_of_shorter hp hr hlinked hsound hbase hcomplete hsize hq hshort hpair h

omit hhead in
/-- A uniform core that is not inherited is as long as the walks of the run: a shorter one holds for the pairs of
    the run, so it is inherited and its code is not new. Its parts are settled, so it does not fold. -/
theorem even_of_uniform (hsharp : p.Sharp r.id) (hi : i < base.cores.size) (hle : inherited ≤ i)
    (huniform : (base.queryAt i).Uniform) : base.Even limit inherited (r.layer + 1) i := by
  obtain ⟨core, hcore⟩ : ∃ core, base.cores.toList[i]? = some core :=
    ⟨_, List.getElem?_eq_getElem (by rwa [Array.length_toList])⟩
  have hquery := CoreSet.queryAt_of_getElem? hcore
  have htrue := (baseCores_true hp hr hlinked hsound hbase).1 core (List.mem_of_getElem? hcore)
  rw [hquery] at huniform
  suffices h : core.query.IsStep ∧ core.query.diameter = r.layer + 1 ∧ core.query.Within limit ∧
      (Pattern.ofQuery core.query).Rigid by
    obtain ⟨hstep, hlen, hwithin, hrigid⟩ := h
    rw [← hquery] at huniform hstep hlen hwithin hrigid
    exact ⟨hle, hi, huniform, hstep, hlen, hwithin, hrigid⟩
  obtain ⟨hlayer, hrun⟩ := Partition.mem_runsUpTo.1 (List.mem_of_getElem? hr)
  rcases exists_parts_of_le hbase hcore hle with
    ⟨hjoins, ls, hls, heq⟩ | ⟨x, hx, first, hfirst, second, hsecond, heq, hnew⟩
  · have hzero := hlinked.layer_eq_zero hp hr hjoins
    obtain ⟨s, hhead, hmem⟩ := (hlinked.labels hzero ls).1 hls
    obtain ⟨_, l, hl⟩ := Query.TrueOf.path_of_mem_labels hp (List.mem_of_getElem? hr) hzero
      (List.mem_of_head? hhead) hmem
    have hlabel : (Query.label l).Uniform := trivial
    rw [heq, hl, hzero]
    exact ⟨trivial, rfl, trivial, (Pattern.rigid_ofQuery_iff hlabel).2 (Query.steady_label l)⟩
  · rw [heq] at huniform
    obtain ⟨t, t', ht, ht', hlt, hlt'⟩ := hlinked.of_mem_joins hp hr hx
    obtain ⟨hearlier, hsharp₁⟩ := complete_of_lt hp hr hcomplete hsize ht hlt
    obtain ⟨hearlier', hsharp₂⟩ := complete_of_lt hp hr hcomplete hsize ht' hlt'
    obtain ⟨hwithin, hrigid⟩ := hearlier.settled hsharp₁ first hfirst huniform.1
    obtain ⟨hwithin', hrigid'⟩ := hearlier'.settled hsharp₂ second hsecond huniform.2
    have hconcat : core.query.Within limit := heq ▸ ⟨hwithin, hwithin'⟩
    refine ⟨heq ▸ trivial, ?_, hconcat, heq ▸ Pattern.rigid_concat huniform hrigid hrigid'⟩
    apply Nat.le_antisymm htrue.query.diameter_le
    apply Nat.le_of_not_lt
    intro hshort
    have hdeep := hp.depth_le
    have hsmall : core.query.diameter + 1 < UInt32.size := by
      have hmax : maxSegmentId < UInt32.size := by decide
      omega
    obtain ⟨pair, hpair⟩ := List.exists_mem_of_ne_nil _ (fun h => ne_nil_of_mem_runs hrun (List.map_eq_nil_iff.1 h) :
      r.pairs ≠ [])
    obtain ⟨k, hk, old, hold, hagrees⟩ := exists_inherited_of_shorter hp hr hlinked hcomplete hsize
      (.uniform (heq ▸ huniform) hconcat hsmall) (Nat.le_of_lt_succ hshort) hpair
      (htrue.query.holds hsharp pair hpair)
    exact hnew k hk old hold (((true_of_inherited hp hr hlinked hsound hk hold).coded.hash_eq_iff
      htrue.coded).2 hagrees)

omit hhead in
/-- The cores that a block starts from are settled. -/
theorem settled_of_baseCores (hsharp : p.Sharp r.id) : ∀ core ∈ base.cores.toList,
    core.query.Settled limit := by
  intro core hcore
  obtain ⟨i, hi⟩ := List.mem_iff_getElem?.1 hcore
  rcases Nat.lt_or_ge i inherited with hlt | hle
  · obtain ⟨k, hk, hkcore⟩ := exists_inherited_of_lt hbase List.prefix_rfl hi hlt
    obtain ⟨_, t, _, ht, hlayer, _⟩ := hlinked.of_mem_inherited hp hr hk
    obtain ⟨hearlier, hsharp'⟩ := complete_of_lt hp hr hcomplete hsize ht hlayer
    exact hearlier.settled hsharp' core hkcore
  · intro huniform
    rw [← CoreSet.queryAt_of_getElem? hi] at huniform ⊢
    have heven := even_of_uniform hp hr hlinked hsound hbase hcomplete hsize hsharp
      (CoreSet.lt_size_of_getElem? hi) hle huniform
    exact ⟨heven.within, heven.rigid⟩

/-- A branch that holds for the first segment and is as long as the walks of the run is there as a core that is
    not inherited and does not fold. -/
theorem exists_even (hsharp : p.Sharp r.id) (hq : q.Uniform) (hstep : q.IsStep) (hwithin : q.Within limit)
    (hsmall : q.diameter + 1 < UInt32.size) (hlen : q.diameter = r.layer + 1)
    (h : q.Holds g s.pair.source s.pair.target) :
    ∃ i, base.Even limit inherited (r.layer + 1) i ∧ (base.queryAt i).Agrees q := by
  obtain ⟨core, hcore, hagrees⟩ := hasCore_of_isStep hp hr hlinked hsound hbase hcomplete hsize hhead
    (.uniform hq hwithin hsmall) hstep (Nat.le_of_eq hlen) h
  have htrue := ((baseCores_true hp hr hlinked hsound hbase).1 core hcore).query
  obtain ⟨huniform, hsame⟩ := htrue.takesSteps.uniform_of_agrees hq hsmall h hagrees
    (hlen ▸ htrue.diameter_le)
  obtain ⟨i, hi⟩ := List.mem_iff_getElem?.1 hcore
  rw [← CoreSet.queryAt_of_getElem? hi] at huniform hagrees
  have hle : inherited ≤ i := by
    apply Nat.le_of_not_lt
    intro hlt
    have hshort := diameter_le_of_lt hp hr hlinked hsound hbase hi hlt
    omega
  exact ⟨i, even_of_uniform hp hr hlinked hsound hbase hcomplete hsize hsharp
    (CoreSet.lt_size_of_getElem? hi) hle huniform, hagrees⟩

end Cores

/-! ### All cores of a draft -/

/-- A block is one of loops if and only if the identity holds for its pairs. -/
theorem isLoop_iff_holds (hp : p.Layered g) (hr : r ∈ p.runsUpTo p.depth)
    (hpairs : draft.block.pairs = r.pairs) (hsharp : p.Sharp r.id) {pair : Pair}
    (hpair : pair ∈ r.pairs) :
    draft.block.isLoop = true ↔ Query.identity.Holds g pair.source pair.target := by
  obtain ⟨first, rest, hfirst⟩ := List.exists_cons_of_ne_nil (List.ne_nil_of_mem hpair)
  have hmem : first ∈ r.pairs := hfirst ▸ List.mem_cons_self
  have hloop : draft.block.isLoop = first.isLoop := by
    rw [Block.isLoop, hpairs, hfirst]
    rfl
  rw [hloop, hp.holds_iff_of_sharp hsharp (Nat.le_refl _) hr hpair hmem (Nat.zero_le _),
    hp.holds_identity_iff hr hmem]

section Final

variable (hp : p.Layered g) (hr : (p.runsUpTo p.depth)[m]? = some r) (hlinked : b.AllLinked p)
  (hdraft : b.drafts[m]? = some draft) (hsound : b.Sound (.ofWorkers workers timeout) g p)
  (hlimit : ∀ n, limit = some n → 2 ≤ n) (hcomplete : b.Complete limit g p m)
  (hset : b.coresOf (.ofWorkers workers timeout) limit draft = .ok set)

include hp hr hlinked hdraft hsound hset

/-- The three steps of the cores of a draft, each set being proper and kept by the next step. -/
theorem proper_of_coresOf : ∃ base inherited closed,
    b.baseCores (.ofWorkers workers timeout) draft = .ok (base, inherited) ∧
    base.close (.ofWorkers workers timeout) limit inherited = .ok closed ∧
    (if draft.block.isLoop then closed.anchor (.ofWorkers workers timeout) inherited = .ok set
      else set = closed) ∧
    closed.Proper (.ofWorkers workers timeout) ∧ base.cores.toList <+: closed.cores.toList ∧
    closed.cores.toList ⊆ set.cores.toList := by
  obtain ⟨base, inherited, closed, hbase, hclosed, hlast⟩ := coresOf_eq_ok hset
  have hproper := proper_base hp hr (hlinked m draft r hdraft hr) hsound hbase
  obtain ⟨_, htakes⟩ := CoreSet.takes_of_close hclosed
  refine ⟨base, inherited, closed, hbase, hclosed, hlast, CoreSet.proper_of_close hclosed hproper,
    htakes.before, ?_⟩
  split at hlast
  · obtain ⟨_, htakes'⟩ := CoreSet.takes_of_absorb hlast
    exact htakes'.before.subset
  · rw [hlast]
    exact List.Subset.refl _

include hcomplete

/-- The steps that hold for the first segment of a run are among its cores. -/
theorem steps_of_coresOf (hhead : r.segments.head? = some s) (hq : q.Narrow limit) (hstep : q.IsStep)
    (hlen : q.diameter ≤ r.layer + 1) (h : q.Holds g s.pair.source s.pair.target) :
    HasCore set.cores.toList q := by
  obtain ⟨base, inherited, closed, hbase, _, _, _, hfront, hsub⟩ :=
    proper_of_coresOf hp hr hlinked hdraft hsound hset
  have hsize : m < b.drafts.size := (Array.getElem?_eq_some_iff.1 hdraft).1
  exact (hasCore_of_isStep hp hr (hlinked m draft r hdraft hr) hsound hbase hcomplete hsize hhead hq hstep
    hlen h).of_subset (List.Subset.trans hfront.subset hsub)

/-- The cores of a block of loops are anchored: those that are inherited were so before. -/
theorem anchored_of_coresOf (hsharp : p.Sharp r.id) (hloop : draft.block.isLoop = true) :
    ∀ core ∈ set.cores.toList, HasCore set.cores.toList (.intersect core.query .identity) := by
  obtain ⟨base, inherited, closed, hbase, hclosed, hlast, hproper, hfront, hsub⟩ :=
    proper_of_coresOf hp hr hlinked hdraft hsound hset
  rw [if_pos hloop] at hlast
  have hlink := hlinked m draft r hdraft hr
  have hrmem := List.mem_of_getElem? hr
  have hsize : m < b.drafts.size := (Array.getElem?_eq_some_iff.1 hdraft).1
  have hclosedcores : ∀ core ∈ closed.cores.toList,
      HasCore set.cores.toList (.intersect core.query .identity) := by
    intro core hcore
    obtain ⟨i, hi⟩ := List.mem_iff_getElem?.1 hcore
    rcases Nat.lt_or_ge i inherited with hlt | hge
    · obtain ⟨k, hk, hkcore⟩ := exists_inherited_of_lt hbase hfront hi hlt
      obtain ⟨hkm, t, pair, ht, htlayer, hpair, hpair'⟩ := hlink.of_mem_inherited hp hr hk
      obtain ⟨hearlier, hsharp'⟩ := complete_of_lt hp hr hcomplete hsize ht htlayer
      have hget := Array.getElem?_eq_getElem (Nat.lt_trans hkm hsize)
      have hgetD : b.drafts.getD k default = b.drafts[k] := by
        rw [Array.getD_eq_getD_getElem?, hget]
        rfl
      have hkloop : (b.drafts.getD k default).block.isLoop = true := by
        rw [hgetD]
        exact (isLoop_iff_holds hp (List.mem_of_getElem? ht) (hlinked k _ t hget ht).pairs_eq hsharp'
          hpair').2 ((isLoop_iff_holds hp hrmem hlink.pairs_eq hsharp hpair).1 hloop)
      exact (hasCore_of_inherited hp hr hlink hsound hbase hk
        (hearlier.anchored hsharp' hkloop core hkcore)).of_subset
          (List.Subset.trans hfront.subset hsub)
    · exact CoreSet.hasCore_of_anchor hlast hproper hi hge
  obtain ⟨cores, hgives, hset⟩ := CoreSet.absorb_eq_ok hlast
  have htakes := CoreSet.takes_foldl_insert closed cores
  intro core hcore
  rw [hset] at hcore
  rcases htakes.origin core hcore with hcore' | hcore'
  · exact hclosedcores core hcore'
  · obtain ⟨item, hitem, hgive⟩ := exists_of_mem_right hgives hcore'
    obtain ⟨anchored, _, rfl⟩ := List.mem_map.1 hitem
    have himp : ∀ g u v, core.query.Holds g u v → Query.identity.Holds g u v := by
      rw [hgive.query_eq]
      exact fun _ _ _ h => h.2
    exact (HasCore.of_mem (hset ▸ hcore)).congr (Query.Agrees.intersect_of_imp himp).symm

include hlimit

/-- All cores of a draft are settled: what the identity is beside is not uniform. -/
theorem settled_of_coresOf (hsharp : p.Sharp r.id) : ∀ core ∈ set.cores.toList,
    core.query.Settled limit := by
  obtain ⟨base, inherited, closed, hbase, hclosed, hlast⟩ := coresOf_eq_ok hset
  have hlink := hlinked m draft r hdraft hr
  have hsize : m < b.drafts.size := (Array.getElem?_eq_some_iff.1 hdraft).1
  have hsettled := CoreSet.settled_of_close (d := r.layer + 1) hlimit hclosed ?_ ?_
    (settled_of_baseCores hp hr hlink hsound hbase hcomplete hsize hsharp)
  · split at hlast
    · refine CoreSet.all_of_absorb hlast hsettled fun item hitem core hgive => ?_
      obtain ⟨anchored, _, rfl⟩ := List.mem_map.1 hitem
      rw [hgive.query_eq]
      exact fun huniform => huniform.2.1.elim
    · exact hlast ▸ hsettled
  · intro i hlt hi
    have hget : base.cores.toList[i]? = some base.cores[i] := by
      rw [Array.getElem?_toList, Array.getElem?_eq_getElem hi]
    rw [CoreSet.queryAt_of_getElem? hget]
    exact Nat.lt_succ_of_le (diameter_le_of_lt hp hr hlink hsound hbase hget hlt)
  · intro i hle hi
    exact even_of_uniform hp hr hlink hsound hbase hcomplete hsize hsharp hi hle

/-- Every narrow query that holds for the first segment of a run has a core. By induction on the query: its
    steps are there before closing, the longer of two is not inherited, those of one length do not fold, and
    anchoring comes last. -/
theorem hasCore_of_narrow (hsharp : p.Sharp r.id) (hhead : r.segments.head? = some s)
    (hq : q.Narrow limit) (hlen : q.diameter ≤ r.layer + 1)
    (h : q.Holds g s.pair.source s.pair.target) : HasCore set.cores.toList q := by
  obtain ⟨base, inherited, closed, hbase, hclosed, hlast, hproper, hfront, hsub⟩ :=
    proper_of_coresOf hp hr hlinked hdraft hsound hset
  have hlink := hlinked m draft r hdraft hr
  have hrmem := List.mem_of_getElem? hr
  have hsize : m < b.drafts.size := (Array.getElem?_eq_some_iff.1 hdraft).1
  have hpair : s.pair ∈ r.pairs := List.mem_map_of_mem (List.mem_of_head? hhead)
  have hproperbase := proper_base hp hr hlink hsound hbase
  have hshorter : ∀ q : Query, q.Narrow limit → q.diameter ≤ r.layer →
      q.Holds g s.pair.source s.pair.target → HasCore set.cores.toList q := fun q hq hshort h =>
    (hasCore_of_shorter hp hr hlink hsound hbase hcomplete hsize hq hshort hpair h).of_subset
      (List.Subset.trans hfront.subset hsub)
  have hstep : ∀ q : Query, q.Narrow limit → q.IsStep → q.diameter ≤ r.layer + 1 →
      q.Holds g s.pair.source s.pair.target → ∃ i < base.cores.size, (base.queryAt i).Agrees q ∧
        (r.layer < q.diameter → q.Tight → inherited ≤ i) := by
    intro q hq hstep hlen h
    obtain ⟨core, hcore, hagrees⟩ := hasCore_of_isStep hp hr hlink hsound hbase hcomplete hsize hhead hq
      hstep hlen h
    obtain ⟨i, hi⟩ := List.mem_iff_getElem?.1 hcore
    refine ⟨i, CoreSet.lt_size_of_getElem? hi, CoreSet.queryAt_of_getElem? hi ▸ hagrees,
      fun hlong htight => Nat.le_of_not_lt fun hlt => ?_⟩
    have hinherited := diameter_le_of_lt hp hr hlink hsound hbase hi hlt
    have hlonger := htight _ hagrees
    omega
  induction hq with
  | label l => exact steps_of_coresOf hp hr hlinked hdraft hsound hcomplete hset hhead (.label l) trivial hlen h
  | concat hfirst hsecond _ _ =>
      exact steps_of_coresOf hp hr hlinked hdraft hsound hcomplete hset hhead (.concat hfirst hsecond)
        trivial hlen h
  | swap _ ih =>
      rw [Query.diameter, Nat.max_comm] at hlen
      exact (ih hlen h.symm).congr (Query.Agrees.intersect_comm _ _)
  | anchor _ ih =>
      have hloop := (isLoop_iff_holds hp hrmem hlink.pairs_eq hsharp hpair).2 h.2
      obtain ⟨core, hcore, hagrees⟩ := ih (Nat.le_trans (Nat.le_max_left ..) hlen) h.1
      exact (anchored_of_coresOf hp hr hlinked hdraft hsound hcomplete hset hsharp hloop core
        hcore).congr (hagrees.intersect (.refl _))
  | @join left right hleft hright hls hrs hle htight _ _ =>
      have hmax : (Query.intersect left right).diameter = left.diameter := Nat.max_eq_left hle
      rw [hmax] at hlen
      rcases Nat.lt_or_ge r.layer left.diameter with hlong | hshort
      · obtain ⟨i, hi, hagrees, hnew⟩ := hstep left hleft hls hlen h.1
        obtain ⟨j, hj, hagrees', _⟩ := hstep right hright hrs (Nat.le_trans hle hlen) h.2
        exact ((CoreSet.hasCore_of_close hproperbase hclosed hlimit hi hj (hnew hlong htight)).congr
          (hagrees.intersect hagrees')).of_subset hsub
      · exact hshorter _ (.join hleft hright hls hrs hle htight) (hmax ▸ hshort) h
  | @uniform q huniform hwithin hsmall =>
      rcases Nat.lt_or_ge r.layer q.diameter with hlong | hshort
      · have hall : q.diameter = r.layer + 1 := by omega
        refine (CoreSet.hasCore_of_uniform (d := r.layer + 1) hproperbase hclosed hlimit hwithin
          fun a ha => ?_).of_subset hsub
        obtain ⟨hau, has, halen⟩ := huniform.of_mem_branches ha
        exact exists_even hp hr hlink hsound hbase hcomplete hsize hhead hsharp hau has
          (hwithin.of_mem_branches ha) (halen ▸ hsmall) (halen.trans hall)
          (Query.holds_iff_branches.1 h a ha)
      · exact hshorter _ (.uniform huniform hwithin hsmall) hshort h

/-- A draft with its cores is complete. -/
theorem complete_of_coresOf : (draft.withCores set).Complete limit g p r where
  steps := fun _ hhead _ => steps_of_coresOf hp hr hlinked hdraft hsound hcomplete hset hhead
  narrow := by
    intro hsharp pair hpair q hq hlen h
    have hrmem := List.mem_of_getElem? hr
    obtain ⟨s, rest, hsegments⟩ := List.exists_cons_of_ne_nil
      (ne_nil_of_mem_runs (Partition.mem_runsUpTo.1 hrmem).2)
    have hhead : r.segments.head? = some s := by
      rw [hsegments]
      rfl
    have hmem : s.pair ∈ r.pairs := List.mem_map_of_mem (List.mem_of_head? hhead)
    exact hasCore_of_narrow hp hr hlinked hdraft hsound hlimit hcomplete hset hsharp hhead hq hlen
      ((hp.holds_iff_of_sharp hsharp (Nat.le_refl _) hrmem hpair hmem hlen).1 h)
  anchored := fun hsharp hloop =>
    anchored_of_coresOf hp hr hlinked hdraft hsound hcomplete hset hsharp hloop
  settled := fun hsharp => settled_of_coresOf hp hr hlinked hdraft hsound hlimit hcomplete hset hsharp

end Final

/-- The step: one more draft is complete. -/
theorem Complete.addCores (hp : p.Layered g) (hlinked : b.AllLinked p)
    (hsound : b.Sound (.ofWorkers workers timeout) g p) (hlimit : ∀ n, limit = some n → 2 ≤ n)
    (hcomplete : b.Complete limit g p m)
    (h : b.addCores (.ofWorkers workers timeout) limit m = .ok b') : b'.Complete limit g p (m + 1) := by
  intro j hj draft r hdraft hr
  obtain ⟨before, hbefore, ⟨hne, rfl⟩ | ⟨rfl, set, hset, rfl⟩⟩ := exists_draft_of_addCores h hdraft
  · exact hcomplete j (Nat.lt_of_le_of_ne (Nat.le_of_lt_succ hj) hne) _ r hbefore hr
  · exact complete_of_coresOf hp hr hlinked hbefore hsound hlimit hcomplete hset

/-- The step: a new draft is not counted yet. -/
theorem Complete.addBlock {layer : Nat} {last : Bool} {run : List Segment}
    (hcomplete : b.Complete limit g p m) (hm : m ≤ b.drafts.size)
    (h : addBlock layer last b run = .ok b') : b'.Complete limit g p m := by
  obtain ⟨_, _, _, _, _, _, hdrafts, _⟩ := addBlock_eq_ok h
  intro j hj draft r hdraft hr
  rw [hdrafts, Array.getElem?_push, if_neg (Nat.ne_of_lt (Nat.lt_of_lt_of_le hj hm))] at hdraft
  exact hcomplete j hj draft r hdraft hr

/-- The run: all drafts of a construction are complete. -/
theorem complete_of_ofPartition (hp : p.Layered g) (hlimit : ∀ n, limit = some n → 2 ≤ n)
    (h : (ofPartition (some (.ofWorkers workers timeout)) limit p).result = .ok b) :
    b.Complete limit g p b.drafts.size := by
  have hall := ofPartition_stages (motive := fun n done m b => b.Stage p n done ∧
    b.Sound (.ofWorkers workers timeout) g p ∧ b.Complete limit g p m ∧ m ≤ b.drafts.size)
    ?_ ?_ ?_ ?_ ?_ h
  · rw [hall.1.built.size_eq]
    exact hall.2.2.1
  · intro n done m b hb
    exact hb.1.built.size_eq
  · refine ⟨.empty p, ?_, ?_, Nat.le_refl 0⟩
    · intro j _ _ hj _
      cases hj
    · intro j hj
      exact absurd hj (Nat.not_lt_zero j)
  · intro done r m b b' hnext hstep hb
    obtain ⟨hstage, hsound, hcomplete, hm⟩ := hb
    have hstage' := hstage.addBlock hp hnext hstep
    refine ⟨hstage', hsound.addBlock hstep, hcomplete.addBlock hm hstep, ?_⟩
    rw [hstage.built.size_eq] at hm
    rw [hstage'.built.size_eq, List.length_append]
    exact Nat.le_add_right_of_le hm
  · intro n m b hn hb
    exact ⟨hb.1.push hn, hb.2⟩
  · intro n m r b b' hn hr hstep hb
    obtain ⟨hstage, hsound, hcomplete, _⟩ := hb
    have hstage' := hstage.addCores hstep
    refine ⟨hstage', hsound.addCores hp hstage.linked hstep,
      hcomplete.addCores hp hstage.linked hsound hlimit hstep, ?_⟩
    rw [hstage'.built.size_eq]
    exact (List.getElem?_eq_some_iff.1 hr).1

end Builder

end PathQueryIndex
