/-
Module: PathQueryIndex.Proofs.Index.Capacity
Layer: Proofs
Purpose: Indexes that cores are no obstacle to. A core of the first layer is an intersection of labels, and one of
  a later layer an intersection of concatenations of two earlier ones; so if intersections are limited, the
  cores of a layer cannot ask for more points and edges than the layer allows. If that is within the limits of
  canonical forms, and so are the labels of the graph, every pattern has a form, and the index is built whenever
  the partition is.
Imports: PathQueryIndex.Proofs.Index.Completeness, PathQueryIndex.Proofs.Index.Resolution
Main exports: baseNodes, Query.Small, Builder.Small, Builder.exists_ofPartition_of_small,
  Index.exists_build_of_small
-/
import PathQueryIndex.Proofs.Index.Completeness
import PathQueryIndex.Proofs.Index.Resolution

namespace PathQueryIndex

open Std

/-! ### How many nodes the cores of a layer ask for -/

/-- How many points and edges a core of a layer asks for at the most before closing, if up to `width` cores are
    intersected. -/
def baseNodes (width : Nat) : Nat → Nat
  | 0 => 1
  | i + 1 => 2 * (width * baseNodes width i) + 1

section Nodes

variable {width i j : Nat}

theorem width_mul_baseNodes_le (hij : i < j) (hwidth : 1 ≤ width) :
    width * baseNodes width i ≤ baseNodes width j := by
  induction j with
  | zero => exact absurd hij (Nat.not_lt_zero i)
  | succ j ih =>
      rw [baseNodes]
      rcases Nat.lt_or_eq_of_le (Nat.le_of_lt_succ hij) with hlt | rfl
      · have hle := ih hlt
        have hmul : baseNodes width j ≤ width * baseNodes width j := Nat.le_mul_of_pos_left _ hwidth
        omega
      · omega

theorem width_mul_baseNodes_le_of_le (hij : i ≤ j) (hwidth : 1 ≤ width) :
    width * baseNodes width i ≤ width * baseNodes width j := by
  rcases Nat.lt_or_eq_of_le hij with hlt | rfl
  · exact Nat.le_trans (width_mul_baseNodes_le hlt hwidth) (Nat.le_mul_of_pos_left _ hwidth)
  · exact Nat.le_refl _

end Nodes

/-- The query asks for few points and edges, and for labels below a bound. -/
structure Query.Small (count : UInt32) (n : Nat) (q : Query) : Prop where
  nodes_le : q.nodes ≤ n
  below : q.Below count

namespace Query.Small

variable {count : UInt32} {m n : Nat} {a q : Query} {qs : List Query} {workers number : Nat}
  {timeout : Option Nat}

theorem mono (h : q.Small count m) (hle : m ≤ n) : q.Small count n := ⟨Nat.le_trans h.nodes_le hle, h.below⟩

theorem concat (ha : a.Small count n) (hq : q.Small count n) : (Query.concat a q).Small count (2 * n + 1) where
  nodes_le := by
    have hfirst := ha.nodes_le
    have hsecond := hq.nodes_le
    rw [nodes]
    omega
  below := ⟨ha.below, hq.below⟩

theorem intersectAll (h : Query.intersectAll? qs = some q) (hqs : ∀ a ∈ qs, a.Small count n) :
    q.Small count (qs.length * n) where
  nodes_le := Query.nodes_intersectAll_le h fun a ha => (hqs a ha).nodes_le
  below := Query.of_intersectAll (fun _ _ hleft hright => ⟨hleft, hright⟩) h fun a ha => (hqs a ha).below

theorem anchor (h : q.Small count n) : (Query.intersect q .identity).Small count n := ⟨h.nodes_le, h.below, trivial⟩

section Limits

variable (h : q.Small count n) (hcount : count.toNat ≤ maxCanonicalLabel) (hn : 2 + n ≤ maxCanonicalNodes)

include h hcount hn

theorem withinLimits : (Pattern.ofQuery q).WithinLimits :=
  Pattern.withinLimits_ofQuery (Nat.le_trans (Nat.add_le_add_left h.nodes_le 2) hn) h.below hcount

theorem withinLimits_core : (Pattern.ofQuery q).core.WithinLimits :=
  (h.withinLimits hcount hn).core (Pattern.wellFormed_ofQuery q)

/-- A small query has a form, whether its pattern is folded first or not. -/
theorem exists_resolve (isCore : Bool) : ∃ form,
    (Canonicalizer.ofWorkers workers timeout).resolve number (.ofPattern (canonicalPattern q isCore)) =
      .ok form := by
  have hwell := Pattern.wellFormed_ofQuery q
  cases isCore with
  | true => exact (Canonicalizer.exists_resolve_iff hwell).2 (h.withinLimits hcount hn)
  | false =>
      have hlimits := h.withinLimits_core hcount hn
      exact (Canonicalizer.exists_resolve_iff (Pattern.wellFormed_core hwell)).2 hlimits

end Limits

end Query.Small

/-! ### Small cores -/

namespace Builder

variable {g : Graph} {p : Partition} {r : LayerRun} {b b' : Builder} {draft : Draft} {base set : CoreSet}
  {workers width inherited m n : Nat} {timeout : Option Nat} {done : List LayerRun} {core : Core}

/-- The cores of all drafts are as small as their layers allow. -/
def Small (g : Graph) (p : Partition) (width : Nat) (b : Builder) : Prop :=
  ∀ (j : Nat) (draft : Draft) (r : LayerRun), b.drafts[j]? = some draft →
    (p.runsUpTo p.depth)[j]? = some r →
      ∀ core ∈ draft.block.cores, core.query.Small g.labelCount (width * baseNodes width r.layer)

section Cores

variable (hp : p.Layered g) (hr : (p.runsUpTo p.depth)[m]? = some r) (hlinked : Linked p m r draft)
  (hwidth : 2 ≤ width) (hsmall : b.Small g p width)

include hp hr hlinked

/-- A path that a block of the first layer starts from is a label of the graph. -/
theorem small_of_path (hjoins : draft.joins.isEmpty = true) {ls : LabelSequence}
    (hls : ls ∈ draft.block.labels) : (Query.path ls).Small g.labelCount 1 := by
  have hzero := hlinked.layer_eq_zero hp hr hjoins
  obtain ⟨s, hhead, hmem⟩ := (hlinked.labels hzero ls).1 hls
  have hs := Partition.mem_layer_of_mem_run (Partition.mem_runsUpTo.1 (List.mem_of_getElem? hr)).2
    (List.mem_of_head? hhead)
  rw [hzero] at hs
  obtain ⟨_, hwalk⟩ := (hp.mem_labels_zero_iff hs).1 hmem
  obtain ⟨_, l, hl⟩ := Query.TrueOf.path_of_mem_labels hp (List.mem_of_getElem? hr) hzero
    (List.mem_of_head? hhead) hmem
  refine ⟨?_, Query.below_of_holds (Query.holds_path.2 hwalk)⟩
  rw [hl]
  exact Nat.le_refl 1

include hwidth hsmall

omit hp hr hlinked in
/-- A core of an earlier draft is small enough for a part of a new one. -/
theorem small_of_earlier {k : Nat} {t : LayerRun} (ht : (p.runsUpTo p.depth)[k]? = some t)
    (hlt : t.layer < r.layer) (hcore : core ∈ (b.drafts.getD k default).block.cores) :
    core.query.Small g.labelCount (width * baseNodes width (r.layer - 1)) := by
  rw [Array.getD_eq_getD_getElem?] at hcore
  cases hget : b.drafts[k]? with
  | none =>
      rw [hget] at hcore
      cases hcore
  | some other =>
      rw [hget] at hcore
      exact (hsmall k other t hget ht core hcore).mono
        (width_mul_baseNodes_le_of_le (Nat.le_sub_one_of_lt hlt) (Nat.le_of_succ_le hwidth))

theorem small_of_joined {x : BlockJoin} {first second : Core} (hx : x ∈ draft.joins)
    (hfirst : first ∈ (b.drafts.getD x.first default).block.cores)
    (hsecond : second ∈ (b.drafts.getD x.second default).block.cores) :
    (Query.concat first.query second.query).Small g.labelCount (baseNodes width r.layer) := by
  obtain ⟨t, t', ht, ht', hlt, hlt'⟩ := hlinked.of_mem_joins hp hr hx
  obtain ⟨i, hi⟩ := Nat.exists_eq_succ_of_ne_zero (Nat.ne_of_gt (Nat.zero_lt_of_lt hlt))
  have hconcat := (small_of_earlier hwidth hsmall ht hlt hfirst).concat
    (small_of_earlier hwidth hsmall ht' hlt' hsecond)
  rw [hi] at hconcat ⊢
  exact hconcat

/-- The cores that a block starts from are small. -/
theorem small_of_baseCores (h : b.baseCores (.ofWorkers workers timeout) draft = .ok (base, inherited)) :
    ∀ core ∈ base.cores.toList, core.query.Small g.labelCount (baseNodes width r.layer) := by
  intro core hcore
  obtain ⟨i, hi⟩ := List.mem_iff_getElem?.1 hcore
  rcases Nat.lt_or_ge i inherited with hlt | hle
  · obtain ⟨k, hk, hkcore⟩ := exists_inherited_of_lt h List.prefix_rfl hi hlt
    obtain ⟨_, t, _, ht, hlayer, _⟩ := hlinked.of_mem_inherited hp hr hk
    have hpos := Nat.zero_lt_of_lt hlayer
    exact (small_of_earlier hwidth hsmall ht hlayer hkcore).mono
      (width_mul_baseNodes_le (Nat.sub_one_lt_of_lt hpos) (Nat.le_of_succ_le hwidth))
  · rcases exists_parts_of_le h hi hle with
      ⟨hjoins, ls, hls, heq⟩ | ⟨x, hx, first, hfirst, second, hsecond, heq, _⟩
    · rw [heq, hlinked.layer_eq_zero hp hr hjoins]
      exact small_of_path hp hr hlinked hjoins hls
    · rw [heq]
      exact small_of_joined hp hr hlinked hwidth hsmall hx hfirst hsecond

variable (hlabels : g.labelCount.toNat ≤ maxCanonicalLabel)
  (hnodes : 2 + width * baseNodes width r.layer ≤ maxCanonicalNodes)

include hlabels hnodes

theorem exists_baseCores : ∃ x, b.baseCores (.ofWorkers workers timeout) draft = .ok x := by
  have hfew : 2 + baseNodes width r.layer ≤ maxCanonicalNodes :=
    Nat.le_trans (Nat.add_le_add_left (Nat.le_mul_of_pos_left _ (Nat.le_of_succ_le hwidth)) 2) hnodes
  cases hjoins : draft.joins.isEmpty with
  | true =>
      obtain ⟨set, hset⟩ : ∃ set, (CoreSet.empty b.requests).absorb (.ofWorkers workers timeout)
          ((draft.block.labels.toList.map Query.path).map fun q => (q, canonicalPattern q true)) =
            .ok set := by
        refine CoreSet.exists_absorb _ fun item hitem i => ?_
        obtain ⟨q, hq, rfl⟩ := List.mem_map.1 hitem
        obtain ⟨ls, hls, rfl⟩ := List.mem_map.1 hq
        exact (small_of_path hp hr hlinked hjoins hls).exists_resolve hlabels (by decide) true
      refine ⟨(set, 0), ?_⟩
      unfold baseCores
      rw [hjoins]
      exact bind_eq_ok.2 ⟨set, hset, rfl⟩
  | false =>
      let early := (draft.inherited.toList.flatMap fun i => (b.drafts.getD i default).block.cores).foldl
        CoreSet.insert (CoreSet.empty b.requests)
      obtain ⟨set, hset⟩ : ∃ set, early.absorb (.ofWorkers workers timeout) (b.joinedItems draft) =
          .ok set := by
        refine CoreSet.exists_absorb _ fun item hitem i => ?_
        obtain ⟨q, hq, rfl⟩ := List.mem_map.1 hitem
        obtain ⟨x, hx, hq⟩ := List.mem_flatMap.1 hq
        obtain ⟨first, hfirst, hq⟩ := List.mem_flatMap.1 hq
        obtain ⟨second, hsecond, rfl⟩ := List.mem_map.1 hq
        exact (small_of_joined hp hr hlinked hwidth hsmall hx hfirst hsecond).exists_resolve hlabels hfew
          false
      refine ⟨(set, early.cores.size), ?_⟩
      unfold baseCores
      rw [hjoins]
      exact bind_eq_ok.2 ⟨set, hset, rfl⟩

/-- A block gets its cores, and they are small. -/
theorem exists_coresOf : ∃ set, b.coresOf (.ofWorkers workers timeout) (some width) draft = .ok set ∧
    ∀ core ∈ set.cores.toList, core.query.Small g.labelCount (width * baseNodes width r.layer) := by
  obtain ⟨⟨base, inherited⟩, hbase⟩ : ∃ x, b.baseCores (.ofWorkers workers timeout) draft = .ok x :=
    exists_baseCores hp hr hlinked hwidth hsmall hlabels hnodes
  have hbasesmall := small_of_baseCores hp hr hlinked hwidth hsmall hbase
  have hlimit : ∀ n, some width = some n → 2 ≤ n := fun n hn => Option.some.inj hn ▸ hwidth
  have hselected : ∀ members q, base.Selection inherited (some width) members →
      Query.intersectAll? (members.map base.queryAt) = some q →
      q.Small g.labelCount (width * baseNodes width r.layer) := by
    intro members q h hq
    have hmembers : ∀ a ∈ members.map base.queryAt, a.Small g.labelCount (baseNodes width r.layer) := by
      rw [List.forall_mem_map]
      intro i hi
      obtain ⟨core, hcore, heq⟩ := CoreSet.queryAt_eq (h.lt_size i hi)
      exact heq ▸ hbasesmall core hcore
    refine (Query.Small.intersectAll hq hmembers).mono (Nat.mul_le_mul_right _ ?_)
    rw [List.length_map]
    exact h.length_le width rfl
  obtain ⟨closed, hclosed⟩ :
      ∃ closed, base.close (.ofWorkers workers timeout) (some width) inherited = .ok closed :=
    CoreSet.exists_close hlimit fun members q h _ hq =>
      (hselected members q h hq).withinLimits_core hlabels hnodes
  have hclosedsmall : ∀ core ∈ closed.cores.toList,
      core.query.Small g.labelCount (width * baseNodes width r.layer) := by
    intro core hcore
    rcases CoreSet.combines_of_close hlimit hclosed hcore with hold | ⟨members, h, _, hq, _⟩
    · exact (hbasesmall core hold).mono (Nat.le_mul_of_pos_left _ (Nat.le_of_succ_le hwidth))
    · exact hselected members core.query h hq
  by_cases hloop : draft.block.isLoop = true
  · have hitems : ∀ item ∈ (closed.cores.toList.drop inherited).map fun core =>
        CoreSet.folded (Query.intersect core.query .identity),
        item = CoreSet.folded item.1 ∧ item.1.Small g.labelCount (width * baseNodes width r.layer) := by
      rw [List.forall_mem_map]
      exact fun core hcore => ⟨rfl, (hclosedsmall core (List.mem_of_mem_drop hcore)).anchor⟩
    obtain ⟨set, hset⟩ : ∃ set, closed.anchor (.ofWorkers workers timeout) inherited = .ok set :=
      CoreSet.exists_absorb closed fun item hitem i => by
        obtain ⟨heq, hitem⟩ := hitems item hitem
        rw [heq]
        exact hitem.exists_resolve hlabels hnodes false
    refine ⟨set, bind_eq_ok.2 ⟨_, hbase, bind_eq_ok.2 ⟨closed, hclosed, ?_⟩⟩, ?_⟩
    · rw [hloop]
      exact hset
    · exact CoreSet.all_of_absorb hset hclosedsmall fun item hitem core hgives =>
        hgives.query_eq ▸ (hitems item hitem).2
  · refine ⟨closed, bind_eq_ok.2 ⟨_, hbase, bind_eq_ok.2 ⟨closed, hclosed, ?_⟩⟩, hclosedsmall⟩
    rw [if_neg hloop]
    rfl

end Cores

/-! ### The construction -/

theorem Small.addBlock {layer : Nat} {last : Bool} {run : List Segment} (hsmall : b.Small g p width)
    (h : addBlock layer last b run = .ok b') : b'.Small g p width := by
  obtain ⟨_, _, _, _, _, _, hdrafts, _, _, _, _, hcores, _⟩ := addBlock_eq_ok h
  intro j draft r hdraft hr
  rw [hdrafts, Array.getElem?_push] at hdraft
  split at hdraft
  · cases hdraft
    rw [hcores]
    exact fun _ hcore => nomatch hcore
  · exact hsmall j draft r hdraft hr

section Run

variable (hp : p.Layered g) (hwidth : 2 ≤ width) (hlabels : g.labelCount.toNat ≤ maxCanonicalLabel)
  (hnodes : 2 + width * baseNodes width (p.depth - 1) ≤ maxCanonicalNodes)

include hp hwidth hlabels hnodes

/-- The step: the draft of a run gets its cores. -/
theorem exists_addCores (hb : b.Stage p n (p.runsUpTo n)) (hsmall : b.Small g p width) (hn : n ≤ p.depth)
    (hm : m < (p.runsUpTo n).length) : ∃ b', b.addCores (.ofWorkers workers timeout) (some width) m = .ok b' ∧
      b'.Stage p n (p.runsUpTo n) ∧ b'.Small g p width := by
  have hsize : m < b.drafts.size := hb.built.size_eq ▸ hm
  have hget := Array.getElem?_eq_getElem hsize
  have hgetD : b.drafts.getD m default = b.drafts[m] := by
    rw [Array.getD_eq_getD_getElem?, hget]
    rfl
  have hr := Partition.getElem?_runsUpTo_of_le hn (List.getElem?_eq_getElem hm)
  have hlayer := (Partition.mem_runsUpTo.1 (List.mem_of_getElem? hr)).1
  have hfit := Nat.le_trans (Nat.add_le_add_left
    (width_mul_baseNodes_le_of_le (Nat.le_sub_one_of_lt hlayer) (Nat.le_of_succ_le hwidth)) 2) hnodes
  obtain ⟨set, hset, hnew⟩ : ∃ set, b.coresOf (.ofWorkers workers timeout) (some width) b.drafts[m] =
      .ok set ∧ _ := exists_coresOf hp hr (hb.linked m _ _ hget hr) hwidth hsmall hlabels hfit
  rw [← hgetD] at hset
  have hstep : b.addCores (.ofWorkers workers timeout) (some width) m = .ok _ :=
    bind_eq_ok.2 ⟨set, hset, rfl⟩
  refine ⟨_, hstep, hb.addCores hstep, fun j draft t hdraft ht => ?_⟩
  obtain ⟨before, hbefore, ⟨_, rfl⟩ | ⟨rfl, set', hset', rfl⟩⟩ := exists_draft_of_addCores hstep hdraft
  · exact hsmall j _ t hbefore ht
  · rw [hr] at ht
    cases ht
    rw [hget] at hbefore
    cases hbefore
    rw [hgetD, hset'] at hset
    cases hset
    exact hnew

/-- The step: a layer gets its blocks, and they get their cores one after the other. -/
theorem exists_addLayer_of_small (hb : b.Stage p n (p.runsUpTo n)) (hsmall : b.Small g p width)
    (hn : n < p.depth) :
    ∃ b', (addLayer (some (.ofWorkers workers timeout)) (some width) p b n).result = .ok b' ∧
      b'.Stage p (n + 1) (p.runsUpTo (n + 1)) ∧ b'.Small g p width := by
  obtain ⟨d, hblocks, hd⟩ := hb.exists_addBlocks hp hn
  have hdsmall : d.Small g p width :=
    foldlM_induction (motive := fun _ b => b.Small g p width)
      (fun _ _ _ _ _ hstep hsmall => hsmall.addBlock hstep) hblocks hsmall
  let e : Builder := { d with owners := d.owners.push (layerOwners p n) }
  have he : e.Stage p (n + 1) (p.runsUpTo (n + 1)) := hd.push hn
  have hesmall : e.Small g p width := hdsmall
  -- the cores of the drafts behind those of the layers before
  let first := (p.runsUpTo n).length
  obtain ⟨b', hfold, hb', hsmall'⟩ := exists_foldlM_range (n := e.drafts.size - first)
    (f := fun b' k => (do
      let b' ← Traced.lift (b'.addCores (.ofWorkers workers timeout) (some width) (first + k))
      Traced.emit (.coresDone (k + 1) (e.drafts.size - first))
      return b' : Traced Builder).result)
    (motive := fun _ b' => b'.Stage p (n + 1) (p.runsUpTo (n + 1)) ∧ b'.Small g p width)
    (fun k b' hk hb' => by
      rw [he.built.size_eq] at hk
      obtain ⟨b'', hstep, hkept⟩ :
          ∃ b'', b'.addCores (.ofWorkers workers timeout) (some width) (first + k) = .ok b'' ∧ _ :=
        exists_addCores hp hwidth hlabels hnodes hb'.1 hb'.2 hn (by omega)
      exact ⟨b'', Traced.bind_eq_ok.2 ⟨b'', hstep, rfl⟩, hkept⟩) ⟨he, hesmall⟩
  refine ⟨b', ?_, hb', hsmall'⟩
  simp only [addLayer, addLayerCores, Traced.bind_eq_ok, Traced.result_emit, Traced.result_lift,
    Traced.result_foldlM]
  rw [hb.built.size_eq]
  exact ⟨(), trivial, d, hblocks, (), trivial, (), trivial, b', hfold, (), trivial, rfl⟩

/-- The run: all layers are built. -/
theorem exists_ofPartition_of_small :
    ∃ b, (ofPartition (some (.ofWorkers workers timeout)) (some width) p).result = .ok b := by
  rw [ofPartition, Traced.result_foldlM]
  have hlayers := exists_foldlM_range
    (f := fun b n => (addLayer (some (.ofWorkers workers timeout)) (some width) p b n).result)
    (motive := fun n b => b.Stage p n (p.runsUpTo n) ∧ b.Small g p width) (n := p.depth) (b := empty) ?_
    ⟨Stage.empty p, ?_⟩
  · obtain ⟨b, hb, _⟩ := hlayers
    exact ⟨b, hb⟩
  · exact fun n b hn hb => exists_addLayer_of_small hp hwidth hlabels hnodes hb.1 hb.2 hn
  · intro j draft r hj
    cases hj

end Run

end Builder

namespace Index

variable {g : Graph} {o : Options} {p : Partition} {width : Nat}

/-- An index with cores is built of every graph whose labels are within the limits of canonical forms, if
    intersections are limited such that the cores are within them. -/
theorem exists_build_of_small (hvalid : o.validate = .ok ()) (hcores : o.cores = true)
    (hlimit : o.maxIntersections = some width) (hlabels : g.labelCount.toNat ≤ maxCanonicalLabel)
    (hnodes : 2 + width * baseNodes width (o.depth - 1) ≤ maxCanonicalNodes)
    (hpart : (Partition.build g o.depth).result = .ok p) : ∃ index, (build g o).result = .ok index := by
  obtain ⟨hp, hdepth⟩ := Partition.layered_of_build hpart
  have hwidth := (Options.validate_eq_ok_iff.1 hvalid).2.2 width hlimit
  obtain ⟨b, hb⟩ : ∃ b, (Builder.ofPartition (some (canonicalizer o)) (some width) p).result = .ok b :=
    Builder.exists_ofPartition_of_small hp hwidth hlabels (hdepth.symm ▸ hnodes)
  rw [← hlimit] at hb
  exact ⟨_, build_of_construction hvalid hpart (Nat.ne_of_gt hp.depth_pos) hcores hb⟩

end Index

end PathQueryIndex
