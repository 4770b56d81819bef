/-
Module: PathQueryIndex.Proofs.Index.Ancestors
Layer: Proofs
Purpose: The draft that holds a pair and the segment that a partition records for it are about one run. A
  partition finds the latest earlier segment of a pair in its history, and a builder finds the draft that
  holds the pair among those that took it over last. Both follow the layers, and the runs of one layer have
  no pair in common, so a run takes its pairs over from the draft of the run of its ancestor, which is one
  run for all of them, or from none.
Imports: PathQueryIndex.Proofs.Index.Resolution
Main exports: Partition.Layered.newest_runsUpTo_iff, Builder.BuiltFrom, Builder.Stage.addBlocks,
  Builder.getElem?_holder_next_iff, Builder.inherited_eq_singleton, Builder.open_blocks_mirror_ancestors
-/
import PathQueryIndex.Proofs.Index.Resolution

namespace PathQueryIndex

open Std

/-! ### The newest run and the latest segment -/

namespace LayerRun

variable {done rest : List LayerRun} {pair : Pair} {j : Nat} {t : LayerRun}

/-- Runs without the pair change nothing. -/
theorem newest_append_of_forall_not_mem (h : ∀ r ∈ rest, pair ∉ r.pairs) :
    Newest (done ++ rest) pair j t ↔ Newest done pair j t := by
  induction rest using List.reverseRecOn with
  | nil => rw [List.append_nil]
  | append_singleton rest r ih =>
      rw [← List.append_assoc,
        newest_concat_of_not_mem (h r (List.mem_append_right _ (List.mem_singleton_self r))),
        ih fun u hu => h u (List.mem_append_left _ hu)]

end LayerRun

namespace Partition

variable {g : Graph} {p : Partition} {i j n m : Nat} {s t : Segment} {ref : SegmentRef} {r : LayerRun}
  {pair : Pair} {run : List Segment}

/-- Run `r` is the one of layer `ref.layer` with segment `s`, which is the latest segment of the pair
    before layer `n`. -/
structure LatestRun (p : Partition) (n : Nat) (pair : Pair) (ref : SegmentRef) (s : Segment)
    (r : LayerRun) : Prop where
  latest : p.Latest n pair ref s
  layer_eq : r.layer = ref.layer
  mem : s ∈ r.segments

theorem LatestRun.mem_pairs (h : p.LatestRun n pair ref s r) : pair ∈ r.pairs :=
  List.mem_map.2 ⟨s, h.mem, h.latest.pair_eq⟩

/-- The latest segment of a pair stands in a run. -/
theorem Latest.exists_run (hn : n ≤ p.depth) (h : p.Latest n pair ref s) :
    ∃ (r : LayerRun) (j : Nat),
      (p.runsUpTo p.depth)[j]? = some r ∧ p.LatestRun n pair ref s r := by
  obtain ⟨r, hr, hlayer, hmem⟩ :=
    exists_mem_runsUpTo (Nat.lt_of_lt_of_le h.before hn) (Array.mem_of_getElem? h.segment)
  obtain ⟨j, hj⟩ := List.mem_iff_getElem?.1 hr
  exact ⟨r, j, hj, h, hlayer, hmem⟩

/-- A run of the first layers with the pair is not later than the latest segment of the pair. -/
theorem Latest.layer_le (h : p.Latest n pair ref s) (hr : r ∈ p.runsUpTo n) (hpair : pair ∈ r.pairs) :
    r.layer ≤ ref.layer := by
  obtain ⟨t, ht, _, hteq⟩ := exists_mem_segments hr hpair
  apply Nat.le_of_not_lt
  intro hlt
  exact h.gap r.layer hlt (mem_runsUpTo.1 hr).1 t ht hteq

namespace Layered

variable (hp : p.Layered g)

include hp

/-- The newest run with a pair is the run of the latest segment of the pair. -/
theorem newest_runsUpTo_iff (hn : n ≤ p.depth) : LayerRun.Newest (p.runsUpTo n) pair j r ↔
    (p.runsUpTo p.depth)[j]? = some r ∧ ∃ ref s, p.LatestRun n pair ref s r := by
  constructor
  · intro h
    have hr := List.mem_of_getElem? h.place
    obtain ⟨s, hs, hmem, hpair⟩ := exists_mem_segments hr h.mem_pairs
    obtain ⟨a, ha⟩ := Array.mem_iff_getElem?.1 hs
    have hlatest : p.Latest n pair ⟨r.layer, a⟩ s := by
      refine ⟨(mem_runsUpTo.1 hr).1, ha, hpair, fun m hm hmn t ht hteq => ?_⟩
      obtain ⟨u, hu, hlayer, htmem⟩ := exists_mem_runsUpTo hmn ht
      have hle := h.layer_le (pairwise_layer_runsUpTo p n) hu (List.mem_map.2 ⟨t, htmem, hteq⟩)
      rw [hlayer] at hle
      exact absurd hm (Nat.not_lt.2 hle)
    exact ⟨getElem?_runsUpTo_of_le hn h.place, _, s, hlatest, rfl, hmem⟩
  · rintro ⟨hplace, ref, s, h⟩
    have hmem : r ∈ p.runsUpTo n := by
      rw [mem_runsUpTo, h.layer_eq]
      exact ⟨h.latest.before, h.layer_eq ▸ (mem_runsUpTo.1 (List.mem_of_getElem? hplace)).2⟩
    obtain ⟨k, u, hu⟩ := LayerRun.exists_newest hmem h.mem_pairs
    -- the newest run is of the same layer, so it is the same run
    have humem := List.mem_of_getElem? hu.place
    have hle := hu.layer_le (pairwise_layer_runsUpTo p n) hmem h.mem_pairs
    have hge := h.latest.layer_le humem hu.mem_pairs
    have hlayer : r.layer = u.layer := Nat.le_antisymm hle (h.layer_eq ▸ hge)
    have huplace := getElem?_runsUpTo_of_le hn hu.place
    have hid := hp.id_eq_of_pair_mem hn hmem humem hlayer h.mem_pairs hu.mem_pairs
    obtain rfl := hp.place_eq_of_id_eq (Nat.le_refl _) hplace huplace hid
    rw [hplace] at huplace
    cases huplace
    exact hu

/-- The segments of a run have one ancestor id or none. -/
theorem ancestorId_eq_of_mem_run (hcount : p.runCount ≤ maxSegmentId) (hi : i < p.depth)
    (hrun : run ∈ p.runsOf i) (hs : s ∈ run) (ht : t ∈ run) : s.ancestorId = t.ancestorId := by
  have hs' := mem_layer_of_mem_run hrun hs
  have ht' := mem_layer_of_mem_run hrun ht
  cases i with
  | zero =>
      rw [(hp.ancestor_eq hi hs').2, (hp.ancestor_eq hi ht').2]
      rfl
  | succ i =>
      exact (records_eq_of_id_eq (hp.sharp_of_runCount_le hcount _) hi hs' ht'
        (id_eq_of_mem_run hrun hs ht)).2

/-- Latest segments with one id stand in one run. -/
theorem place_eq_of_latestRun {pair' : Pair} {ref' : SegmentRef} {s' : Segment} {r' : LayerRun}
    (hr : (p.runsUpTo p.depth)[i]? = some r) (hr' : (p.runsUpTo p.depth)[j]? = some r')
    (h : p.LatestRun n pair ref s r) (h' : p.LatestRun n pair' ref' s' r') (hid : s.id = s'.id) :
    i = j := by
  apply hp.place_eq_of_id_eq (Nat.le_refl _) hr hr'
  rw [← id_eq_of_mem_segments (List.mem_of_getElem? hr) h.mem, hid,
    id_eq_of_mem_segments (List.mem_of_getElem? hr') h'.mem]

end Layered

end Partition

/-! ### The drafts that hold the pairs -/

namespace Builder

variable {g : Graph} {p : Partition} {b b₀ b' : Builder} {done : List LayerRun} {r : LayerRun}
  {i j n : Nat} {oc : Option Canonicalizer} {limit : Option Nat} {pair : Pair}
  {pre : List (List Segment)} {run : List Segment}

/-- Draft `j` is the block of run `r`, which is number `j` of all runs. -/
structure BuiltFrom (p : Partition) (b : Builder) (r : LayerRun) (j : Nat) : Prop where
  place : (p.runsUpTo p.depth)[j]? = some r
  exists_block : ∃ block, b.blockAt j = some block ∧ r.Describes block

theorem Built.builtFrom (hb : b.Built p done) (hr : (p.runsUpTo p.depth)[j]? = some r)
    (hdone : done[j]? = some r) : b.BuiltFrom p r j :=
  ⟨hr, hb.exists_block j r hdone⟩

/-- The step through a part of a layer: the runs that come first in it. -/
theorem Stage.addBlocks (hp : p.Layered g) (hn : n < p.depth) (hpre : pre <+: p.runsOf n)
    (hb : b₀.Stage p n (p.runsUpTo n))
    (h : pre.foldlM (Builder.addBlock n (n + 1 == p.depth)) b₀ = .ok b) :
    b.Stage p n (p.runsUpTo n ++ pre.map fun run => ⟨n, run⟩) := by
  refine foldlM_induction
    (motive := fun runs b => Stage p n (p.runsUpTo n ++ runs.map fun run => ⟨n, run⟩) b) ?_ h
    (by rw [List.map_nil, List.append_nil]; exact hb)
  intro runs run b b' hruns hstep hb
  have hnext := Partition.next_of_prefix_runsOf hn (hruns.trans hpre)
  rw [List.map_append, ← List.append_assoc]
  exact Stage.addBlock (r := ⟨n, run⟩) hp hnext hb hstep

/-- Before a run becomes a block, each of its pairs is held by the draft of the run of the latest segment
    of the pair: the runs before it in its layer have other pairs. -/
theorem getElem?_holder_next_iff (hp : p.Layered g) (hn : n < p.depth) (hpre : pre ++ [run] <+: p.runsOf n)
    (hb : b.Stage p n (p.runsUpTo n ++ pre.map fun run => ⟨n, run⟩))
    (hpair : pair ∈ (⟨n, run⟩ : LayerRun).pairs) :
    b.holder[pair]? = some j ↔ ∃ ref s r, p.LatestRun n pair ref s r ∧ b.BuiltFrom p r j := by
  have hnext := Partition.next_of_prefix_runsOf hn hpre
  have hother : ∀ r ∈ pre.map (fun run => (⟨n, run⟩ : LayerRun)), pair ∉ r.pairs := by
    intro r hr hmem
    have hlt := hp.layer_lt_of_next (Nat.le_refl _) hnext (List.mem_append_right _ hr) hmem hpair
    obtain ⟨_, _, rfl⟩ := List.mem_map.1 hr
    exact absurd hlt (Nat.lt_irrefl n)
  rw [holder_iff_newest hp hnext hb.built hpair]
  simp only [LayerRun.newest_append_of_forall_not_mem hother]
  constructor
  · rintro ⟨r, hr⟩
    obtain ⟨hplace, ref, s, hlatest⟩ := (hp.newest_runsUpTo_iff (Nat.le_of_lt hn)).1 hr
    have hlt := (List.getElem?_eq_some_iff.1 hr.place).1
    exact ⟨ref, s, r, hlatest, hb.built.builtFrom hplace
      ((List.getElem?_append_left hlt).trans hr.place)⟩
  · rintro ⟨ref, s, r, hlatest, hbuilt⟩
    exact ⟨r, (hp.newest_runsUpTo_iff (Nat.le_of_lt hn)).2 ⟨hbuilt.place, ref, s, hlatest⟩⟩

section Inherited

variable (hp : p.Layered g) (hcount : p.runCount ≤ maxSegmentId) (hn : n < p.depth)
  (hpre : pre ++ [run] <+: p.runsOf n)
  (hb : b.Stage p n (p.runsUpTo n ++ pre.map fun run => ⟨n, run⟩))

include hp hcount hn hpre hb

/-- Whatever draft a run takes a pair over from, it is the draft of a run of the ancestor. -/
theorem exists_latestRun_of_mem_inherited {s : Segment} (hs : s ∈ run)
    (hj : j ∈ OrderedSet.ofList ((run.map Segment.pair).filterMap fun pair => b.holder[pair]?)) :
    ∃ pair ref t r, p.LatestRun n pair ref t r ∧ b.BuiltFrom p r j ∧ s.ancestorId = some t.id := by
  have hrun : run ∈ p.runsOf n :=
    hpre.subset (List.mem_append_right _ (List.mem_singleton_self run))
  obtain ⟨pair, hpair, hholder⟩ := mem_inherited.1 (OrderedSet.mem_iff.1 hj)
  obtain ⟨ref, t, r, hlatest, hbuilt⟩ := (getElem?_holder_next_iff hp hn hpre hb hpair).1 hholder
  obtain ⟨u, hu, rfl⟩ := List.mem_map.1 hpair
  refine ⟨u.pair, ref, t, r, hlatest, hbuilt, ?_⟩
  rw [hp.ancestorId_eq_of_mem_run hcount hn hrun hs hu]
  exact (hp.recorded (Partition.mem_layer_of_mem_run hrun hu)).ancestorId_eq ref t hlatest.latest

/-- A run without an ancestor takes over nothing. -/
theorem inherited_eq_empty {s : Segment} (hs : s ∈ run) (hancestor : s.ancestorId = none) :
    OrderedSet.ofList ((run.map Segment.pair).filterMap fun pair => b.holder[pair]?) = .empty := by
  apply OrderedSet.ext_mem
  intro j
  constructor
  · intro hj
    obtain ⟨_, _, t, _, _, _, hid⟩ := exists_latestRun_of_mem_inherited hp hcount hn hpre hb hs hj
    rw [hancestor] at hid
    cases hid
  · intro hj
    cases hj

/-- A run with an ancestor takes over from the draft of the run of its ancestor only. -/
theorem inherited_eq_singleton {s : Segment} (hs : s ∈ run) {ref : SegmentRef} {t : Segment}
    {r : LayerRun} (ht : p.LatestRun n s.pair ref t r) (hr : (p.runsUpTo p.depth)[j]? = some r) :
    b.BuiltFrom p r j ∧
      OrderedSet.ofList ((run.map Segment.pair).filterMap fun pair => b.holder[pair]?) =
        .singleton j := by
  have hrun : run ∈ p.runsOf n :=
    hpre.subset (List.mem_append_right _ (List.mem_singleton_self run))
  have hnewest := (hp.newest_runsUpTo_iff (Nat.le_of_lt hn)).2 ⟨hr, ref, t, ht⟩
  have hlt := (List.getElem?_eq_some_iff.1 hnewest.place).1
  have hbuilt : b.BuiltFrom p r j :=
    hb.built.builtFrom hr ((List.getElem?_append_left hlt).trans hnewest.place)
  refine ⟨hbuilt, OrderedSet.ext_mem fun i => ?_⟩
  rw [OrderedSet.mem_singleton]
  constructor
  · intro hi
    obtain ⟨pair, ref', t', r', ht', hbuilt', hid⟩ :=
      exists_latestRun_of_mem_inherited hp hcount hn hpre hb hs hi
    have hid' := (hp.recorded (Partition.mem_layer_of_mem_run hrun hs)).ancestorId_eq ref t ht.latest
    exact hp.place_eq_of_latestRun hbuilt'.place hr ht' ht (Option.some.inj (hid.symm.trans hid'))
  · rintro rfl
    have hpair : s.pair ∈ (⟨n, run⟩ : LayerRun).pairs := List.mem_map_of_mem hs
    exact OrderedSet.mem_iff.2 (mem_inherited.2 ⟨s.pair, hpair,
      (getElem?_holder_next_iff hp hn hpre hb hpair).2 ⟨ref, t, r, ht, hbuilt⟩⟩)

end Inherited

/-! ### Every build -/

/-- After some layers, none of them the last one, the draft that holds a pair is that of the run of the
    latest segment of the pair. -/
theorem getElem?_holder_iff (hp : p.Layered g) (hi : i + 1 < p.depth)
    (h : (firstLayers oc limit p (i + 1)).result = .ok b) :
    b.holder[pair]? = some j ↔
      ∃ ref s r, p.LatestRun (i + 1) pair ref s r ∧ b.BuiltFrom p r j := by
  have hb := Stage.firstLayers hp (Nat.le_of_lt hi) h
  rw [hb.built.holder_iff]
  constructor
  · rintro ⟨r, hr, _⟩
    obtain ⟨hplace, ref, s, hlatest⟩ := (hp.newest_runsUpTo_iff (Nat.le_of_lt hi)).1 hr
    exact ⟨ref, s, r, hlatest, hb.built.builtFrom hplace hr.place⟩
  · rintro ⟨ref, s, r, hlatest, hbuilt⟩
    have hr := (hp.newest_runsUpTo_iff (Nat.le_of_lt hi)).2 ⟨hbuilt.place, ref, s, hlatest⟩
    have hlayer := (Partition.mem_runsUpTo.1 (List.mem_of_getElem? hr.place)).1
    exact ⟨r, hr, by omega⟩

/-- After some layers, none of them the last one, just the pairs of these layers are held. -/
theorem mem_holder_iff (hp : p.Layered g) (hi : i + 1 < p.depth)
    (h : (firstLayers oc limit p (i + 1)).result = .ok b) :
    pair ∈ b.holder ↔ ∃ l ≤ i, ∃ s ∈ p.layer l, s.pair = pair := by
  have hb := Stage.firstLayers hp (Nat.le_of_lt hi) h
  rw [TreeMap.mem_iff_isSome_getElem?, Option.isSome_iff_exists]
  simp only [hb.built.holder_iff]
  constructor
  · rintro ⟨j, r, hr, _⟩
    have hrmem := List.mem_of_getElem? hr.place
    obtain ⟨s, hs, _, hpair⟩ := Partition.exists_mem_segments hrmem hr.mem_pairs
    exact ⟨r.layer, Nat.le_of_lt_succ (Partition.mem_runsUpTo.1 hrmem).1, s, hs, hpair⟩
  · rintro ⟨l, hl, s, hs, rfl⟩
    obtain ⟨r, hr, _, hmem⟩ := Partition.exists_mem_runsUpTo (Nat.lt_succ_of_le hl) hs
    obtain ⟨j, t, ht⟩ := LayerRun.exists_newest hr (List.mem_map_of_mem hmem)
    have hlayer := (Partition.mem_runsUpTo.1 (List.mem_of_getElem? ht.place)).1
    exact ⟨j, t, ht, by omega⟩

/-- The holders of a builder follow the history of the partition. After any number of layers but all, just
    the pairs of these layers are held, each by the draft of the run of its latest segment. As long as there
    are ids for all runs, every run becomes a block, and it inherits from the draft of the run of its
    ancestor only, or from none if it has no ancestor. -/
theorem open_blocks_mirror_ancestors {k : Nat} (hbuild : (Partition.build g k).result = .ok p) :
    (∀ oc limit i b, i + 1 < p.depth → (firstLayers oc limit p (i + 1)).result = .ok b →
      (∀ pair, pair ∈ b.holder ↔ ∃ l ≤ i, ∃ s ∈ p.layer l, s.pair = pair) ∧
      ∀ pair j, b.holder[pair]? = some j ↔
        ∃ ref s r, p.LatestRun (i + 1) pair ref s r ∧ b.BuiltFrom p r j) ∧
    (p.runCount < UInt32.size → ∀ oc limit i pre run b₀ b, i < p.depth → pre ++ [run] <+: p.runsOf i →
      (firstLayers oc limit p i).result = .ok b₀ →
      pre.foldlM (addBlock i (i + 1 == p.depth)) b₀ = .ok b →
      ∃ b' draft, addBlock i (i + 1 == p.depth) b run = .ok b' ∧ b'.drafts = b.drafts.push draft ∧
        ∀ s ∈ run, (s.ancestorId = none → draft.inherited = .empty) ∧
          ∀ m, s.ancestorId = some m → ∃ ref t r j, s.ancestor = some ref ∧ t.id = m ∧
            p.LatestRun i s.pair ref t r ∧ b.BuiltFrom p r j ∧ draft.inherited = .singleton j) := by
  have hp := (Partition.layered_of_build hbuild).1
  refine ⟨fun oc limit i b hi h => ⟨fun pair => mem_holder_iff hp hi h, fun pair j =>
    getElem?_holder_iff hp hi h⟩, ?_⟩
  intro hcount oc limit i pre run b₀ b hi hpre hfirst hblocks
  have hcount := Nat.le_sub_one_of_lt hcount
  have hb₀ := Stage.firstLayers hp (Nat.le_of_lt hi) hfirst
  have hb := hb₀.addBlocks hp hi ((List.prefix_append ..).trans hpre) hblocks
  have hnext := Partition.next_of_prefix_runsOf hi hpre
  obtain ⟨b', hb'⟩ := Stage.exists_addBlock (r := ⟨i, run⟩) hp hnext hb
  obtain ⟨_, _, _, draft, _, _, hdrafts, _, _, hinherited, _⟩ := addBlock_eq_ok hb'
  refine ⟨b', draft, hb', hdrafts, fun s hs => ⟨fun hnone => ?_, fun m hm => ?_⟩⟩
  · rw [hinherited]
    exact inherited_eq_empty hp hcount hi hpre hb hs hnone
  · have hrun : run ∈ p.runsOf i :=
      hpre.subset (List.mem_append_right _ (List.mem_singleton_self run))
    have hs' := Partition.mem_layer_of_mem_run hrun hs
    obtain ⟨ref, t, hlatest, hid⟩ := hp.exists_latest hi hs' hm
    obtain ⟨r, j, hr, ht⟩ := hlatest.exists_run (Nat.le_of_lt hi)
    obtain ⟨hbuilt, heq⟩ := inherited_eq_singleton hp hcount hi hpre hb hs ht hr
    exact ⟨ref, t, r, j, ((hp.recorded hs').ancestor_iff ref).2 ⟨t, hlatest⟩, hid, ht, hbuilt,
      hinherited.trans heq⟩

/-- Of two steps along one label: a run of walks of three steps has an ancestor among the edges, a layer
    being between, and it inherits from the block of that edge, which holds its pair. -/
theorem open_blocks_mirror_ancestors_two_steps : ∃ p b, (Partition.build Index.twoSteps 3).result = .ok p ∧
    (firstLayers none none p 2).result = .ok b ∧ ⟨0, 2⟩ ∈ b.holder ∧ p.runCount < UInt32.size ∧
    ∃ run s, [] ++ [run] <+: p.runsOf 2 ∧ s ∈ run ∧ s.ancestorId = some 1 ∧
      ∃ b' draft j, addBlock 2 (2 + 1 == p.depth) b run = .ok b' ∧ b'.drafts = b.drafts.push draft ∧
        b.holder[s.pair]? = some j ∧ draft.inherited = .singleton j := by
  obtain ⟨p, hbuild, hp⟩ := exists_ok_of_any (x := (Partition.build Index.twoSteps 3).result)
    (f := fun p => decide (p.runCount < UInt32.size) && p.depth == 3 &&
      ((firstLayers none none p 2).result.toOption.any fun _ => true) &&
      ((p.layer 1).any fun s => s.pair == ⟨0, 2⟩) &&
      (p.runsOf 2).head?.any fun run => run.any fun s => s.ancestorId == some 1) (by cbv)
  simp only [Bool.and_eq_true, decide_eq_true_eq, beq_iff_eq, Array.any_eq_true', Option.any_eq_true,
    List.any_eq_true] at hp
  obtain ⟨⟨⟨⟨hcount, hdepth⟩, b, hb, -⟩, x, hx, hxpair⟩, run, hrun, s, hs, hancestor⟩ := hp
  obtain ⟨b, hb, -⟩ := exists_ok_of_any (x := (firstLayers none none p 2).result) (f := fun _ => true)
    (by rw [hb]; rfl)
  obtain ⟨hholders, hinherits⟩ := open_blocks_mirror_ancestors hbuild
  obtain ⟨hmem, hholder⟩ := hholders none none 1 b (by omega) hb
  obtain ⟨rest, hrest⟩ := List.head?_eq_some_iff.1 hrun
  have hpre : [] ++ [run] <+: p.runsOf 2 := ⟨rest, hrest.symm⟩
  obtain ⟨b', draft, hb', hdrafts, hdraft⟩ :=
    hinherits hcount none none 2 [] run b b (by omega) hpre hb rfl
  obtain ⟨ref, t, r, j, -, -, hlatest, hbuilt, hinherited⟩ := (hdraft s hs).2 1 hancestor
  exact ⟨p, b, hbuild, hb, (hmem _).2 ⟨1, Nat.le_refl 1, x, hx, hxpair⟩, hcount, run, s, hpre, hs, hancestor,
    b', draft, j, hb', hdrafts, (hholder _ _).2 ⟨ref, t, r, hlatest, hbuilt⟩, hinherited⟩

end Builder

end PathQueryIndex
