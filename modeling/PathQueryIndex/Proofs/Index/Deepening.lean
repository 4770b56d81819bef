/-
Module: PathQueryIndex.Proofs.Index.Deepening
Layer: Proofs
Purpose: What one more layer does to an index. Partitions of one graph have the same first layers, so the
  constructions of two depths go side by side and make the same drafts, although the shallow one lets the
  pairs of its last layer go where the deep one keeps holding them. The drafts of the further layer then take
  pairs over. The pairs of a run of that layer were all held by one draft or by none, because segments with
  one id have their earlier segments in common runs; so no block of the deeper index mixes blocks of the
  shallow one, and what it takes over comes with its labels and the codes of its cores.
Imports: PathQueryIndex.Proofs.Index.Soundness, PathQueryIndex.Proofs.Index.Completeness
Main exports: LayerRun.Newest, Partition.Deepened, Partition.Layered.newest_of_mem_pairs, Builder.Agrees,
  Builder.getElem?_drafts_of_deepened, Builder.Inherits, Index.Covers, Index.Shares, Index.build_refines
-/
import PathQueryIndex.Proofs.Index.Soundness
import PathQueryIndex.Proofs.Index.Completeness

namespace PathQueryIndex

open Std

/-! ### Runs put behind others -/

namespace LayerRun

variable {done more : List LayerRun} {pair : Pair} {j : Nat} {r : LayerRun}

/-- The newest run with a pair is the newest one among the first runs, if it is one of these. -/
theorem Newest.of_append (h : Newest (done ++ more) pair j r) (hlt : j < done.length) :
    Newest done pair j r := by
  refine ⟨?_, h.mem_pairs, fun m t hm ht => h.gap m t hm ?_⟩
  · rw [← List.getElem?_append_left hlt]
    exact h.place
  · rw [List.getElem?_append_left (List.getElem?_eq_some_iff.1 ht).1]
    exact ht

/-- Runs without the pair leave its newest run as it is. -/
theorem Newest.append (h : Newest done pair j r) (hmore : ∀ t ∈ more, pair ∉ t.pairs) :
    Newest (done ++ more) pair j r := by
  induction more using List.reverseRecOn with
  | nil => simpa using h
  | append_singleton more t ih =>
      have hinit := ih fun u hu => hmore u (List.mem_append_left _ hu)
      rw [← List.append_assoc]
      exact (newest_concat_of_not_mem (hmore t (by simp))).2 hinit

end LayerRun

/-! ### One more layer -/

namespace Partition

variable {g : Graph} {p p' : Partition} {i j n : Nat} {r t : LayerRun} {x y : Pair}

/-- Partition `p'` is partition `p` with one more layer. -/
structure Deepened (p p' : Partition) : Prop where
  depth_eq : p'.depth = p.depth + 1
  layer_eq : ∀ i < p.depth, p.layer i = p'.layer i

namespace Layered

/-- A layer depends on the graph and the layers before it, so the first layers of a graph are always the
    same. -/
theorem deepened (hp : p.Layered g) (hp' : p'.Layered g) (hdepth : p'.depth = p.depth + 1) :
    p.Deepened p' where
  depth_eq := hdepth
  layer_eq := by
    intro i
    induction i using Nat.strongRecOn with
    | ind i ih =>
        intro hi
        have hbefore : ∀ j < i, p.layer j = p'.layer j := fun j hj => ih j hj (Nat.lt_trans hj hi)
        have hi' : i < p'.depth := hdepth ▸ Nat.lt_succ_of_lt hi
        rw [hp.layer_eq i hi, hp'.layer_eq i hi', startId_congr hbefore, rawSegments_congr hbefore]

variable (hp : p.Layered g)

include hp

/-- Whatever earlier run has one pair of a run has all of them. -/
theorem mem_pairs_of_mem_pairs (hsharp : p.Sharp r.id) (hr : r ∈ p.runsUpTo p.depth)
    (hx : x ∈ r.pairs) (hy : y ∈ r.pairs) (ht : t ∈ p.runsUpTo r.layer) (hxt : x ∈ t.pairs) :
    y ∈ t.pairs := by
  have hi := (mem_runsUpTo.1 hr).1
  have htlayer := (mem_runsUpTo.1 ht).1
  obtain ⟨s, hs, hsr, rfl⟩ := exists_mem_segments hr hx
  obtain ⟨u, hu, hur, rfl⟩ := exists_mem_segments hr hy
  obtain ⟨z, hz, hzt, hzs⟩ := exists_mem_segments ht hxt
  have hsid := id_eq_of_mem_segments hr hsr
  have hid : s.id = u.id := hsid.trans (id_eq_of_mem_segments hr hur).symm
  obtain ⟨w, hw, hwu, hwz⟩ :=
    hp.exists_earlier (hsid ▸ hsharp) hi (Nat.le_of_lt htlayer) hs hu hid hz hzs
  have hwt := hp.mem_run_of_id_eq (Nat.lt_trans htlayer hi) (mem_runsUpTo.1 ht).2 hzt hw hwz.symm
  exact hwu ▸ List.mem_map_of_mem hwt

/-- The pairs of a run are taken over from the same earlier run. -/
theorem newest_of_mem_pairs (hsharp : p.Sharp r.id) (hr : r ∈ p.runsUpTo p.depth)
    (hx : x ∈ r.pairs) (hy : y ∈ r.pairs) (h : LayerRun.Newest (p.runsUpTo r.layer) x j t) :
    LayerRun.Newest (p.runsUpTo r.layer) y j t where
  place := h.place
  mem_pairs := hp.mem_pairs_of_mem_pairs hsharp hr hx hy (List.mem_of_getElem? h.place) h.mem_pairs
  gap := fun m u hm hu hyu =>
    h.gap m u hm hu (hp.mem_pairs_of_mem_pairs hsharp hr hy hx (List.mem_of_getElem? hu) hyu)

end Layered

namespace Deepened

variable (hd : p.Deepened p')

include hd

theorem runsOf_eq (hi : i < p.depth) : p.runsOf i = p'.runsOf i := by
  rw [runsOf, runsOf, hd.layer_eq i hi]

theorem runsUpTo_eq (hn : n ≤ p.depth) : p.runsUpTo n = p'.runsUpTo n := by
  induction n with
  | zero => rfl
  | succ n ih => rw [runsUpTo_succ, runsUpTo_succ, ih (Nat.le_of_succ_le hn), hd.runsOf_eq hn]

/-- The runs of the further layer come behind all others. -/
theorem runsUpTo_depth : p'.runsUpTo p'.depth =
    p.runsUpTo p.depth ++ (p'.runsOf p.depth).map fun run => ⟨p.depth, run⟩ := by
  rw [hd.depth_eq, runsUpTo_succ, hd.runsUpTo_eq (Nat.le_refl _)]

/-- Runs that come next in the shallow partition come next in the deeper one. -/
theorem prefix_runsUpTo {done : List LayerRun} (h : done <+: p.runsUpTo p.depth) :
    done <+: p'.runsUpTo p'.depth := by
  rw [hd.runsUpTo_depth]
  exact h.trans (List.prefix_append ..)

/-- The newest run with a pair is the newest one of the shallow partition, unless it is of the further
    layer. -/
theorem newest_of_layer_lt (h : LayerRun.Newest (p'.runsUpTo p'.depth) x j r) (hlt : r.layer < p.depth) :
    LayerRun.Newest (p.runsUpTo p.depth) x j r := by
  rw [hd.runsUpTo_depth] at h
  refine h.of_append (Nat.lt_of_not_le fun hle => ?_)
  have hplace := h.place
  rw [List.getElem?_append_right hle] at hplace
  obtain ⟨run, _, rfl⟩ := List.mem_map.1 (List.mem_of_getElem? hplace)
  exact absurd hlt (Nat.lt_irrefl _)

/-- A deeper partition has no fewer runs. -/
theorem runCount_le : p.runCount ≤ p'.runCount := by
  have hlayers : p.runCount = p'.runsBefore p.depth := by
    unfold runCount runsBefore
    congr 1
    apply List.map_congr_left
    intro i hi
    rw [hd.layer_eq i (List.mem_range.1 hi)]
  rw [hlayers]
  exact runsBefore_mono p' (hd.depth_eq ▸ Nat.le_succ _)

theorem layer_cases (hr : r ∈ p'.runsUpTo p'.depth) : r.layer < p.depth ∨ r.layer = p.depth := by
  have hlt := (mem_runsUpTo.1 hr).1
  rw [hd.depth_eq] at hlt
  exact Nat.lt_or_eq_of_le (Nat.le_of_lt_succ hlt)

end Deepened

end Partition

/-! ### The two constructions side by side -/

namespace Builder

variable {g : Graph} {p p' : Partition} {b b' : Builder} {done : List LayerRun} {r t : LayerRun}
  {oc : Option Canonicalizer} {c : Canonicalizer} {limit : Option Nat} {i j m n first layer : Nat}
  {draft : Draft} {set : CoreSet} {last : Bool}

/-- Two builders of the same runs, for partitions that may go on differently, have the same drafts. Which
    pairs are held may differ. -/
structure Agrees (p p' : Partition) (done : List LayerRun) (b b' : Builder) : Prop where
  built : b.Built p done
  built' : b'.Built p' done
  drafts_eq : b.drafts = b'.drafts
  owners_eq : b.owners = b'.owners
  requests_eq : b.requests = b'.requests

namespace Agrees

theorem empty (p p' : Partition) : Agrees p p' [] empty empty :=
  ⟨.empty p, .empty p', rfl, rfl, rfl⟩

/-- The pairs of the next run are held by the same drafts: no run of a last layer has had them. -/
theorem holder_eq (hb : Agrees p p' done b b') (hp : p.Layered g) (hp' : p'.Layered g)
    (hnext : done ++ [r] <+: p.runsUpTo p.depth) (hnext' : done ++ [r] <+: p'.runsUpTo p'.depth)
    {pair : Pair} (hpair : pair ∈ r.pairs) : b.holder[pair]? = b'.holder[pair]? := by
  apply Option.ext
  intro i
  exact (holder_iff_newest hp hnext hb.built hpair).trans
    (holder_iff_newest hp' hnext' hb.built' hpair).symm

/-- The step: one more draft in both. -/
theorem alike_addBlock (hb : Agrees p p' done b b') (hp : p.Layered g) (hp' : p'.Layered g)
    (hnext : done ++ [r] <+: p.runsUpTo p.depth) (hnext' : done ++ [r] <+: p'.runsUpTo p'.depth) :
    Alike (Agrees p p' (done ++ [r])) (addBlock r.layer (r.layer + 1 == p.depth) b r.segments)
      (addBlock r.layer (r.layer + 1 == p'.depth) b' r.segments) := by
  have hinherited : r.pairs.filterMap (fun pair => b.holder[pair]?) =
      r.pairs.filterMap fun pair => b'.holder[pair]? :=
    List.filterMap_congr fun pair hpair => hb.holder_eq hp hp' hnext hnext' hpair
  have hjoinOf : b.joinOf = b'.joinOf := by
    funext sp
    simp only [joinOf, owner, hb.owners_eq]
  have hstep : Alike (fun e e' => e.drafts = e'.drafts ∧ e.owners = e'.owners ∧
      e.requests = e'.requests) (addBlock r.layer (r.layer + 1 == p.depth) b r.segments)
      (addBlock r.layer (r.layer + 1 == p'.depth) b' r.segments) := by
    rw [LayerRun.pairs] at hinherited
    cases hsegments : r.segments with
    | nil => exact .error _
    | cons s rest =>
        rw [hsegments] at hinherited
        simp only [addBlock, hinherited, hjoinOf, hb.drafts_eq]
        refine (Alike.refl _).bind fun joins _ hsame => ?_
        subst hsame
        exact .ok ⟨rfl, hb.owners_eq, hb.requests_eq⟩
  refine hstep.attach.imp fun e e' hboth => ?_
  obtain ⟨⟨hdrafts, howners, hrequests⟩, he, he'⟩ := hboth
  obtain ⟨block, hblock⟩ := appends_of_addBlock he
  obtain ⟨block', hblock'⟩ := appends_of_addBlock he'
  exact ⟨hb.built.appends hblock, hb.built'.appends hblock', hdrafts, howners, hrequests⟩

/-- The step: the cores of one draft in both. -/
theorem alike_addCores (hb : Agrees p p' done b b') (number : Nat) :
    Alike (Agrees p p' done) (b.addCores c limit number) (b'.addCores c limit number) := by
  have hstep : Alike (fun e e' => e.drafts = e'.drafts ∧ e.owners = e'.owners ∧
      e.requests = e'.requests) (b.addCores c limit number) (b'.addCores c limit number) := by
    simp only [addCores, coresOf, baseCores, hb.drafts_eq, hb.requests_eq]
    refine (Alike.refl _).bind fun set _ hsame => ?_
    subst hsame
    exact .ok ⟨rfl, hb.owners_eq, rfl⟩
  refine hstep.attach.imp fun e e' hboth => ?_
  obtain ⟨⟨hdrafts, howners, hrequests⟩, he, he'⟩ := hboth
  obtain ⟨hblocks, hsize, hholder, hfinals⟩ := addCores_eq_ok he
  obtain ⟨hblocks', hsize', hholder', hfinals'⟩ := addCores_eq_ok he'
  exact ⟨hb.built.congr hblocks hsize hholder hfinals,
    hb.built'.congr hblocks' hsize' hholder' hfinals', hdrafts, howners, hrequests⟩

/-- The cores of a layer. -/
theorem alike_addLayerCores (hb : Agrees p p' done b b') (layer first : Nat) :
    Alike (Agrees p p' done) (b.addLayerCores c limit layer first).result
      (b'.addLayerCores c limit layer first).result := by
  simp only [addLayerCores, Traced.result_bind, Traced.result_emit, Traced.result_pure,
    Traced.result_foldlM, Traced.result_lift, hb.drafts_eq]
  refine (Alike.foldlM (motive := fun _ => Agrees p p' done) rfl ?_ hb).bind fun _ _ h => .ok h
  intro k x y d d' hx hy hd
  obtain rfl : x = y := Option.some.inj (hx.symm.trans hy)
  exact (hd.alike_addCores _).bind fun e e' he => .ok he

variable (hp : p.Layered g) (hp' : p'.Layered g) (hd : p.Deepened p')

include hp hp' hd

/-- The drafts of a layer. -/
theorem alike_addBlocks (hb : Agrees p p' (p.runsUpTo n) b b') (hn : n < p.depth) :
    Alike (Agrees p p' (p.runsUpTo (n + 1)))
      ((p.runsOf n).foldlM (addBlock n (n + 1 == p.depth)) b)
      ((p.runsOf n).foldlM (addBlock n (n + 1 == p'.depth)) b') := by
  have hsteps : Alike
      (Agrees p p' (p.runsUpTo n ++ ((p.runsOf n).take (p.runsOf n).length).map fun run => ⟨n, run⟩))
      ((p.runsOf n).foldlM (addBlock n (n + 1 == p.depth)) b)
      ((p.runsOf n).foldlM (addBlock n (n + 1 == p'.depth)) b') := by
    refine Alike.foldlM (motive := fun k => Agrees p p'
      (p.runsUpTo n ++ ((p.runsOf n).take k).map fun run => ⟨n, run⟩)) rfl ?_ (by simpa using hb)
    intro k run run' d d' hrun hrun' hd'
    obtain rfl : run = run' := Option.some.inj (hrun.symm.trans hrun')
    obtain ⟨hk, rfl⟩ := List.getElem?_eq_some_iff.1 hrun
    have htake := List.take_append_getElem hk
    have hnext := Partition.next_of_prefix_runsOf hn (htake ▸ List.take_prefix ..)
    rw [← htake, List.map_append, ← List.append_assoc]
    exact hd'.alike_addBlock hp hp' (r := ⟨n, (p.runsOf n)[k]⟩) hnext (hd.prefix_runsUpTo hnext)
  rw [List.take_length, ← Partition.runsUpTo_succ] at hsteps
  exact hsteps

/-- The step: one more layer in both. -/
theorem alike_addLayer (hb : Agrees p p' (p.runsUpTo n) b b') (hn : n < p.depth) :
    Alike (Agrees p p' (p.runsUpTo (n + 1))) (addLayer oc limit p b n).result
      (addLayer oc limit p' b' n).result := by
  simp only [addLayer, Traced.result_bind, Traced.result_emit, Traced.result_lift, hb.drafts_eq,
    ← hd.runsOf_eq hn]
  refine (hb.alike_addBlocks hp hp' hd hn).bind fun d d' hdd => ?_
  simp only [hdd.owners_eq]
  have howned : ∀ owners, Agrees p p' (p.runsUpTo (n + 1)) { d with owners } { d' with owners } :=
    fun owners => ⟨hdd.built.congr rfl rfl rfl rfl, hdd.built'.congr rfl rfl rfl rfl, hdd.drafts_eq,
      rfl, hdd.requests_eq⟩
  cases oc with
  | none => exact .ok (howned _)
  | some c => exact (howned _).alike_addLayerCores n _

/-- The run: the drafts of all layers but the further one. -/
theorem alike_ofPartition (oc : Option Canonicalizer) (limit : Option Nat) :
    Alike (Agrees p p' (p.runsUpTo p.depth)) (ofPartition oc limit p).result
      ((List.range p.depth).foldlM (fun b i => (addLayer oc limit p' b i).result) Builder.empty) := by
  rw [ofPartition, Traced.result_foldlM]
  have hlayers : Alike (Agrees p p' (p.runsUpTo (List.range p.depth).length))
      ((List.range p.depth).foldlM (fun b i => (addLayer oc limit p b i).result) Builder.empty)
      ((List.range p.depth).foldlM (fun b i => (addLayer oc limit p' b i).result) Builder.empty) := by
    refine Alike.foldlM (motive := fun k => Agrees p p' (p.runsUpTo k)) rfl ?_ (empty p p')
    intro k x y d d' hx hy hdd
    obtain rfl : x = y := Option.some.inj (hx.symm.trans hy)
    obtain ⟨hk, rfl⟩ := List.getElem?_eq_some_iff.1 hx
    rw [List.length_range] at hk
    rw [List.getElem_range]
    exact hdd.alike_addLayer hp hp' hd hk
  rwa [List.length_range] at hlayers

end Agrees

/-! ### The drafts of the first layers stay -/

/-- Cores of a layer leave the drafts before it as they are. -/
theorem getElem?_drafts_of_addLayerCores (h : (b.addLayerCores c limit layer first).result = .ok b')
    (hj : j < first) : b'.drafts[j]? = b.drafts[j]? := by
  simp only [addLayerCores, Traced.bind_eq_ok, Traced.result_emit, Traced.result_pure,
    Traced.result_foldlM] at h
  obtain ⟨_, _, d, hfold, _, _, hd⟩ := h
  cases hd
  refine foldlM_induction (motive := fun _ d => d.drafts[j]? = b.drafts[j]?) ?_ hfold rfl
  intro _ k d e _ hstep hd
  simp only [Traced.bind_eq_ok, Traced.result_emit, Traced.result_lift, Traced.result_pure] at hstep
  obtain ⟨f, hstep, _, _, hf⟩ := hstep
  cases hf
  obtain ⟨set, _, _, _, hdrafts⟩ := addCores_drafts hstep
  rw [hdrafts, Array.getElem?_setIfInBounds_ne (Nat.ne_of_gt (Nat.lt_add_right k hj))]
  exact hd

/-- A further layer leaves the drafts before it as they are. -/
theorem getElem?_drafts_of_addLayer (h : (addLayer oc limit p b n).result = .ok b')
    (hj : j < b.drafts.size) : b'.drafts[j]? = b.drafts[j]? := by
  simp only [addLayer, Traced.bind_eq_ok, Traced.result_emit, Traced.result_lift] at h
  obtain ⟨_, _, d, hfold, _, _, h⟩ := h
  have hblocks : b.drafts.size ≤ d.drafts.size ∧ d.drafts[j]? = b.drafts[j]? := by
    refine foldlM_induction (motive := fun _ d => b.drafts.size ≤ d.drafts.size ∧
      d.drafts[j]? = b.drafts[j]?) ?_ hfold ⟨Nat.le_refl _, rfl⟩
    rintro _ run d e _ hstep ⟨hsize, hd⟩
    obtain ⟨_, _, _, _, _, _, hdrafts, _⟩ := addBlock_eq_ok hstep
    rw [hdrafts, Array.size_push, Array.getElem?_push, if_neg (Nat.ne_of_lt (Nat.lt_of_lt_of_le hj hsize))]
    exact ⟨Nat.le_succ_of_le hsize, hd⟩
  cases oc with
  | none =>
      cases h
      exact hblocks.2
  | some c => exact (getElem?_drafts_of_addLayerCores h hj).trans hblocks.2

/-- The drafts of a construction are the first ones of a construction with one more layer. -/
theorem getElem?_drafts_of_deepened (hp : p.Layered g) (hp' : p'.Layered g) (hd : p.Deepened p')
    (h : (ofPartition oc limit p).result = .ok b) (h' : (ofPartition oc limit p').result = .ok b')
    (hj : j < b.drafts.size) : b'.drafts[j]? = b.drafts[j]? := by
  rw [ofPartition, Traced.result_foldlM, hd.depth_eq, List.range_succ, List.foldlM_append] at h'
  obtain ⟨d, hfirst, hlast⟩ := bind_eq_ok.1 h'
  have hagrees : Agrees p p' (p.runsUpTo p.depth) b d := by
    have halike := Agrees.alike_ofPartition hp hp' hd oc limit
    rw [h, hfirst] at halike
    cases halike with
    | ok hagrees => exact hagrees
  obtain ⟨e, hlast, he⟩ := foldlM_cons_eq_ok.1 hlast
  cases he
  rw [hagrees.drafts_eq] at hj ⊢
  exact getElem?_drafts_of_addLayer hlast hj

/-! ### Inherited codes -/

/-- The first drafts have the codes of the drafts that they inherit from. -/
def Inherits (m : Nat) (b : Builder) : Prop :=
  ∀ j < m, ∀ draft, b.drafts[j]? = some draft → ∀ i ∈ draft.inherited, ∀ earlier,
    b.drafts[i]? = some earlier → ∀ code ∈ earlier.block.coreHashes, code ∈ draft.block.coreHashes

/-- The codes of inherited cores are among those of all cores of a draft. -/
theorem hash_mem_of_inherited (hp : p.Layered g) (hr : (p.runsUpTo p.depth)[m]? = some r)
    (hlinked : Linked p m r draft) (hset : b.coresOf c limit draft = .ok set) (hi : i ∈ draft.inherited)
    {core : Core} (hcore : core ∈ (b.drafts.getD i default).block.cores) : core.hash ∈ set.hashes := by
  obtain ⟨base, inherited, closed, hbase, hclosed, hlast⟩ := coresOf_eq_ok hset
  have hjoins : draft.joins.isEmpty = false := by
    -- a draft of the first layer inherits from none
    apply Bool.eq_false_iff.2
    intro hempty
    obtain ⟨_, t, _, _, hlt, _⟩ := hlinked.of_mem_inherited hp hr hi
    rw [hlinked.layer_eq_zero hp hr hempty] at hlt
    exact absurd hlt (Nat.not_lt_zero _)
  obtain ⟨early, hearly, _, habsorb⟩ := baseCores_of_joins hbase hjoins
  obtain ⟨_, htakes⟩ := CoreSet.takes_of_absorb habsorb
  obtain ⟨_, htakes'⟩ := CoreSet.takes_of_close hclosed
  have hmem : core.hash ∈ closed.hashes :=
    htakes'.kept _ (htakes.kept _ (hearly.found core (List.mem_flatMap.2 ⟨i,
      OrderedSet.mem_iff.1 hi, hcore⟩)))
  split at hlast
  · obtain ⟨_, hanchored⟩ := CoreSet.takes_of_absorb hlast
    exact hanchored.kept _ hmem
  · rw [hlast]
    exact hmem

/-- The step: the cores of one more draft. -/
theorem Inherits.addCores (hp : p.Layered g) (hlinked : b.AllLinked p) (hsound : b.Sound c g p)
    (hr : (p.runsUpTo p.depth)[m]? = some r) (hb : b.Inherits m) (h : b.addCores c limit m = .ok b') :
    b'.Inherits (m + 1) := by
  intro j hj draft hdraft i hi earlier hearlier code hcode
  obtain ⟨before, hbefore, hcases⟩ := exists_draft_of_addCores h hdraft
  obtain ⟨before', hbefore', hcases'⟩ := exists_draft_of_addCores h hearlier
  have hjm : j ≤ m := Nat.le_of_lt_succ hj
  have hsize : j < (p.runsUpTo p.depth).length :=
    Nat.lt_of_le_of_lt hjm (List.getElem?_eq_some_iff.1 hr).1
  have hlink := hlinked j before _ hbefore (List.getElem?_eq_getElem hsize)
  have hinherited : i ∈ before.inherited := by
    rcases hcases with ⟨_, rfl⟩ | ⟨_, _, _, rfl⟩
    · exact hi
    · exact hi
  have hij := (hlink.of_mem_inherited hp (List.getElem?_eq_getElem hsize) hinherited).1
  obtain ⟨_, rfl⟩ : i ≠ m ∧ earlier = before' := by
    rcases hcases' with hsame | ⟨rfl, _⟩
    · exact hsame
    · exact absurd hij (Nat.not_lt.2 hjm)
  rcases hcases with ⟨hne, rfl⟩ | ⟨rfl, set, hset, rfl⟩
  · exact hb j (Nat.lt_of_le_of_ne hjm hne) _ hbefore i hi _ hbefore' code hcode
  · have hi' : i < (p.runsUpTo p.depth).length := Nat.lt_trans hij hsize
    obtain ⟨core, hcore, rfl⟩ :=
      ((hsound i _ _ hbefore' (List.getElem?_eq_getElem hi')).2 code).1 hcode
    refine hash_mem_of_inherited hp (List.getElem?_eq_getElem hsize) hlink hset hinherited ?_
    rw [Array.getD_eq_getD_getElem?, hbefore']
    exact hcore

/-- The step: a new draft is not counted yet. -/
theorem Inherits.addBlock {run : List Segment} (hp : p.Layered g) (hlinked : b.AllLinked p)
    (hb : b.Inherits m) (hm : m ≤ b.drafts.size) (hruns : m ≤ (p.runsUpTo p.depth).length)
    (h : addBlock layer last b run = .ok b') : b'.Inherits m := by
  obtain ⟨_, _, _, _, _, _, hdrafts, _⟩ := addBlock_eq_ok h
  have hget : ∀ j < m, b'.drafts[j]? = b.drafts[j]? := fun j hj => by
    rw [hdrafts, Array.getElem?_push, if_neg (Nat.ne_of_lt (Nat.lt_of_lt_of_le hj hm))]
  intro j hj draft hdraft i hi earlier hearlier
  rw [hget j hj] at hdraft
  have hr := List.getElem?_eq_getElem (Nat.lt_of_lt_of_le hj hruns)
  have hij := ((hlinked j draft _ hdraft hr).of_mem_inherited hp hr hi).1
  rw [hget i (Nat.lt_trans hij hj)] at hearlier
  exact hb j hj draft hdraft i hi earlier hearlier

/-- The run: the drafts of a construction are linked, and every one of them has the codes of the drafts that
    it inherits from. -/
theorem inherits_of_ofPartition (hp : p.Layered g) (h : (ofPartition (some c) limit p).result = .ok b) :
    b.AllLinked p ∧ b.Inherits (p.runsUpTo p.depth).length := by
  have hall := ofPartition_stages (motive := fun n done m b => b.Stage p n done ∧ b.Sound c g p ∧
    b.Inherits m ∧ m ≤ b.drafts.size ∧ m ≤ (p.runsUpTo p.depth).length) ?_ ?_ ?_ ?_ ?_ h
  · exact ⟨hall.1.linked, hall.2.2.1⟩
  · intro n done m b hb
    exact hb.1.built.size_eq
  · refine ⟨.empty p, ?_, ?_, Nat.le_refl 0, Nat.zero_le _⟩
    · intro j _ _ hj _
      cases hj
    · intro j hj
      exact absurd hj (Nat.not_lt_zero j)
  · rintro done r m b b' hnext hstep ⟨hstage, hsound, hinherits, hm, hruns⟩
    obtain ⟨_, _, _, _, _, _, hdrafts, _⟩ := addBlock_eq_ok hstep
    refine ⟨hstage.addBlock hp hnext hstep, hsound.addBlock hstep,
      hinherits.addBlock hp hstage.linked hm hruns hstep, ?_, hruns⟩
    rw [hdrafts, Array.size_push]
    exact Nat.le_succ_of_le hm
  · rintro n m b hn ⟨hstage, hrest⟩
    exact ⟨hstage.push hn, hrest⟩
  · rintro n m r b b' hn hr hstep ⟨hstage, hsound, hinherits, _, _⟩
    have hstage' := hstage.addCores hstep
    have hr' := Partition.getElem?_runsUpTo_of_le hn hr
    refine ⟨hstage', hsound.addCores hp hstage.linked hstep,
      hinherits.addCores hp hstage.linked hsound hr' hstep, ?_, (List.getElem?_eq_some_iff.1 hr').1⟩
    rw [hstage'.built.size_eq]
    exact (List.getElem?_eq_some_iff.1 hr).1

end Builder

/-! ### The blocks of the two indexes -/

namespace Partition.Deepened

variable {g : Graph} {p p' : Partition} {i j k : Nat} {r t : LayerRun} {x y : Pair}

/-- Pairs with one newest run in the deeper partition have one in the shallow partition, if any. -/
theorem newest_of_newest (hd : p.Deepened p') (hp' : p'.Layered g)
    (hcount : p'.runCount ≤ maxSegmentId) (hx : LayerRun.Newest (p'.runsUpTo p'.depth) x j r)
    (hy : LayerRun.Newest (p'.runsUpTo p'.depth) y j r)
    (h : LayerRun.Newest (p.runsUpTo p.depth) x k t) : LayerRun.Newest (p.runsUpTo p.depth) y k t := by
  have hr := List.mem_of_getElem? hx.place
  rcases hd.layer_cases hr with hlt | hlast
  · have hx' := hd.newest_of_layer_lt hx hlt
    obtain rfl := hx'.place_eq h
    obtain rfl : r = t := Option.some.inj (hx'.place.symm.trans h.place)
    exact hd.newest_of_layer_lt hy hlt
  · rw [hd.runsUpTo_eq (Nat.le_refl _), ← hlast] at h ⊢
    exact hp'.newest_of_mem_pairs (hp'.sharp_of_runCount_le hcount _) hr hx.mem_pairs hy.mem_pairs h

/-- The newest run of the shallow partition with a pair is still the newest one, or a run of the further
    layer takes the pair over from it. -/
theorem takeover_cases (hd : p.Deepened p') (hp' : p'.Layered g)
    (hx : LayerRun.Newest (p'.runsUpTo p'.depth) x j r)
    (h : LayerRun.Newest (p.runsUpTo p.depth) x k t) :
    k = j ∧ t = r ∨ t.layer < r.layer ∧ LayerRun.Newest ((p'.runsUpTo p'.depth).take j) x k t := by
  have hr := List.mem_of_getElem? hx.place
  rcases hd.layer_cases hr with hlt | hlast
  · have hx' := hd.newest_of_layer_lt hx hlt
    have hplace := h.place_eq hx'
    subst hplace
    exact .inl ⟨rfl, Option.some.inj (h.place.symm.trans hx'.place)⟩
  · have htlayer := (mem_runsUpTo.1 (List.mem_of_getElem? h.place)).1
    have hle : (p.runsUpTo p.depth).length ≤ j := by
      apply Nat.le_of_not_lt
      intro hlt
      have hplace := hx.place
      rw [hd.runsUpTo_depth, List.getElem?_append_left hlt] at hplace
      exact absurd hlast (Nat.ne_of_lt (mem_runsUpTo.1 (List.mem_of_getElem? hplace)).1)
    have htake : (p'.runsUpTo p'.depth).take j = p.runsUpTo p.depth ++
        ((p'.runsOf p.depth).map fun run => (⟨p.depth, run⟩ : LayerRun)).take
          (j - (p.runsUpTo p.depth).length) := by
      rw [hd.runsUpTo_depth, List.take_append, List.take_of_length_le hle]
    refine .inr ⟨hlast ▸ htlayer, ?_⟩
    rw [htake]
    refine h.append fun u hu hxu => ?_
    -- a run of the further layer that stands before `r` has none of its pairs
    have hbefore : u ∈ (p'.runsUpTo p'.depth).take j := htake ▸ List.mem_append_right _ hu
    obtain ⟨run, _, rfl⟩ := List.mem_map.1 (List.mem_of_mem_take hu)
    have hnext := take_concat_prefix hx.place
    have hlt := hp'.layer_lt_of_next (Nat.le_refl _) hnext hbefore hxu hx.mem_pairs
    exact absurd hlast (Nat.ne_of_gt hlt)

end Partition.Deepened

namespace Builder

variable {g : Graph} {p p' : Partition} {b b' : Builder} {oc : Option Canonicalizer}
  {limit : Option Nat} {block deeper : Block} {x : Pair}

/-- A block has no more labels than the deeper block with a pair of it. -/
theorem labels_subset_of_deepened (hp : p.Layered g) (hp' : p'.Layered g) (hd : p.Deepened p')
    (h : (ofPartition oc limit p).result = .ok b) (h' : (ofPartition oc limit p').result = .ok b')
    (hcount : p'.runCount ≤ maxSegmentId) (hblock : block ∈ b.finish) (hdeeper : deeper ∈ b'.finish)
    (hx : x ∈ block.pairs) (hx' : x ∈ deeper.pairs) {ls : LabelSequence} (hls : ls ∈ block.labels) :
    ls ∈ deeper.labels := by
  obtain ⟨j, r, hr⟩ := comesFrom_of_mem_finish hp (built_of_ofPartition h) hblock
  obtain ⟨k, t, ht⟩ := comesFrom_of_mem_finish hp' (built_of_ofPartition h') hdeeper
  obtain ⟨draft, hdraft, hdescribes, hlabels⟩ := hr.labels
  obtain ⟨draft', hdraft', hdescribes', hlabels'⟩ := ht.labels
  have hcount' := Nat.le_trans hd.runCount_le hcount
  have hxr := (hr.mem_pairs x).1 hx
  have hxt := (ht.mem_pairs x).1 hx'
  rw [hlabels, labeled_of_ofPartition hp hcount' h j draft hdraft x
    (hdescribes.pairs_eq ▸ hxr.mem_pairs), hdescribes.layer_eq] at hls
  rw [hlabels', labeled_of_ofPartition hp' hcount h' k draft' hdraft' x
    (hdescribes'.pairs_eq ▸ hxt.mem_pairs), hdescribes'.layer_eq]
  rcases hd.takeover_cases hp' hxt hxr with ⟨_, rfl⟩ | ⟨hlt, _⟩
  · exact hls
  · exact ⟨Nat.le_trans hls.1 (Nat.succ_le_succ (Nat.le_of_lt hlt)), hls.2⟩

/-- A block has no more codes than the deeper block with a pair of it. -/
theorem hashes_subset_of_deepened {c : Canonicalizer} (hp : p.Layered g) (hp' : p'.Layered g)
    (hd : p.Deepened p') (h : (ofPartition (some c) limit p).result = .ok b)
    (h' : (ofPartition (some c) limit p').result = .ok b') (hblock : block ∈ b.finish)
    (hdeeper : deeper ∈ b'.finish) (hx : x ∈ block.pairs) (hx' : x ∈ deeper.pairs) {code : CoreHash}
    (hcode : code ∈ block.coreHashes) : code ∈ deeper.coreHashes := by
  have hbuilt := built_of_ofPartition h
  have hbuilt' := built_of_ofPartition h'
  obtain ⟨j, r, draft, hr, hdraft, _, hhashes⟩ := exists_draft_of_mem_finish hp hbuilt hblock
  obtain ⟨k, t, draft', ht, hdraft', _, hhashes'⟩ := exists_draft_of_mem_finish hp' hbuilt' hdeeper
  have hxr := (hr.mem_pairs x).1 hx
  have hxt := (ht.mem_pairs x).1 hx'
  have hsize : j < b.drafts.size := (Array.getElem?_eq_some_iff.1 hdraft).1
  have hsame := (getElem?_drafts_of_deepened hp hp' hd h h' hsize).trans hdraft
  rw [hhashes] at hcode
  rw [hhashes']
  rcases hd.takeover_cases hp' hxt hxr with ⟨rfl, _⟩ | ⟨_, hbefore⟩
  · rw [hsame] at hdraft'
    cases hdraft'
    exact hcode
  · have hplace := (List.getElem?_eq_some_iff.1 ht.place).1
    obtain ⟨hlinked, hinherits⟩ := inherits_of_ofPartition hp' h'
    have hinherited := ((hlinked k draft' t hdraft' ht.place).inherited j).2 ⟨x, hxt.mem_pairs, r, hbefore⟩
    exact hinherits k hplace draft' hdraft' j hinherited draft hsame code hcode

end Builder

/-! ### The index of a graph and the next deeper one -/

namespace Index

variable {g : Graph} {o : Options} {p : Partition} {index deeper : Index}

/-- Some block of the index has the pair. -/
def Covers (index : Index) (x : Pair) : Prop := ∃ block ∈ index.blocks, x ∈ block.pairs

/-- Some block of the index has both pairs. -/
def Shares (index : Index) (x y : Pair) : Prop :=
  ∃ block ∈ index.blocks, x ∈ block.pairs ∧ y ∈ block.pairs

/-- Deepening only refines, as long as there are ids for all runs. The deeper index covers every pair that
    the shallow one covers. Of two pairs that share a block of the deeper index the shallow one covers both,
    in one block, or none. And wherever a pair goes, the labels of its block go with it, and the codes of
    the cores, if there are any. -/
theorem build_refines (h : (build g o).result = .ok index)
    (h' : (build g { o with depth := o.depth + 1 }).result = .ok deeper)
    (hpart : (Partition.build g (o.depth + 1)).result = .ok p) (hcount : p.runCount < UInt32.size) :
    (∀ x, index.Covers x → deeper.Covers x) ∧
    (∀ x y, deeper.Shares x y → index.Covers x → index.Shares x y) ∧
    ∀ block ∈ index.blocks, ∀ block' ∈ deeper.blocks, ∀ x ∈ block.pairs, x ∈ block'.pairs →
      (∀ ls ∈ block.labels, ls ∈ block'.labels) ∧
      (o.cores = true → ∀ code ∈ block.coreHashes, code ∈ block'.coreHashes) := by
  obtain ⟨q, hpart'⟩ := exists_partition_of_build h
  obtain ⟨hq, hqdepth⟩ := Partition.layered_of_build hpart'
  obtain ⟨hp, hpdepth⟩ := Partition.layered_of_build hpart
  obtain ⟨b, hb, hblocks⟩ := exists_ofPartition_of_build hpart' h
  obtain ⟨b', hb', hblocks'⟩ := exists_ofPartition_of_build hpart h'
  have hd : q.Deepened p := hq.deepened hp (by rw [hpdepth, hqdepth])
  have hcount := Nat.le_sub_one_of_lt hcount
  have hbuilt := Builder.built_of_ofPartition hb
  have hbuilt' := Builder.built_of_ofPartition hb'
  simp only [Covers, Shares, hblocks, hblocks']
  refine ⟨?_, ?_, ?_⟩
  · rintro x ⟨block, hblock, hx⟩
    obtain ⟨j, r, hr⟩ := Builder.comesFrom_of_mem_finish hq hbuilt hblock
    have hmem := (hd.prefix_runsUpTo List.prefix_rfl).subset (List.mem_of_getElem? hr.place)
    obtain ⟨k, t, ht⟩ := LayerRun.exists_newest hmem ((hr.mem_pairs x).1 hx).mem_pairs
    exact Builder.exists_mem_finish hbuilt' ht
  · rintro x y ⟨block', hblock', hx', hy'⟩ ⟨block, hblock, hx⟩
    obtain ⟨j, r, hr⟩ := Builder.comesFrom_of_mem_finish hq hbuilt hblock
    obtain ⟨k, t, ht⟩ := Builder.comesFrom_of_mem_finish hp hbuilt' hblock'
    have hy := hd.newest_of_newest hp hcount ((ht.mem_pairs x).1 hx') ((ht.mem_pairs y).1 hy')
      ((hr.mem_pairs x).1 hx)
    exact ⟨block, hblock, hx, (hr.mem_pairs y).2 hy⟩
  · intro block hblock block' hblock' x hx hx'
    constructor
    · intro ls hls
      exact Builder.labels_subset_of_deepened hq hp hd hb hb' hcount hblock hblock' hx hx' hls
    · intro hcores code hcode
      simp only [hcores, if_true] at hb hb'
      exact Builder.hashes_subset_of_deepened hq hp hd hb hb' hblock hblock' hx hx' hcode

/-- Both steps along the only label are still in one block when walks of two steps are indexed too. -/
theorem build_refines_two_steps : ∃ index deeper,
    (build twoSteps { blocksOnly with depth := 1 }).result = .ok index ∧
    (build twoSteps blocksOnly).result = .ok deeper ∧
    deeper.Shares ⟨0, 1⟩ ⟨1, 2⟩ ∧ index.Covers ⟨0, 1⟩ ∧ index.Shares ⟨0, 1⟩ ⟨1, 2⟩ := by
  obtain ⟨p, hpart, hcount⟩ := exists_ok_of_any (x := (Partition.build twoSteps 2).result)
    (f := fun p => decide (p.runCount < UInt32.size)) (by cbv)
  obtain ⟨index, h, hcovers⟩ := exists_ok_of_any
    (x := (build twoSteps { blocksOnly with depth := 1 }).result)
    (f := fun index => index.blocks.any fun block => block.pairs.contains ⟨0, 1⟩) (by cbv)
  obtain ⟨deeper, h', hshares⟩ := exists_ok_of_any (x := (build twoSteps blocksOnly).result)
    (f := fun index => index.blocks.any fun block =>
      block.pairs.contains ⟨0, 1⟩ && block.pairs.contains ⟨1, 2⟩) (by cbv)
  have hcovers : index.Covers ⟨0, 1⟩ := by
    simpa [Covers] using hcovers
  have hshares : deeper.Shares ⟨0, 1⟩ ⟨1, 2⟩ := by
    simpa [Shares] using hshares
  have hrefines := build_refines h h' hpart (of_decide_eq_true hcount)
  exact ⟨index, deeper, h, h', hshares, hcovers, hrefines.2.1 _ _ hshares hcovers⟩

end Index

end PathQueryIndex
