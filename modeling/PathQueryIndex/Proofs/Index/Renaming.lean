/-
Module: PathQueryIndex.Proofs.Index.Renaming
Layer: Proofs
Purpose: What becomes of an index when the vertices of its graph are renamed. The two constructions go side
  by side. Their runs correspond from left to right, with the image of the pairs of the one as the pairs of
  the other, so that a pair is held by the draft with the number that its image is held by. Drafts of one
  number are then linked to drafts of the same numbers, and everything that is computed from labels and
  links, the cores of a draft and the errors on the way to them included, is computed from the same data.
Imports: PathQueryIndex.Proofs.Index.Blocks, PathQueryIndex.Proofs.Index.Links,
  PathQueryIndex.Proofs.Partition.Renaming
Main exports: LayerRun.Renamed, Block.Renamed, Draft.Renamed, Builder.Renamed, Builder.alike_ofPartition,
  Index.Renamed, Index.build_rename
-/
import PathQueryIndex.Proofs.Index.Blocks
import PathQueryIndex.Proofs.Index.Links
import PathQueryIndex.Proofs.Partition.Renaming

namespace PathQueryIndex

open Std

/-! ### Related lists -/

section Related

variable {α β : Type} {R : α → β → Prop} {xs : List α} {ys : List β}

theorem forall₂_getD (h : List.Forall₂ R xs ys) {x : α} {y : β} (hxy : R x y) (i : Nat) :
    R (xs[i]?.getD x) (ys[i]?.getD y) := by
  induction h generalizing i with
  | nil => exact hxy
  | cons hab _ ih =>
      cases i with
      | zero => exact hab
      | succ i => exact ih i

theorem forall₂_set (h : List.Forall₂ R xs ys) {x : α} {y : β} (hxy : R x y) (i : Nat) :
    List.Forall₂ R (xs.set i x) (ys.set i y) := by
  induction h generalizing i with
  | nil => exact .nil
  | cons hab hrest ih =>
      cases i with
      | zero => exact .cons hxy hrest
      | succ i => exact .cons hab (ih i)

theorem forall₂_zipIdx (h : List.Forall₂ R xs ys) (n : Nat) :
    List.Forall₂ (fun a b => R a.1 b.1 ∧ a.2 = b.2) (xs.zipIdx n) (ys.zipIdx n) := by
  induction h generalizing n with
  | nil => exact .nil
  | cons hab _ ih => exact .cons ⟨hab, rfl⟩ (ih (n + 1))

theorem forall₂_of_getElem? (h : List.Forall₂ R xs ys) {i : Nat} {y : β} (hy : ys[i]? = some y) :
    ∃ x, xs[i]? = some x ∧ R x y := by
  induction h generalizing i with
  | nil => cases hy
  | cons hab _ ih =>
      cases i with
      | zero =>
          cases hy
          exact ⟨_, rfl, hab⟩
      | succ i => exact ih hy

end Related

/-! ### Renamed runs -/

variable {f : Equiv.Perm Vertex} {g g' : Graph} {p p' : Partition} {i j k m n : Nat} {r r' : LayerRun}

/-- Run `r'` is run `r` with its vertices renamed: it has the images of the pairs, in some order, and their
    first segments match and have the same labels. -/
structure LayerRun.Renamed (f : Equiv.Perm Vertex) (r r' : LayerRun) : Prop where
  layer_eq : r.layer = r'.layer
  id_eq : r.id = r'.id
  pairs : (r.pairs.map (Pair.rename f)).Perm r'.pairs
  heads : ∃ s s', r.segments.head? = some s ∧ r'.segments.head? = some s' ∧
    s.Matches r.layer s' ∧ s.labels = s'.labels

namespace Partition.Layered

variable (hp : p.Layered g) (hp' : p'.Layered g') (hg : g.Renamed f g') {run run' : List Segment}
  {s t : Segment}

include hp hp' hg

/-- The image of a pair of a run is a pair of the corresponding run. -/
theorem mem_pairs_of_matches (hi : i < p.depth) (hi' : i < p'.depth) (hlayer : RenamedAt f p p' i)
    (hrun : run ∈ p.runsOf i) (hrun' : run' ∈ p'.runsOf i)
    (h : List.Forall₂ (Segment.Matches i) run run') (hs : s ∈ run) :
    ∃ s' ∈ run', s'.pair = s.pair.rename f := by
  have hmem := mem_layer_of_mem_run hrun hs
  rcases hp.exists_image hp' hg hi hi' hmem with ⟨s', hs', hpair⟩
  rcases exists_of_mem_left h hs with ⟨t', ht', hst⟩
  have hid : t'.id = s'.id := hst.id_eq.symm.trans (hlayer.image s hmem s' hs' hpair).id_eq
  exact ⟨s', hp'.mem_run_of_id_eq hi' hrun' ht' hs' hid, hpair⟩

/-- Runs that match from left to right are renamed. -/
theorem renamed_run (hi : i < p.depth) (hi' : i < p'.depth) (hlayer : RenamedAt f p p' i)
    (hrun : run ∈ p.runsOf i) (hrun' : run' ∈ p'.runsOf i)
    (h : List.Forall₂ (Segment.Matches i) run run') :
    LayerRun.Renamed f ⟨i, run⟩ ⟨i, run'⟩ := by
  have hr : ⟨i, run⟩ ∈ p.runsUpTo p.depth := mem_runsUpTo.2 ⟨hi, hrun⟩
  have hr' : ⟨i, run'⟩ ∈ p'.runsUpTo p'.depth := mem_runsUpTo.2 ⟨hi', hrun'⟩
  have hpairs : ((LayerRun.pairs ⟨i, run⟩).map (Pair.rename f)).Perm (LayerRun.pairs ⟨i, run'⟩) := by
    have hnodup := (hp.nodup_pairs_run (Nat.le_refl _) hr).map (Pair.rename_injective f)
    have hnodup' := hp'.nodup_pairs_run (Nat.le_refl _) hr'
    refine (List.perm_ext_iff_of_nodup hnodup hnodup').2 fun pair => ?_
    simp only [LayerRun.pairs, List.mem_map, exists_exists_and_eq_and]
    constructor
    · rintro ⟨s, hs, rfl⟩
      exact hp.mem_pairs_of_matches hp' hg hi hi' hlayer hrun hrun' h hs
    · rintro ⟨s', hs', rfl⟩
      have hflip : List.Forall₂ (Segment.Matches i) run' run := (h.imp fun _ _ h => h.symm).flip
      rcases hp'.mem_pairs_of_matches hp hg.symm hi' hi hlayer.symm hrun' hrun hflip hs' with
        ⟨s, hs, hpair⟩
      exact ⟨s, hs, (Pair.eq_rename_symm_iff.1 hpair).symm⟩
  cases h with
  | nil => exact absurd rfl (ne_nil_of_mem_runs hrun)
  | @cons s s' rest rest' hss _ =>
      have hs := mem_layer_of_mem_run hrun (List.mem_cons_self ..)
      have hs' := mem_layer_of_mem_run hrun' (List.mem_cons_self ..)
      rcases hp.exists_image hp' hg hi hi' hs with ⟨t', ht', hpair⟩
      have hlabels : s.labels = s'.labels := by
        -- the image of the first pair need not be the first pair of the other run
        have hkey := TransCmp.eq_trans (OrientedCmp.eq_symm (hlayer.image s hs t' ht' hpair).key_eq)
          hss.key_eq
        rw [hp.labels_eq_of_image hp' hg hi hi' hs ht' hpair]
        exact hp'.labels_eq_of_same hi' ht' hs' (Segment.same_iff.2 hkey)
      exact ⟨rfl, hss.id_eq, hpairs, s, s', rfl, rfl, hss, hlabels⟩

/-- The runs of a layer correspond from left to right. -/
theorem forall₂_renamed_runsOf (hi : i < p.depth) (hi' : i < p'.depth) :
    List.Forall₂ (fun run run' => LayerRun.Renamed f ⟨i, run⟩ ⟨i, run'⟩) (p.runsOf i)
      (p'.runsOf i) := by
  have hlayer := (hp.renamedAt hp' hg hi hi').2
  have hruns : List.Forall₂ (List.Forall₂ (Segment.Matches i)) (p.runsOf i) (p'.runsOf i) := by
    refine forall₂_runs (fun a b x y hax hby => ?_) hlayer.aligned
    rw [hax.id_eq, hby.id_eq]
  exact forall₂_imp_of_mem hruns fun run hrun run' hrun' h =>
    hp.renamed_run hp' hg hi hi' hlayer hrun hrun' h

theorem forall₂_renamed_runsUpTo (hn : n ≤ p.depth) (hn' : n ≤ p'.depth) :
    List.Forall₂ (LayerRun.Renamed f) (p.runsUpTo n) (p'.runsUpTo n) := by
  induction n with
  | zero => exact .nil
  | succ n ih =>
      rw [runsUpTo_succ, runsUpTo_succ]
      refine List.rel_append (ih (Nat.le_of_succ_le hn) (Nat.le_of_succ_le hn')) ?_
      rw [List.forall₂_map_left_iff, List.forall₂_map_right_iff]
      exact hp.forall₂_renamed_runsOf hp' hg hn hn'

/-- Segments with one id stand in runs with one number. -/
theorem place_eq_of_ownedBy (hdepth : p.depth = p'.depth) {ref ref' : SegmentRef}
    (hs : (p.layer ref.layer)[ref.index]? = some s) (ht : (p'.layer ref'.layer)[ref'.index]? = some t)
    (hid : s.id = t.id) (h : p.OwnedBy ref j) (h' : p'.OwnedBy ref' k) : j = k := by
  rcases h with ⟨r, x, hr, _, hx, hmem⟩
  rcases h' with ⟨r', y, hr', _, hy, hmem'⟩
  rw [hs] at hx
  rw [ht] at hy
  cases hx
  cases hy
  have hruns := hp.forall₂_renamed_runsUpTo hp' hg (Nat.le_refl _) (Nat.le_of_eq hdepth)
  rw [← hdepth] at hr'
  rcases forall₂_of_getElem? hruns hr' with ⟨u, hu, hur⟩
  have hrid := id_eq_of_mem_segments (List.mem_of_getElem? hr) hmem
  have hrid' := id_eq_of_mem_segments (List.mem_of_getElem? hr') hmem'
  exact hp.place_eq_of_id_eq (Nat.le_refl _) hr hu
    (hrid.symm.trans (hid.trans (hrid'.trans hur.id_eq.symm)))

end Partition.Layered

/-! ### Renamed drafts -/

/-- Block `b'` is block `b` with its vertices renamed: it has the images of the pairs, in some order, and all
    the rest is the same. -/
structure Block.Renamed (f : Vertex → Vertex) (b b' : Block) : Prop where
  id_eq : b.id = b'.id
  layer_eq : b.layer = b'.layer
  labels_eq : b.labels = b'.labels
  cores_eq : b.cores = b'.cores
  coreHashes_eq : b.coreHashes = b'.coreHashes
  pairs : (b.pairs.map (Pair.rename f)).Perm b'.pairs

/-- A draft with its vertices renamed is linked to drafts of the same numbers. -/
structure Draft.Renamed (f : Vertex → Vertex) (d d' : Draft) : Prop where
  block : d.block.Renamed f d'.block
  inherited_eq : d.inherited = d'.inherited
  joins_eq : d.joins = d'.joins
  isLoop_eq : d.block.isLoop = d'.block.isLoop

theorem Draft.renamed_default (f : Vertex → Vertex) : Draft.Renamed f default default :=
  ⟨⟨rfl, rfl, rfl, rfl, rfl, .nil⟩, rfl, rfl, rfl⟩

theorem Draft.Renamed.withCores {d d' : Draft} (h : d.Renamed f d') (set : CoreSet) :
    (d.withCores set).Renamed f (d'.withCores set) :=
  ⟨⟨h.block.id_eq, h.block.layer_eq, h.block.labels_eq, rfl, rfl, h.block.pairs⟩, h.inherited_eq,
    h.joins_eq, h.isLoop_eq⟩

namespace Builder

variable {b b' : Builder} {d d' : Draft} {c : Canonicalizer} {limit : Option Nat} {last : Bool}

/-- Builder `b'` has the drafts of builder `b` with the vertices renamed, and the image of a pair is held by
    the draft with the number that the pair is held by. -/
structure Renamed (f : Equiv.Perm Vertex) (b b' : Builder) : Prop where
  drafts : List.Forall₂ (Draft.Renamed f) b.drafts.toList b'.drafts.toList
  holder : ∀ pair : Pair, b'.holder[pair.rename f]? = b.holder[pair]?
  finals_eq : b.finals = b'.finals
  requests_eq : b.requests = b'.requests

namespace Renamed

theorem empty (f : Equiv.Perm Vertex) : Renamed f empty empty where
  drafts := .nil
  holder := fun _ => rfl
  finals_eq := rfl
  requests_eq := rfl

variable (hb : b.Renamed f b')

include hb

theorem size_eq : b.drafts.size = b'.drafts.size := hb.drafts.length_eq

theorem getD_drafts (i : Nat) : (b.drafts.getD i default).Renamed f (b'.drafts.getD i default) := by
  rw [Array.getD_eq_getD_getElem?, Array.getD_eq_getD_getElem?, ← Array.getElem?_toList,
    ← Array.getElem?_toList]
  exact forall₂_getD hb.drafts (Draft.renamed_default f) i

/-! ### One more draft -/

/-- A run takes pairs over from the drafts that a renamed run takes them over from. -/
theorem inherited_eq {pairs pairs' : List Pair} (h : (pairs.map (Pair.rename f)).Perm pairs') :
    OrderedSet.ofList (pairs.filterMap fun pair => b.holder[pair]?) =
      .ofList (pairs'.filterMap fun pair => b'.holder[pair]?) := by
  have hperm := h.filterMap fun pair => b'.holder[pair]?
  rw [List.filterMap_map] at hperm
  apply OrderedSet.ext_mem
  intro i
  rw [OrderedSet.mem_ofList, OrderedSet.mem_ofList, ← hperm.mem_iff]
  simp [hb.holder]

/-- The new holder of the pairs of a run, if there is one, is that of their images. -/
theorem holder_foldl {pairs pairs' : List Pair} (h : (pairs.map (Pair.rename f)).Perm pairs')
    (number : Nat) (pair : Pair) :
    (pairs'.foldl (fun h p => if last then h.erase p else h.insert p number) b'.holder)[pair.rename f]? =
      (pairs.foldl (fun h p => if last then h.erase p else h.insert p number) b.holder)[pair]? := by
  have hmem : pair.rename f ∈ pairs' ↔ pair ∈ pairs := by
    rw [← h.mem_iff]
    exact List.mem_map_of_injective (Pair.rename_injective f)
  cases last with
  | true => simp [getElem?_foldl_erase, hmem, hb.holder]
  | false => simp [getElem?_foldl_insert_const, hmem, hb.holder]

end Renamed

section Step

variable (hp : p.Layered g) (hp' : p'.Layered g') (hg : g.Renamed f g') (hdepth : p.depth = p'.depth)

include hp hp' hg hdepth

/-- Looking up segments with one id gives one number. -/
theorem owner_eq_of_id_eq (ho : b.Owned p n) (ho' : b'.Owned p' n) {ref ref' : SegmentRef}
    {s t : Segment} (hlayer : ref.layer < n) (hlayer' : ref'.layer < n)
    (hs : (p.layer ref.layer)[ref.index]? = some s) (ht : (p'.layer ref'.layer)[ref'.index]? = some t)
    (hid : s.id = t.id) : b.owner ref = b'.owner ref' := by
  rcases ho.exists_owner ref s hlayer hs with ⟨j, hj, howned⟩
  rcases ho'.exists_owner ref' t hlayer' ht with ⟨k, hk, howned'⟩
  rw [hj, hk, hp.place_eq_of_ownedBy hp' hg hdepth hs ht hid howned howned']

/-- Matching segments are joined of drafts with the same numbers. -/
theorem joins_eq_of_matches (ho : b.Owned p n) (ho' : b'.Owned p' n) (hn : n < p.depth)
    {s t : Segment} (hs : s ∈ p.layer n) (ht : t ∈ p'.layer n) (h : s.Matches n t) :
    s.splits.toList.mapM b.joinOf = t.splits.toList.mapM b'.joinOf := by
  cases n with
  | zero => rw [hp.splits_eq_empty hs, hp'.splits_eq_empty ht]; rfl
  | succ i =>
      have hids : List.Forall₂ (fun x y : Split => x.ids = y.ids) s.splits.toList t.splits.toList := by
        have heq := h.split_ids_eq
        rwa [← List.forall₂_eq_eq_eq, List.forall₂_map_left_iff, List.forall₂_map_right_iff] at heq
      refine mapM_eq_of_forall₂ (forall₂_imp_of_mem hids fun x hx y hy hxy => ?_)
      rcases hp.exists_of_mem_splits hn hs hx with ⟨s₁, s₂, hs₁, hs₂, hsum, _, _, hxids⟩
      rcases hp'.exists_of_mem_splits (hdepth ▸ hn) ht hy with
        ⟨t₁, t₂, ht₁, ht₂, hsum', _, _, hyids⟩
      rcases Prod.mk.inj (hxids.symm.trans (hxy.trans hyids)) with ⟨hfirst, hsecond⟩
      rw [joinOf, joinOf,
        owner_eq_of_id_eq hp hp' hg hdepth ho ho' (by omega) (by omega) hs₁ ht₁ hfirst,
        owner_eq_of_id_eq hp hp' hg hdepth ho ho' (by omega) (by omega) hs₂ ht₂ hsecond]

/-- The step: one more draft in both. -/
theorem Renamed.alike_addBlock (hb : b.Renamed f b') (ho : b.Owned p r.layer) (ho' : b'.Owned p' r.layer)
    (hr : r ∈ p.runsUpTo p.depth) (hr' : r' ∈ p'.runsUpTo p'.depth) (hrun : LayerRun.Renamed f r r') :
    Alike (fun d d' => d.Renamed f d' ∧ d.owners = b.owners ∧ d'.owners = b'.owners ∧
        d.drafts.size = b.drafts.size + 1)
      (addBlock r.layer last b r.segments) (addBlock r.layer last b' r'.segments) := by
  rcases hrun.heads with ⟨s, s', hhead, hhead', hmatches, hlabels⟩
  rcases List.head?_eq_some_iff.1 hhead with ⟨rest, hrest⟩
  rcases List.head?_eq_some_iff.1 hhead' with ⟨rest', hrest'⟩
  rcases Partition.mem_runsUpTo.1 hr with ⟨hlayer, hmem⟩
  have hmem' := (Partition.mem_runsUpTo.1 hr').2
  rw [← hrun.layer_eq] at hmem'
  have hs := Partition.mem_layer_of_mem_run hmem (List.mem_of_head? hhead)
  have hs' := Partition.mem_layer_of_mem_run hmem' (List.mem_of_head? hhead')
  have hjoins := joins_eq_of_matches hp hp' hg hdepth ho ho' hlayer hs hs' hmatches
  have hinherited := hb.inherited_eq hrun.pairs
  have hpairs := hrun.pairs
  have hdraftLabels : ∀ i,
      (b.drafts.getD i default).block.labels = (b'.drafts.getD i default).block.labels :=
    fun i => (hb.getD_drafts i).block.labels_eq
  rw [LayerRun.pairs, LayerRun.pairs] at hinherited hpairs
  rw [hrest, hrest'] at hinherited hpairs ⊢
  simp only [addBlock, hjoins, hlabels, hinherited, hdraftLabels, hmatches.id_eq, hb.size_eq,
    hb.finals_eq]
  refine (Alike.refl _).bind fun joins _ hsame => ?_
  subst hsame
  have hloop : (Segment.pair s).isLoop = (Segment.pair s').isLoop := hmatches.isLoop_eq
  refine .ok ⟨⟨?_, hb.holder_foldl hpairs _, rfl, hb.requests_eq⟩, rfl, rfl, ?_⟩
  · simp only [Array.toList_push]
    exact List.rel_append hb.drafts
      (.cons ⟨⟨rfl, rfl, rfl, rfl, rfl, hpairs⟩, rfl, rfl, hloop⟩ .nil)
  · rw [Array.size_push, hb.size_eq]

end Step

/-! ### Cores -/

/-- Renamed drafts have the same cores: these are computed from labels and from the cores of the drafts that
    they are linked to. -/
theorem Renamed.coresOf_eq (hb : b.Renamed f b') (hd : d.Renamed f d') :
    b.coresOf c limit d = b'.coresOf c limit d' := by
  have hcores : ∀ i, (b.drafts.getD i default).block.cores = (b'.drafts.getD i default).block.cores :=
    fun i => (hb.getD_drafts i).block.cores_eq
  simp only [coresOf, baseCores, hcores, hb.requests_eq, hd.joins_eq, hd.inherited_eq, hd.isLoop_eq,
    hd.block.labels_eq]

/-- The step: the cores of one draft. -/
theorem Renamed.alike_addCores (hb : b.Renamed f b') (number : Nat) :
    Alike (fun e e' => e.Renamed f e' ∧ e.owners = b.owners ∧ e'.owners = b'.owners ∧
        e.drafts.size = b.drafts.size)
      (b.addCores c limit number) (b'.addCores c limit number) := by
  have hd := hb.getD_drafts number
  simp only [addCores, hb.coresOf_eq hd]
  refine (Alike.refl _).bind fun set _ hsame => ?_
  subst hsame
  refine .ok ⟨⟨?_, hb.holder, hb.finals_eq, rfl⟩, rfl, rfl, Array.size_setIfInBounds⟩
  simp only [Array.toList_setIfInBounds]
  exact forall₂_set hb.drafts (hd.withCores set) number

/-! ### The whole construction -/

/-- The two constructions side by side: the segments of the first `n` layers are looked up, and there are
    `size` drafts. -/
structure Aligned (f : Equiv.Perm Vertex) (p p' : Partition) (n size : Nat) (b b' : Builder) :
    Prop where
  renamed : b.Renamed f b'
  owned : b.Owned p n
  owned' : b'.Owned p' n
  size_eq : b.drafts.size = size

theorem aligned_empty (f : Equiv.Perm Vertex) (p p' : Partition) : Aligned f p p' 0 0 empty empty where
  renamed := .empty f
  owned := owned_empty p
  owned' := owned_empty p'
  size_eq := rfl

/-- The cores of a layer. -/
theorem Aligned.alike_addLayerCores (hb : Aligned f p p' n m b b') (layer : Nat) {first first' : Nat}
    (hfirst : first = first') :
    Alike (Aligned f p p' n m) (b.addLayerCores c limit layer first).result
      (b'.addLayerCores c limit layer first').result := by
  subst hfirst
  simp only [addLayerCores, Traced.result_bind, Traced.result_emit, Traced.result_pure,
    Traced.result_foldlM, Traced.result_lift, hb.renamed.size_eq]
  refine (Alike.foldlM (motive := fun _ => Aligned f p p' n m) rfl ?_ hb).bind fun _ _ h => .ok h
  intro k x y d d' hx hy hd
  obtain rfl : x = y := Option.some.inj (hx.symm.trans hy)
  refine ((hd.renamed.alike_addCores _).bind fun e e' he => .ok ?_)
  exact ⟨he.1, hd.owned.congr he.2.1, hd.owned'.congr he.2.2.1, he.2.2.2.trans hd.size_eq⟩

section Layers

variable (hp : p.Layered g) (hp' : p'.Layered g') (hg : g.Renamed f g') (hdepth : p.depth = p'.depth)

include hp hp' hg hdepth

/-- The drafts of a layer. -/
theorem Aligned.alike_addBlocks (hb : Aligned f p p' n (p.runsUpTo n).length b b') (hn : n < p.depth) :
    Alike (Aligned f p p' n (p.runsUpTo (n + 1)).length) ((p.runsOf n).foldlM (addBlock n last) b)
      ((p'.runsOf n).foldlM (addBlock n last) b') := by
  have hruns := hp.forall₂_renamed_runsOf hp' hg hn (hdepth ▸ hn)
  have hlen : (p.runsUpTo (n + 1)).length = (p.runsUpTo n).length + (p.runsOf n).length := by
    rw [Partition.runsUpTo_succ, List.length_append, List.length_map]
  rw [hlen]
  refine Alike.foldlM (motive := fun k => Aligned f p p' n ((p.runsUpTo n).length + k))
    hruns.length_eq ?_ hb
  intro k run run' d d' hrun hrun' hd
  have hr : ⟨n, run⟩ ∈ p.runsUpTo p.depth :=
    Partition.mem_runsUpTo.2 ⟨hn, List.mem_of_getElem? hrun⟩
  have hr' : ⟨n, run'⟩ ∈ p'.runsUpTo p'.depth :=
    Partition.mem_runsUpTo.2 ⟨hdepth ▸ hn, List.mem_of_getElem? hrun'⟩
  have hrenamed : LayerRun.Renamed f ⟨n, run⟩ ⟨n, run'⟩ := by
    rcases forall₂_of_getElem? hruns hrun' with ⟨other, hother, h⟩
    rw [hrun] at hother
    cases hother
    exact h
  refine (Renamed.alike_addBlock hp hp' hg hdepth hd.renamed hd.owned hd.owned' hr hr' hrenamed).imp
    fun e e' he => ?_
  exact ⟨he.1, hd.owned.congr he.2.1, hd.owned'.congr he.2.2.1,
    he.2.2.2.trans (congrArg (· + 1) hd.size_eq)⟩

/-- The step: one more layer. -/
theorem Aligned.alike_addLayer {oc : Option Canonicalizer}
    (hb : Aligned f p p' n (p.runsUpTo n).length b b') (hn : n < p.depth) :
    Alike (Aligned f p p' (n + 1) (p.runsUpTo (n + 1)).length) (addLayer oc limit p b n).result
      (addLayer oc limit p' b' n).result := by
  have hruns := hp.forall₂_renamed_runsUpTo hp' hg (Nat.le_of_lt hn) (hdepth ▸ Nat.le_of_lt hn)
  have hfirst : b'.drafts.size = (p'.runsUpTo n).length :=
    hb.renamed.size_eq.symm.trans (hb.size_eq.trans hruns.length_eq)
  simp only [addLayer, Traced.result_bind, Traced.result_emit, Traced.result_lift, hb.size_eq, hfirst,
    ← hdepth]
  refine (hb.alike_addBlocks hp hp' hg hdepth hn).bind fun d d' hd => ?_
  have howned : Aligned f p p' (n + 1) (p.runsUpTo (n + 1)).length
      { d with owners := d.owners.push (layerOwners p n) }
      { d' with owners := d'.owners.push (layerOwners p' n) } :=
    ⟨⟨hd.renamed.drafts, hd.renamed.holder, hd.renamed.finals_eq, hd.renamed.requests_eq⟩,
      hd.owned.push hn, hd.owned'.push (hdepth ▸ hn), hd.size_eq⟩
  cases oc with
  | none => exact .ok howned
  | some c => exact howned.alike_addLayerCores n hruns.length_eq

/-- The run: all layers. -/
theorem alike_ofPartition (oc : Option Canonicalizer) (limit : Option Nat) :
    Alike (fun b b' => b.Renamed f b') (ofPartition oc limit p).result
      (ofPartition oc limit p').result := by
  rw [ofPartition, ofPartition, Traced.result_foldlM, Traced.result_foldlM, ← hdepth]
  refine (Alike.foldlM (motive := fun k => Aligned f p p' k (p.runsUpTo k).length) rfl ?_
    (aligned_empty f p p')).imp fun _ _ h => h.renamed
  intro k x y b b' hx hy hb
  rcases List.getElem?_eq_some_iff.1 hx with ⟨hk, rfl⟩
  rcases List.getElem?_eq_some_iff.1 hy with ⟨_, rfl⟩
  rw [List.length_range] at hk
  rw [List.getElem_range]
  exact hb.alike_addLayer hp hp' hg hdepth hk

end Layers

/-! ### The finished blocks -/

section Finish

variable (hb : b.Renamed f b')

include hb

/-- A draft still holds the images of the pairs that the other draft still holds. -/
theorem Renamed.perm_held (hd : d.Renamed f d') (i : Nat) :
    ((d.block.pairs.filter fun pair => b.holder[pair]? == some i).map (Pair.rename f)).Perm
      (d'.block.pairs.filter fun pair => b'.holder[pair]? == some i) := by
  have hperm := hd.block.pairs.filter fun pair => b'.holder[pair]? == some i
  rw [List.filter_map] at hperm
  have hheld : ((fun pair => b'.holder[pair]? == some i) ∘ Pair.rename f) =
      fun pair => b.holder[pair]? == some i := by
    funext pair
    rw [Function.comp_apply, hb.holder]
  rwa [hheld] at hperm

/-- The finished blocks correspond from left to right. -/
theorem Renamed.forall₂_finish : List.Forall₂ (Block.Renamed f) b.finish b'.finish := by
  rw [finish, finish, ← hb.finals_eq]
  refine List.rel_append ?_ (List.rel_filterMap ?_ (forall₂_zipIdx hb.drafts 0))
  · rw [List.forall₂_map_left_iff, List.forall₂_map_right_iff, List.forall₂_same]
    exact fun i _ => (hb.getD_drafts i).block
  · rintro ⟨d, i⟩ ⟨d', j⟩ ⟨hd, rfl⟩
    have hheld := hb.perm_held hd i
    have hempty : (d.block.pairs.filter fun pair => b.holder[pair]? == some i).isEmpty =
        (d'.block.pairs.filter fun pair => b'.holder[pair]? == some i).isEmpty := by
      rw [Bool.eq_iff_iff, List.isEmpty_iff_length_eq_zero, List.isEmpty_iff_length_eq_zero,
        ← hheld.length_eq, List.length_map]
    simp only [hempty]
    split
    · exact .none
    · exact .some ⟨hd.block.id_eq, hd.block.layer_eq, hd.block.labels_eq, hd.block.cores_eq,
        hd.block.coreHashes_eq, hheld⟩

end Finish

end Builder

/-! ### Renamed indexes -/

namespace Index

variable {o : Options}

/-- Index `x'` is index `x` with the vertices renamed: it has the same blocks in the same order, each with the
    images of its pairs, and finds the same places for each core. -/
structure Renamed (f : Vertex → Vertex) (x x' : Index) : Prop where
  depth_eq : x.depth = x'.depth
  hasCores_eq : x.hasCores = x'.hasCores
  blocks : List.Forall₂ (Block.Renamed f) x.blocks x'.blocks
  coreTable_eq : x.coreTable = x'.coreTable

/-- The table of cores is one of codes and places. -/
theorem coreTable_eq_of_renamed {blocks blocks' : List Block} {f : Vertex → Vertex}
    (h : List.Forall₂ (Block.Renamed f) blocks blocks') :
    CoreTable.ofBlocks blocks = CoreTable.ofBlocks blocks' := by
  have hentries : List.Forall₂ Eq
      (blocks.zipIdx.flatMap fun x => x.1.coreHashes.toList.map fun h => (h, x.2))
      (blocks'.zipIdx.flatMap fun x => x.1.coreHashes.toList.map fun h => (h, x.2)) := by
    refine List.rel_flatMap (forall₂_zipIdx h 0) fun x x' hx => ?_
    rw [hx.1.coreHashes_eq, hx.2, List.forall₂_same]
    exact fun _ _ => rfl
  rw [List.forall₂_eq_eq_eq] at hentries
  rw [CoreTable.ofBlocks_eq, CoreTable.ofBlocks_eq, hentries]

/-- The indexes of the partitions of a graph and of a renamed one are alike. -/
theorem alike_assemble (hp : p.Layered g) (hp' : p'.Layered g') (hg : g.Renamed f g')
    (hdepth : p.depth = p'.depth) (c : Option Canonicalizer) :
    Alike (fun x x' => Renamed f x.1 x'.1) (assemble p o c).result (assemble p' o c).result := by
  have hzero : p.depth ≠ 0 := Nat.ne_of_gt hp.depth_pos
  have hbuilder := Builder.alike_ofPartition hp hp' hg hdepth (if o.cores then c else none)
    o.maxIntersections
  cases hcores : o.cores with
  | true =>
      rw [hcores] at hbuilder
      simp only [assemble, ← hdepth, if_neg hzero, hcores, Traced.result_bind, Traced.result_emit,
        if_true] at hbuilder ⊢
      refine hbuilder.bind fun b b' hb => .ok ⟨rfl, rfl, hb.forall₂_finish, ?_⟩
      exact coreTable_eq_of_renamed hb.forall₂_finish
  | false =>
      rw [hcores] at hbuilder
      simp only [assemble, ← hdepth, if_neg hzero, hcores, Traced.result_bind] at hbuilder ⊢
      refine hbuilder.bind fun b b' hb => .ok ⟨rfl, rfl, hb.forall₂_finish, ?_⟩
      exact coreTable_eq_of_renamed hb.forall₂_finish

/-- Renaming the vertices of a graph renames them in its index and changes nothing else: whatever the options
    are, either both constructions fail, with the same error, or both give the same blocks in the same order,
    with the same ids, layers, labels, cores and codes, and the pairs of each block are the images of those
    of the other. -/
theorem build_rename (g : Graph) (π : Equiv.Perm g.Vertices) (o : Options) :
    Alike (Renamed (Equiv.Perm.ofSubtype π)) (build g o).result (build (g.rename π) o).result := by
  simp only [build, ofPartition, Traced.result_bind, Traced.result_lift]
  refine (Alike.refl o.validate).bind fun _ _ _ => ?_
  refine (Partition.alike_build (g.renamed_rename π)).bind fun p p' hp => ?_
  refine (Alike.refl o.validate).bind fun _ _ _ => ?_
  refine (alike_assemble hp.1 hp.2.1 (g.renamed_rename π) hp.2.2 _).bind fun x x' hx => ?_
  exact .ok hx

end Index

end PathQueryIndex
