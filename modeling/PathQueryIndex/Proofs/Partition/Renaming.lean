/-
Module: PathQueryIndex.Proofs.Partition.Renaming
Layer: Proofs
Purpose: What becomes of a partition when the vertices of its graph are renamed. Pairs decide ties wherever
  segments are sorted, so a renaming changes the order of the segments inside a run and with it every place
  that a segment refers to. It changes nothing else: layer by layer, the segments of a pair and of its image
  have the same labels, the same ids in their splits, the same ancestor id and the same id, because all of
  this is told by walks and by earlier ids and not by numbers of vertices. So the two layers have the same
  ids from left to right, the last one included, and there are ids for the next layer of the one graph if
  and only if there are for that of the other.
Imports: PathQueryIndex.Proofs.Partition.Agreement, Mathlib.Algebra.Group.End,
  Mathlib.Data.List.Perm.Basic
Main exports: Pair.rename, Graph.rename, Graph.Renamed, Partition.RenamedAt,
  Partition.Layered.renamedAt, Partition.alike_build
-/
import PathQueryIndex.Proofs.Partition.Agreement
import Mathlib.Algebra.Group.End
import Mathlib.Data.List.Perm.Basic

namespace PathQueryIndex

open Std

/-! ### Renamed graphs -/

namespace Pair

/-- The pair with its vertices renamed. -/
def rename (f : Vertex → Vertex) (p : Pair) : Pair := ⟨f p.source, f p.target⟩

variable {f : Equiv.Perm Vertex} {p q : Pair}

@[simp] theorem source_rename : (p.rename f).source = f p.source := rfl

@[simp] theorem target_rename : (p.rename f).target = f p.target := rfl

@[simp] theorem rename_symm_rename : (p.rename f).rename f.symm = p := by
  simp [rename]

@[simp] theorem rename_rename_symm : (p.rename f.symm).rename f = p := by
  simp [rename]

theorem rename_injective (f : Equiv.Perm Vertex) : Function.Injective (rename f) :=
  Function.LeftInverse.injective fun _ => rename_symm_rename

theorem eq_rename_symm_iff : p = q.rename f.symm ↔ q = p.rename f := by
  constructor
  · rintro rfl
    exact rename_rename_symm.symm
  · rintro rfl
    exact rename_symm_rename.symm

@[simp] theorem isLoop_rename : (p.rename f).isLoop = p.isLoop := by
  rw [isLoop, isLoop, Bool.eq_iff_iff, beq_iff_eq, beq_iff_eq]
  exact f.apply_eq_iff_eq

end Pair

/-- The edge with its vertices renamed. -/
def Edge.rename (f : Vertex → Vertex) (e : Edge) : Edge := ⟨f e.source, f e.target, e.label⟩

namespace Graph

variable {f : Equiv.Perm Vertex} {g g' : Graph} {u v : Vertex} {ls : List Label} {n : Nat}

/-- The vertices of a graph. -/
abbrev Vertices (g : Graph) := {v : Vertex // v < g.vertexCount}

/-- The graph with its vertices renamed. -/
def rename (g : Graph) (π : Equiv.Perm g.Vertices) : Graph where
  vertexCount := g.vertexCount
  labelCount := g.labelCount
  edges := .ofList (g.edges.toList.map (Edge.rename (Equiv.Perm.ofSubtype π)))
  inBounds := by
    intro e he
    rcases List.mem_map.1 (OrderedSet.mem_ofList.1 he) with ⟨e, hmem, rfl⟩
    have h := g.inBounds e hmem
    exact ⟨⟨(Equiv.Perm.ofSubtype_apply_mem_iff_mem π e.source).2 h.1.1,
      (Equiv.Perm.ofSubtype_apply_mem_iff_mem π e.target).2 h.1.2⟩, h.2⟩

/-- Graph `g'` has the steps of graph `g` between the renamed vertices. -/
def Renamed (f : Equiv.Perm Vertex) (g g' : Graph) : Prop :=
  ∀ l u v, g'.Step l (f u) (f v) ↔ g.Step l u v

theorem renamed_rename (g : Graph) (π : Equiv.Perm g.Vertices) :
    g.Renamed (Equiv.Perm.ofSubtype π) (g.rename π) := by
  have hedge : ∀ e : Edge, e.rename (Equiv.Perm.ofSubtype π) ∈ (g.rename π).edges ↔ e ∈ g.edges := by
    have hinj : Function.Injective (Edge.rename (Equiv.Perm.ofSubtype π)) := by
      rintro ⟨a, b, l⟩ ⟨c, d, m⟩ h
      simpa [Edge.rename] using h
    intro e
    exact OrderedSet.mem_ofList.trans (List.mem_map_of_injective hinj)
  rintro ⟨id, inverse⟩ u v
  cases inverse with
  | false => exact hedge ⟨u, v, id⟩
  | true => exact hedge ⟨v, u, id⟩

namespace Renamed

variable (hg : g.Renamed f g')

include hg

theorem symm : g'.Renamed f.symm g := fun l u v => by
  rw [← hg, f.apply_symm_apply, f.apply_symm_apply]

theorem walk_iff : g'.Walk (f u) ls (f v) ↔ g.Walk u ls v := by
  induction ls generalizing u with
  | nil => simp
  | cons l ls ih =>
      rw [walk_cons, walk_cons, ← f.exists_congr_right]
      simp only [hg l, ih]

theorem joined_iff : g'.Joined n (f u) (f v) ↔ g.Joined n u v := by
  simp only [Joined, hg.walk_iff]

end Renamed

end Graph

/-! ### Segments that match -/

namespace Segment

variable {i n : Nat} {s t : Segment} {xs ys : List Segment}

/-- Two segments of one number of layer, from one partition or from two, have the same id and cannot be told
    apart. -/
structure Matches (i : Nat) (s t : Segment) : Prop where
  id_eq : s.id = t.id
  key_eq : compareKey i s t = .eq

namespace Matches

theorem symm (h : s.Matches i t) : t.Matches i s := ⟨h.id_eq.symm, OrientedCmp.eq_symm h.key_eq⟩

theorem isLoop_eq (h : s.Matches i t) : s.isLoop = t.isLoop := by
  have hsame := same_iff.2 h.key_eq
  cases i with
  | zero => exact beq_iff_eq.1 (Bool.and_eq_true_iff.1 hsame).2
  | succ i => exact beq_iff_eq.1 (Bool.and_eq_true_iff.1 hsame).2

/-- Segments that match have the same ids in their splits. -/
theorem split_ids_eq (h : s.Matches (i + 1) t) :
    s.splits.toList.map Split.ids = t.splits.toList.map Split.ids := by
  have hsame := same_iff.2 h.key_eq
  exact beq_iff_eq.1 (Bool.and_eq_true_iff.1 (Bool.and_eq_true_iff.1 hsame).1).1

end Matches

/-- Lists that compare equal are numbered alike, since a new id begins wherever keys differ. -/
theorem forall₂_matches_assignIds (h : List.Forall₂ (fun s t => compareKey i s t = .eq) xs ys) :
    List.Forall₂ (Matches i) (assignIds (same i) n xs) (assignIds (same i) n ys) := by
  induction h generalizing n with
  | nil => exact .nil
  | @cons s t xs ys hst hrest ih =>
      have hnumbered : ({ s with id := n } : Segment).Matches i { t with id := n } :=
        ⟨rfl, by rwa [compareKey_numbered, compareKey_numbered_right]⟩
      cases hrest with
      | nil => exact .cons hnumbered .nil
      | @cons u v xs ys huv _ =>
          have hsame : same i s u = same i t v := by
            rw [same_eq, same_eq, TransCmp.congr_left hst, TransCmp.congr_right huv]
          simp only [assignIds, hsame]
          exact .cons hnumbered ih

end Segment

namespace Partition.Layered

variable {g : Graph} {p : Partition} {i : Nat} {s t : Segment} {ls : LabelSequence} (hp : p.Layered g)

include hp

/-- A label sequence is put together in both segments if they have the same splits, provided that equal ids
    mean equal labels in the layers before. -/
theorem mem_labels_of_split_ids (hi : i + 1 < p.depth) (hs : s ∈ p.layer (i + 1))
    (ht : t ∈ p.layer (i + 1))
    (hsplits : s.splits.toList.map Split.ids = t.splits.toList.map Split.ids)
    (hlabels : ∀ j ≤ i, ∀ x ∈ p.layer j, ∀ y ∈ p.layer j, x.id = y.id → x.labels = y.labels)
    (h : ls ∈ s.labels) : ls ∈ t.labels := by
  rcases (hp.mem_labels_succ hi hs).1 h with ⟨x, hx, y, hy, hxy, hpair, as, has, bs, hbs, hls⟩
  have hids : (x.id, y.id) ∈ t.splits.toList.map Split.ids :=
    hsplits ▸ (hp.mem_split_ids_iff hi hs).2 ⟨i, 0, Nat.add_zero i, x, hx, y, hy, hxy, hpair, rfl⟩
  rcases (hp.mem_split_ids_iff hi ht).1 hids with
    ⟨k₁, k₂, hsum, x', hx', y', hy', hxy', hpair', heq⟩
  rcases Prod.mk.inj heq with ⟨hxid, hyid⟩
  obtain rfl := hp.eq_layer_of_id_eq (Nat.lt_of_succ_lt hi) (by omega) hx hx' hxid
  obtain rfl := hp.eq_layer_of_id_eq hp.depth_pos (by omega) hy hy' hyid
  rw [hlabels _ (Nat.le_refl _) x hx x' hx' hxid] at has
  rw [hlabels 0 (Nat.zero_le _) y hy y' hy' hyid] at hbs
  exact (hp.mem_labels_succ hi ht).2 ⟨x', hx', y', hy', hxy', hpair', as, has, bs, hbs, hls⟩

/-- Segments of a layer that cannot be told apart have the same labels. -/
theorem labels_eq_of_same (hi : i < p.depth) (hs : s ∈ p.layer i) (ht : t ∈ p.layer i)
    (h : Segment.same i s t = true) : s.labels = t.labels := by
  induction i using Nat.strongRecOn generalizing s t with
  | ind i ih =>
      cases i with
      | zero => exact OrderedSet.eq_of_toList_eq (eq_of_beq (Bool.and_eq_true_iff.1 h).1)
      | succ i =>
          have hsplits : s.splits.toList.map Split.ids = t.splits.toList.map Split.ids :=
            eq_of_beq (Bool.and_eq_true_iff.1 (Bool.and_eq_true_iff.1 h).1).1
          have hlabels : ∀ j ≤ i, ∀ x ∈ p.layer j, ∀ y ∈ p.layer j, x.id = y.id →
              x.labels = y.labels := by
            intro j hj x hx y hy hid
            have hlt := Nat.lt_succ_of_le hj
            have hsharp := hp.sharp_of_layer_lt hlt hi hx
            exact ih j hlt (Nat.lt_trans hlt hi) hx hy
              (hsharp j (Nat.lt_trans hlt hi) x hx y hy rfl hid.symm)
          refine OrderedSet.ext_mem fun ls => ⟨?_, ?_⟩
          · exact hp.mem_labels_of_split_ids hi hs ht hsplits hlabels
          · exact hp.mem_labels_of_split_ids hi ht hs hsplits.symm hlabels

end Partition.Layered

/-! ### Renamed layers -/

namespace Partition

variable {f : Equiv.Perm Vertex} {g g' : Graph} {p p' : Partition} {i j k : Nat} {s s' : Segment}

/-- Layer `i` of partition `p'` is that of partition `p` with the vertices renamed. From left to right the
    segments of the two layers match, and so do the segment of a pair and that of its image. -/
structure RenamedAt (f : Equiv.Perm Vertex) (p p' : Partition) (i : Nat) : Prop where
  aligned : List.Forall₂ (Segment.Matches i) (p.layer i).toList (p'.layer i).toList
  image : ∀ s ∈ p.layer i, ∀ s' ∈ p'.layer i, s'.pair = s.pair.rename f → s.Matches i s'

theorem RenamedAt.symm (h : RenamedAt f p p' i) : RenamedAt f.symm p' p i where
  aligned := (h.aligned.imp fun _ _ h => h.symm).flip
  image := fun s' hs' s hs hpair => (h.image s hs s' hs' (Pair.eq_rename_symm_iff.1 hpair)).symm

/-- Layers that match from left to right have the same last id. -/
theorem RenamedAt.lastId_eq (h : RenamedAt f p p' i) (n : Nat) :
    lastId (p.layer i) n = lastId (p'.layer i) n := by
  have hids : (p.layer i).toList.map Segment.id = (p'.layer i).toList.map Segment.id := by
    rw [← List.forall₂_eq_eq_eq, List.forall₂_map_left_iff, List.forall₂_map_right_iff]
    exact h.aligned.imp fun _ _ h => h.id_eq
  have hlast := congrArg List.getLast? hids
  rw [List.getLast?_map, List.getLast?_map, Array.getLast?_toList, Array.getLast?_toList] at hlast
  rw [lastId, lastId, hlast]

namespace Layered

variable (hp : p.Layered g) (hp' : p'.Layered g') (hg : g.Renamed f g')

include hp in
/-- The segments of a layer ascend by their keys. -/
theorem pairwise_key_le (hi : i < p.depth) : (p.layer i).toList.Pairwise fun a b =>
    (Segment.compareKey i a b).isLE = true := by
  have hnumbered : (p.layer i).toList.map Segment.unnumbered =
      ((p.rawSegments g i).mergeSort fun a b => (Segment.order i a b).isLE).map
        Segment.unnumbered := by
    rw [hp.toList_layer hi, map_unnumbered_assignIds]
  have hsorted := Segment.pairwise_mergeSort_order i (p.rawSegments g i)
  have hkeys : ∀ xs : List Segment,
      (xs.map Segment.unnumbered).Pairwise (fun a b => (Segment.compareKey i a b).isLE = true) ↔
        xs.Pairwise fun a b => (Segment.compareKey i a b).isLE = true := by
    simp [List.pairwise_map]
  rwa [← hkeys, hnumbered, hkeys]

include hp hp' hg

/-- The image of every pair of a layer is a pair of the layer. -/
theorem exists_image (hi : i < p.depth) (hi' : i < p'.depth) (hs : s ∈ p.layer i) :
    ∃ s' ∈ p'.layer i, s'.pair = s.pair.rename f :=
  (hp'.exists_segment_iff hi').2 (hg.joined_iff.2 ((hp.exists_segment_iff hi).1 ⟨s, hs, rfl⟩))

/-! ### A pair and its image -/

theorem labels_eq_of_image (hi : i < p.depth) (hi' : i < p'.depth) (hs : s ∈ p.layer i)
    (hs' : s' ∈ p'.layer i) (hpair : s'.pair = s.pair.rename f) : s.labels = s'.labels := by
  apply OrderedSet.ext_mem
  intro ls
  rw [hp.mem_labels_iff hi hs, hp'.mem_labels_iff hi' hs', hpair, Pair.source_rename,
    Pair.target_rename, hg.walk_iff]

/-- The walks between the image of a pair can be split into the ids that those between the pair can. -/
theorem mem_split_ids_of_image (hbefore : ∀ j ≤ i, RenamedAt f p p' j) (hi : i + 1 < p.depth)
    (hi' : i + 1 < p'.depth) (hs : s ∈ p.layer (i + 1)) (hs' : s' ∈ p'.layer (i + 1))
    (hpair : s'.pair = s.pair.rename f) {ids : Nat × Nat}
    (h : ids ∈ s.splits.toList.map Split.ids) : ids ∈ s'.splits.toList.map Split.ids := by
  rcases (hp.mem_split_ids_iff hi hs).1 h with ⟨k₁, k₂, hsum, x, hx, y, hy, hxy, hends, rfl⟩
  rcases hp.exists_image hp' hg (by omega) (by omega) hx with ⟨x', hx', hxpair⟩
  rcases hp.exists_image hp' hg (by omega) (by omega) hy with ⟨y', hy', hypair⟩
  have hxid := ((hbefore k₁ (by omega)).image x hx x' hx' hxpair).id_eq
  have hyid := ((hbefore k₂ (by omega)).image y hy y' hy' hypair).id_eq
  refine (hp'.mem_split_ids_iff hi' hs').2
    ⟨k₁, k₂, hsum, x', hx', y', hy', ?_, ?_, by rw [hxid, hyid]⟩
  · simp [hxpair, hypair, hxy]
  · simp [hpair, hends, hxpair, hypair, Pair.rename]

/-- The image of a pair was last seen under the id that the pair was last seen under. -/
theorem ancestorId_of_image (hbefore : ∀ j < i, RenamedAt f p p' j) (hi : i < p.depth)
    (hi' : i < p'.depth) (hs : s ∈ p.layer i) (hs' : s' ∈ p'.layer i)
    (hpair : s'.pair = s.pair.rename f) {n : Nat} (h : s.ancestorId = some n) :
    s'.ancestorId = some n := by
  rcases hp.exists_latest hi hs h with ⟨r, x, hx, rfl⟩
  have hr := Nat.lt_trans hx.before hi
  have hxmem := Array.mem_of_getElem? hx.segment
  rcases hp.exists_image hp' hg hr (Nat.lt_trans hx.before hi') hxmem with ⟨x', hx', hxpair⟩
  rcases Array.mem_iff_getElem?.1 hx' with ⟨a, ha⟩
  have hlatest : p'.Latest i s'.pair ⟨r.layer, a⟩ x' := by
    refine ⟨hx.before, ha, by rw [hxpair, hpair, hx.pair_eq], fun m hm hmi t' ht' htpair => ?_⟩
    -- a later segment of the image would give one of the pair
    rcases hp'.exists_image hp hg.symm (Nat.lt_trans hmi hi') (Nat.lt_trans hmi hi) ht' with
      ⟨t, ht, htimage⟩
    exact hx.gap m hm hmi t ht (by rw [htimage, htpair, hpair, Pair.rename_symm_rename])
  rw [(hp'.ancestor_eq hi' hs').2,
    (hp'.historyBefore_eq_some_iff (Nat.le_of_lt hi')).2 ⟨x', hlatest, rfl⟩]
  exact congrArg some ((hbefore r.layer hx.before).image x hxmem x' hx' hxpair).id_eq.symm

/-- A pair and its image cannot be told apart. -/
theorem compareKey_eq_of_image (hbefore : ∀ j < i, RenamedAt f p p' j) (hi : i < p.depth)
    (hi' : i < p'.depth) (hs : s ∈ p.layer i) (hs' : s' ∈ p'.layer i)
    (hpair : s'.pair = s.pair.rename f) : Segment.compareKey i s s' = .eq := by
  have hpair' := Pair.eq_rename_symm_iff.2 hpair
  have hloop : s.isLoop = s'.isLoop := by simp [Segment.isLoop, hpair]
  cases i with
  | zero =>
      have hlabels := hp.labels_eq_of_image hp' hg hi hi' hs hs' hpair
      simp [Segment.compareKey, compareLex_eq_eq, compareOn, hlabels, hloop, ReflCmp.compare_self]
  | succ i =>
      have hsplits : s.splits.toList.map Split.ids = s'.splits.toList.map Split.ids := by
        refine map_ids_eq_of_mem_iff fun ids => ⟨?_, ?_⟩
        · exact hp.mem_split_ids_of_image hp' hg (fun j hj => hbefore j (Nat.lt_succ_of_le hj)) hi hi'
            hs hs' hpair
        · exact hp'.mem_split_ids_of_image hp hg.symm
            (fun j hj => (hbefore j (Nat.lt_succ_of_le hj)).symm) hi' hi hs' hs hpair'
      have hancestor : s.ancestorId = s'.ancestorId := by
        refine Option.ext fun n => ⟨?_, ?_⟩
        · exact hp.ancestorId_of_image hp' hg hbefore hi hi' hs hs' hpair
        · exact hp'.ancestorId_of_image hp hg.symm (fun j hj => (hbefore j hj).symm) hi' hi hs' hs hpair'
      simp [Segment.compareKey, compareLex_eq_eq, compareOn, compare_splits_eq_iff.2 hsplits, hancestor,
        hloop, ReflCmp.compare_self]

/-! ### A layer and its image -/

/-- The pairs of the one layer are the images of those of the other, in some order. -/
theorem perm_map_pair (hi : i < p.depth) (hi' : i < p'.depth) :
    ((p.layer i).toList.map fun s => s.pair.rename f).Perm ((p'.layer i).toList.map Segment.pair) := by
  have hnodup := (hp.nodup_pairs hi).map (Pair.rename_injective f)
  rw [List.map_map] at hnodup
  refine (List.perm_ext_iff_of_nodup hnodup (hp'.nodup_pairs hi')).2 fun pair => ?_
  simp only [List.mem_map, Array.mem_toList_iff]
  constructor
  · rintro ⟨s, hs, rfl⟩
    exact hp.exists_image hp' hg hi hi' hs
  · rintro ⟨s', hs', rfl⟩
    rcases hp'.exists_image hp hg.symm hi' hi hs' with ⟨s, hs, hpair⟩
    exact ⟨s, hs, (Pair.eq_rename_symm_iff.1 hpair).symm⟩

/-- If pairs and their images cannot be told apart, nor can the segments of the two layers from left to
    right: each key is there as often in the one layer as in the other, and both layers ascend by keys. -/
theorem forall₂_key_eq (hi : i < p.depth) (hi' : i < p'.depth)
    (himage : ∀ s ∈ p.layer i, ∀ s' ∈ p'.layer i, s'.pair = s.pair.rename f →
      Segment.compareKey i s s' = .eq) :
    List.Forall₂ (fun s s' => Segment.compareKey i s s' = .eq) (p.layer i).toList
      (p'.layer i).toList := by
  refine forall₂_eq_of_countP_eq (hp.pairwise_key_le hi) (hp'.pairwise_key_le hi') fun c => ?_
  have hpairs : List.Forall₂ (fun pair (s' : Segment) => s'.pair = pair)
      ((p'.layer i).toList.map Segment.pair) (p'.layer i).toList := by
    rw [List.forall₂_map_left_iff, List.forall₂_same]
    exact fun _ _ => rfl
  rcases List.perm_comp_forall₂ (hp.perm_map_pair hp' hg hi hi') hpairs with ⟨images, himages, hperm⟩
  rw [List.forall₂_map_left_iff] at himages
  have hkeys : List.Forall₂ (fun s s' => Segment.compareKey i s s' = .eq) (p.layer i).toList images :=
    forall₂_imp_of_mem himages fun s hs s' hs' hpair => himage s (Array.mem_toList_iff.1 hs) s'
      (Array.mem_toList_iff.1 (hperm.subset hs')) hpair
  rw [← hperm.countP_eq, List.countP_eq_length_filter, List.countP_eq_length_filter]
  refine (List.rel_filter (fun s s' hkey => ?_) hkeys).length_eq
  change (Segment.compareKey i c s == .eq) = true ↔ (Segment.compareKey i c s' == .eq) = true
  rw [TransCmp.congr_right hkey]

omit hg in
/-- Layers that begin with one id and have the same keys from left to right match. -/
theorem forall₂_matches (hi : i < p.depth) (hi' : i < p'.depth) (hstart : p.startId i = p'.startId i)
    (hkeys : List.Forall₂ (fun s s' => Segment.compareKey i s s' = .eq) (p.layer i).toList
      (p'.layer i).toList) :
    List.Forall₂ (Segment.Matches i) (p.layer i).toList (p'.layer i).toList := by
  have hlist := hp.toList_layer hi
  have hlist' := hp'.toList_layer hi'
  have hsorted : List.Forall₂ (fun s s' => Segment.compareKey i s s' = .eq)
      ((p.rawSegments g i).mergeSort fun a b => (Segment.order i a b).isLE)
      ((p'.rawSegments g' i).mergeSort fun a b => (Segment.order i a b).isLE) := by
    have hunnumbered : ∀ xs ys : List Segment,
        List.Forall₂ (fun s s' => Segment.compareKey i s s' = .eq) (xs.map Segment.unnumbered)
          (ys.map Segment.unnumbered) ↔
        List.Forall₂ (fun s s' => Segment.compareKey i s s' = .eq) xs ys := by
      simp [List.forall₂_map_left_iff, List.forall₂_map_right_iff]
    rw [← hunnumbered, hlist, hlist', map_unnumbered_assignIds, map_unnumbered_assignIds,
      hunnumbered] at hkeys
    exact hkeys
  rw [hlist, hlist', hstart]
  exact Segment.forall₂_matches_assignIds hsorted

/-- The step: if the layers before are renamed, and the two layers begin with one id, the layer is. -/
theorem renamedAt_of_before (hi : i < p.depth) (hi' : i < p'.depth)
    (hstart : p.startId i = p'.startId i) (hbefore : ∀ j < i, RenamedAt f p p' j) :
    RenamedAt f p p' i := by
  have hkey : ∀ s ∈ p.layer i, ∀ s' ∈ p'.layer i, s'.pair = s.pair.rename f →
      Segment.compareKey i s s' = .eq := fun _ hs _ hs' hpair =>
    hp.compareKey_eq_of_image hp' hg hbefore hi hi' hs hs' hpair
  have haligned := hp.forall₂_matches hp' hi hi' hstart (hp.forall₂_key_eq hp' hg hi hi' hkey)
  refine ⟨haligned, fun s hs s' hs' hpair => ?_⟩
  -- the segment that stands in the place of `s` has the key of `s'`, and so its id
  rcases exists_of_mem_left haligned (Array.mem_toList_iff.2 hs) with ⟨t, ht, hst⟩
  have ht := Array.mem_toList_iff.1 ht
  have hkey := hkey s hs s' hs' hpair
  have hts := TransCmp.eq_trans (OrientedCmp.eq_symm hst.key_eq) hkey
  exact ⟨hst.id_eq.trans (hp'.id_eq_of_same hi' ht hs' (Segment.same_iff.2 hts)), hkey⟩

/-- The run: all layers that both partitions have are renamed, and their first ids are the same. -/
theorem renamedAt (hi : i < p.depth) (hi' : i < p'.depth) :
    p.startId i = p'.startId i ∧ RenamedAt f p p' i := by
  induction i using Nat.strongRecOn with
  | ind i ih =>
      have hbefore : ∀ j < i, p.startId j = p'.startId j ∧ RenamedAt f p p' j := fun j hj =>
        ih j hj (Nat.lt_trans hj hi) (Nat.lt_trans hj hi')
      have hstart : p.startId i = p'.startId i := by
        cases i with
        | zero => rfl
        | succ i =>
            rcases hbefore i (Nat.lt_succ_self i) with ⟨hstart, hlayer⟩
            rw [startId, startId, hstart, hlayer.lastId_eq]
      exact ⟨hstart, hp.renamedAt_of_before hp' hg hi hi' hstart fun j hj => (hbefore j hj).2⟩

/-- Behind the last layers the same id comes next. -/
theorem startId_eq_of_renamed (hdepth : p.depth = p'.depth) :
    p.startId p.depth = p'.startId p'.depth := by
  rcases Nat.exists_eq_succ_of_ne_zero (Nat.ne_of_gt hp.depth_pos) with ⟨n, hn⟩
  have hn' := hdepth.symm.trans hn
  rcases hp.renamedAt hp' hg (hn ▸ Nat.lt_succ_self n) (hn' ▸ Nat.lt_succ_self n) with ⟨hstart, hlayer⟩
  rw [hn, hn', startId, startId, hstart, hlayer.lastId_eq]

end Layered

/-! ### The construction of the layers -/

section Build

variable (hg : g.Renamed f g') {w w' : Growth}

include hg

/-- The step: there is an id for one more layer of both graphs or of neither. -/
theorem Growth.alike_next (hw : w.Layered g) (hw' : w'.Layered g')
    (hsize : w.layers.size = w'.layers.size) :
    Alike (fun v v' => v.Layered g ∧ v'.Layered g' ∧ v.layers.size = v'.layers.size) w.next
      w'.next := by
  have hid : w.lastId = w'.lastId := by
    have hstart := hw.layers.startId_eq_of_renamed hw'.layers hg hsize
    exact Nat.succ.inj (hw.lastId.trans (hstart.trans hw'.lastId.symm))
  by_cases hroom : w.lastId < maxSegmentId
  · have hok : ∃ v, w.next = .ok v := ⟨_, if_pos hroom⟩
    have hok' : ∃ v', w'.next = .ok v' := ⟨_, if_pos (hid ▸ hroom)⟩
    rcases hok with ⟨v, hnext⟩
    rcases hok' with ⟨v', hnext'⟩
    rcases hw.next hnext with ⟨hv, hvsize⟩
    rcases hw'.next hnext' with ⟨hv', hvsize'⟩
    rw [hnext, hnext']
    exact .ok ⟨hv, hv', by rw [hvsize, hvsize', hsize]⟩
  · have hfail : w.next = .error (.state .idsExhausted) := if_neg hroom
    have hfail' : w'.next = .error (.state .idsExhausted) := if_neg (hid ▸ hroom)
    rw [hfail, hfail']
    exact .error _

/-- The run: any number of further layers. -/
theorem alike_grow {n : Nat} (hw : w.Layered g) (hw' : w'.Layered g')
    (hsize : w.layers.size = w'.layers.size) :
    Alike (fun v v' => v.Layered g ∧ v'.Layered g' ∧ v.layers.size = v'.layers.size)
      (grow n w).result (grow n w').result := by
  induction n generalizing w w' with
  | zero => exact .ok ⟨hw, hw', hsize⟩
  | succ n ih =>
      simp only [grow, Traced.result_bind, Traced.result_emit, Traced.result_lift]
      exact (Growth.alike_next hg hw hw' hsize).bind fun v v' hv => ih hv.1 hv.2.1 hv.2.2

/-- The partitions of a graph and of a renamed one fail alike, or both are built to the same depth. -/
theorem alike_build :
    Alike (fun p p' => p.Layered g ∧ p'.Layered g' ∧ p.depth = p'.depth) (build g k).result
      (build g' k).result := by
  cases k with
  | zero => exact .error _
  | succ n =>
      simp only [build, Traced.result_bind, Traced.result_emit]
      exact (alike_grow hg (.first g) (.first g') rfl).bind fun v v' hv =>
        .ok ⟨hv.1.layers, hv.2.1.layers, hv.2.2⟩

end Build

end Partition
end PathQueryIndex
