/-
Module: PathQueryIndex.Proofs.Pattern.Trail
Layer: Proofs
Purpose: The pattern of a path is a core already. Its points lie on a trail from the source to the target, and
  every edge leads from one point of the trail to the next, along its label or against it. A map of the
  pattern to itself may turn back where labels repeat, but it leaves every point at its place, for the places
  are levels with one point at each.
Imports: PathQueryIndex.Canonicalizer, PathQueryIndex.Proofs.Pattern.Core, PathQueryIndex.Proofs.Pattern.Levels,
  PathQueryIndex.Proofs.Pattern.Meaning, Mathlib.Data.List.Induction
Main exports: Pattern.Trail, Pattern.Trail.fixed, Query.outline_path,
  Pattern.trail_ofQuery_path, Pattern.core_ofQuery_path, Pattern.path_is_core
-/
import PathQueryIndex.Canonicalizer
import PathQueryIndex.Proofs.Pattern.Core
import PathQueryIndex.Proofs.Pattern.Levels
import PathQueryIndex.Proofs.Pattern.Meaning
import Mathlib.Data.List.Induction

namespace PathQueryIndex

/-! ### Trails -/

namespace Pattern

/-- The points of a pattern stand at the places from 0 to `n` of a trail from the source to the target, each
    at one place, and the edges join neighbours on the trail. -/
structure Trail (p : Pattern) (n : Nat) (point : Nat → Nat) : Prop where
  source_eq : point 0 = p.source
  target_eq : point n = p.target
  covers : ∀ v < p.vertexCount, ∃ i ≤ n, point i = v
  inj : ∀ i ≤ n, ∀ j ≤ n, point i = point j → i = j
  exists_edge : ∀ i < n, ∃ e ∈ p.edges, e.Between (point i) (point (i + 1))
  edge_between : ∀ e ∈ p.edges, ∃ i < n, e.Between (point i) (point (i + 1))

namespace Trail

variable {p : Pattern} {n : Nat} {point f : Nat → Nat}

/-- The places of a trail are levels with one point at each. -/
theorem leveled (hp : p.Trail n point) :
    Leveled p.edges.toList (fun v i => i ≤ n ∧ point i = v) p.source p.target n where
  source := ⟨Nat.zero_le n, hp.source_eq⟩
  target := ⟨Nat.le_refl n, hp.target_eq⟩
  eq_source := fun _ hx => hx.2.symm.trans hp.source_eq
  eq_target := fun _ hx => hx.2.symm.trans hp.target_eq
  unique := fun _ i j hi hj => hp.inj i hi.1 j hj.1 (hi.2.trans hj.2.symm)
  le := fun _ _ hx => hx.1
  up := by
    rintro x i ⟨_, rfl⟩ hlt
    exact ⟨point (i + 1), ⟨hlt, rfl⟩, hp.exists_edge i hlt⟩
  down := by
    rintro y i ⟨hi, rfl⟩
    exact ⟨point i, ⟨Nat.le_of_succ_le hi, rfl⟩, hp.exists_edge i hi⟩
  edge := by
    intro e he
    obtain ⟨i, hi, hends⟩ := hp.edge_between e he
    exact ⟨point i, point (i + 1), i, ⟨Nat.le_of_lt hi, rfl⟩, ⟨hi, rfl⟩, hends⟩

/-- A map of a trail to itself leaves every point where it is. -/
theorem fixed (hp : p.Trail n point) (hf : Homomorphism p p f) : ∀ v < p.vertexCount, f v = v := by
  intro v hv
  obtain ⟨i, hi, rfl⟩ := hp.covers v hv
  exact (hp.leveled.at_map hp.leveled hf.source hf.target hf.edge ⟨hi, rfl⟩).2.symm

theorem rigid (hp : p.Trail n point) : p.Rigid :=
  fun _ hf x hx => ⟨x, hx, hp.fixed hf x hx⟩

/-- Points on a trail are still on one when they are numbered. -/
theorem numbered (point : Nat → Nat) {points : List Nat} {s t : Nat} {edges : List PatternEdge}
    (hsource : point 0 = s) (htarget : point n = t) (hmem : ∀ i ≤ n, point i ∈ points)
    (hcovers : ∀ x ∈ points, ∃ i ≤ n, point i = x)
    (hinj : ∀ i ≤ n, ∀ j ≤ n, point i = point j → i = j)
    (hexists : ∀ i < n, ∃ e ∈ edges, e.Between (point i) (point (i + 1)))
    (hbetween : ∀ e ∈ edges, ∃ i < n, e.Between (point i) (point (i + 1))) :
    (Pattern.numbered points s t edges).Trail n fun i => numberOf points (point i) where
  source_eq := congrArg (numberOf points) hsource
  target_eq := congrArg (numberOf points) htarget
  covers := fun v hv => by
    obtain ⟨i, hi, heq⟩ := hcovers _ (pointOf_mem hv)
    exact ⟨i, hi, by rw [heq, numberOf_pointOf hv]⟩
  inj := fun i hi j hj h => by
    have hpoint := congrArg (pointOf points) h
    rw [pointOf_numberOf (hmem i hi), pointOf_numberOf (hmem j hj)] at hpoint
    exact hinj i hi j hj hpoint
  exists_edge := fun i hi => by
    obtain ⟨e, he, hends⟩ := hexists i hi
    exact ⟨_, mem_edges_numbered.2 ⟨e, he, rfl⟩, hends.map _⟩
  edge_between := fun e he => by
    obtain ⟨d, hd, rfl⟩ := mem_edges_numbered.1 he
    obtain ⟨i, hi, hends⟩ := hbetween d hd
    exact ⟨i, hi, hends.map _⟩

end Trail

end Pattern

/-! ### The outline of a path -/

namespace Query

variable {s t fresh n i : Nat} {labels : List Label}

/-- The point at a place of a path of `n` steps from `s` to `t`. The outline numbers those in between from
    `fresh` on, the last one first. -/
def pathPoint (s t fresh n i : Nat) : Nat :=
  if i = 0 then s else if i = n then t else fresh + (n - 1 - i)

theorem pathPoint_zero : pathPoint s t fresh n 0 = s := if_pos rfl

theorem pathPoint_last (hn : n ≠ 0) : pathPoint s t fresh n n = t := by
  rw [pathPoint, if_neg hn, if_pos rfl]

/-- The first points of a path are those of the path without its last step. -/
theorem pathPoint_of_le (hi : i ≤ n) :
    pathPoint s fresh (fresh + 1) n i = pathPoint s t fresh (n + 1) i := by
  unfold pathPoint
  by_cases hzero : i = 0
  · rw [if_pos hzero, if_pos hzero]
  · rw [if_neg hzero, if_neg hzero, if_neg (Nat.ne_of_lt (Nat.lt_succ_of_le hi))]
    by_cases hlast : i = n
    · rw [if_pos hlast, hlast, Nat.add_sub_cancel, Nat.sub_self, Nat.add_zero]
    · rw [if_neg hlast]
      omega

/-- The steps of a path along its labels. -/
def pathEdges (s t fresh : Nat) (labels : List Label) : List PatternEdge :=
  labels.zipIdx.map fun (l, i) => .ofLabel l (pathPoint s t fresh labels.length i)
    (pathPoint s t fresh labels.length (i + 1))

theorem path_concat (h : labels ≠ []) (l : Label) :
    path ⟨labels ++ [l], List.append_ne_nil_of_left_ne_nil h _⟩ = .concat (path ⟨labels, h⟩) (label l) := by
  cases labels with
  | nil => exact absurd rfl h
  | cons x labels =>
      change ((labels ++ [l]).map label).foldl concat (label x) = _
      rw [List.map_append, List.foldl_append]
      rfl

/-- A path has a point between any two steps, an edge for every step, and no equal points. -/
theorem outline_path (h : labels ≠ []) : (path ⟨labels, h⟩).outline s t fresh =
    ⟨fresh + (labels.length - 1), pathEdges s t fresh labels, []⟩ := by
  induction labels using List.reverseRecOn generalizing s t fresh with
  | nil => exact absurd rfl h
  | append_singleton labels l ih =>
      by_cases hnil : labels = []
      · subst hnil
        rfl
      · have hlen : labels.length ≠ 0 := fun hzero => hnil (List.length_eq_zero_iff.1 hzero)
        have hfirst : pathEdges s fresh (fresh + 1) labels = labels.zipIdx.map fun (l, i) =>
            .ofLabel l (pathPoint s t fresh (labels.length + 1) i)
              (pathPoint s t fresh (labels.length + 1) (i + 1)) := by
          refine List.map_congr_left fun x hx => ?_
          have hlt : x.2 < labels.length := List.snd_lt_of_mem_zipIdx hx
          simp only [pathPoint_of_le (t := t) (Nat.le_of_lt hlt), pathPoint_of_le (t := t) hlt]
        have hlast : pathPoint s t fresh (labels.length + 1) labels.length = fresh := by
          rw [← pathPoint_of_le (Nat.le_refl _), pathPoint_last hlen]
        rw [path_concat hnil, outline, ih hnil, hfirst]
        simp only [outline, pathEdges, List.zipIdx_append, List.map_append, List.length_append,
          List.length_singleton, List.zipIdx_singleton, List.map_singleton, Nat.zero_add, hlast,
          pathPoint_last (Nat.succ_ne_zero _), List.append_nil]
        congr 1
        omega

theorem mem_pathEdges {e : PatternEdge} : e ∈ pathEdges s t fresh labels ↔
    ∃ i l, labels[i]? = some l ∧ e = .ofLabel l (pathPoint s t fresh labels.length i)
      (pathPoint s t fresh labels.length (i + 1)) := by
  simp only [pathEdges, List.mem_map, Prod.exists, List.mem_zipIdx_iff_getElem?]
  constructor
  · rintro ⟨l, i, hl, rfl⟩
    exact ⟨i, l, hl, rfl⟩
  · rintro ⟨i, l, hl, rfl⟩
    exact ⟨l, i, hl, rfl⟩

/-! From 0 to 1, with the points in between numbered from 2 on, a path has just the points with the first
numbers. -/

theorem pathPoint_lt (hi : i ≤ n) : pathPoint 0 1 2 n i < 2 + (n - 1) := by
  unfold pathPoint
  split_ifs
  all_goals omega

theorem pathPoint_inj {j : Nat} (hi : i ≤ n) (hj : j ≤ n)
    (h : pathPoint 0 1 2 n i = pathPoint 0 1 2 n j) : i = j := by
  unfold pathPoint at h
  split_ifs at h
  all_goals omega

theorem exists_pathPoint {x : Nat} (hn : n ≠ 0) (hx : x < 2 + (n - 1)) :
    ∃ i ≤ n, pathPoint 0 1 2 n i = x := by
  rcases Nat.lt_or_ge x 2 with hlt | hge
  · rcases Nat.le_one_iff_eq_zero_or_eq_one.1 (Nat.le_of_lt_succ hlt) with rfl | rfl
    · exact ⟨0, Nat.zero_le n, pathPoint_zero⟩
    · exact ⟨n, Nat.le_refl n, pathPoint_last hn⟩
  · refine ⟨n + 1 - x, by omega, ?_⟩
    rw [pathPoint, if_neg (by omega), if_neg (by omega)]
    omega

end Query

/-! ### The pattern of a path -/

namespace Pattern

/-- The pattern of a path is a trail with as many steps as the path has labels. -/
theorem trail_ofQuery_path (s : LabelSequence) :
    ∃ point, (ofQuery (.path s)).Trail s.length point := by
  have hlen : s.length ≠ 0 := fun hzero => s.nonempty (List.length_eq_zero_iff.1 hzero)
  have houtline : (Query.path s).outline 0 1 2 = _ := Query.outline_path s.nonempty
  have hrepresent : represent (.path s) = id :=
    funext (represent_of_equalities_eq_nil (by rw [houtline]))
  have hpattern : ofQuery (.path s) =
      numbered (0 :: 1 :: List.range (2 + (s.length - 1))) 0 1 (Query.pathEdges 0 1 2 s.labels) := by
    rw [ofQuery_eq, representatives, hrepresent, houtline, List.map_id]
    exact congrArg _ (List.map_id _)
  rw [hpattern]
  refine ⟨_, Trail.numbered (Query.pathPoint 0 1 2 s.length) Query.pathPoint_zero
    (Query.pathPoint_last hlen) (fun i hi => ?_) (fun x hx => ?_)
    (fun i hi j hj h => Query.pathPoint_inj hi hj h) (fun i hi => ?_) fun e he => ?_⟩
  · exact List.mem_cons_of_mem _ (List.mem_cons_of_mem _ (List.mem_range.2 (Query.pathPoint_lt hi)))
  · refine Query.exists_pathPoint hlen ?_
    simp only [List.mem_cons, List.mem_range] at hx
    omega
  · exact ⟨_, Query.mem_pathEdges.2 ⟨i, s.labels[i], List.getElem?_eq_getElem hi, rfl⟩, .ofLabel ..⟩
  · obtain ⟨i, l, hl, rfl⟩ := Query.mem_pathEdges.1 he
    exact ⟨i, (List.getElem?_eq_some_iff.1 hl).1, .ofLabel ..⟩

/-- The pattern of a path is its own core. -/
theorem core_ofQuery_path (s : LabelSequence) : (ofQuery (.path s)).core = ofQuery (.path s) := by
  obtain ⟨point, hpoint⟩ := trail_ofQuery_path s
  exact hpoint.rigid.core_eq (inBounds_ofQuery _)

/-- A path may be taken for a core. The only map of its pattern to itself that keeps source and target leaves
    every point where it is, however the labels repeat and turn back, so the core of the pattern is the
    pattern itself. Hence it does not matter for the form of a path, or for the reason why it has none,
    whether the pattern is folded first, and no canonicalizer can tell. -/
theorem path_is_core (s : LabelSequence) :
    (∀ f, Homomorphism (ofQuery (.path s)) (ofQuery (.path s)) f →
      ∀ v < (ofQuery (.path s)).vertexCount, f v = v) ∧
    (ofQuery (.path s)).core = ofQuery (.path s) ∧
    canonicalForm (.path s) true = canonicalForm (.path s) false ∧
    ∀ (c : Canonicalizer) (number : Nat),
      c.resolve number (.ofPattern (canonicalPattern (.path s) true)) =
        c.resolve number (.ofPattern (canonicalPattern (.path s) false)) := by
  obtain ⟨point, hpoint⟩ := trail_ofQuery_path s
  have hcore := core_ofQuery_path s
  have hpattern : canonicalPattern (.path s) true = canonicalPattern (.path s) false := hcore.symm
  refine ⟨fun f hf => hpoint.fixed hf, hcore, ?_, fun c number => ?_⟩
  · rw [canonicalForm, canonicalForm, hpattern]
  · rw [hpattern]

/-- Two steps there and back again, twice over, would fold if the ends were free. -/
example : (ofQuery (.path ⟨[⟨0, false⟩, ⟨0, true⟩, ⟨0, false⟩, ⟨0, true⟩],
    by decide⟩)).core.vertexCount = 5 := by
  cbv

end Pattern

end PathQueryIndex
