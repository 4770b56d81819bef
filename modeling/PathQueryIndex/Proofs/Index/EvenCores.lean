/-
Module: PathQueryIndex.Proofs.Index.EvenCores
Layer: Proofs
Purpose: Closing a set of cores whose new members are steps of one length. As no part of such steps folds, no
  larger set of them is passed over unless one maps into another, so what several of them say together is
  found, however many they are up to the limit. And whatever uniform core is added by closing is made of new
  members only, for those that are inherited are shorter; so it does not fold either.
Imports: PathQueryIndex.Proofs.Index.Pruning, PathQueryIndex.Proofs.Pattern.Branches
Main exports: Query.Settled, CoreSet.Even, CoreSet.Combines, CoreSet.combines_of_close, CoreSet.settled_of_close,
  CoreSet.hasCore_of_uniform
-/
import PathQueryIndex.Proofs.Index.Pruning
import PathQueryIndex.Proofs.Pattern.Branches

namespace PathQueryIndex

open Std

/-! ### Intersections of uniform queries -/

namespace Query

variable {a q : Query} {qs : List Query} {limit : Option Nat} {d : Nat}

/-- A query holds where all its branches do. -/
theorem holds_iff_branches {g : Graph} {u v : Vertex} :
    q.Holds g u v ↔ ∀ b ∈ q.branches, b.Holds g u v := by
  induction q with
  | identity => simp [branches]
  | label l => simp [branches]
  | concat first second _ _ => simp [branches]
  | intersect left right ihl ihr =>
      rw [branches, List.forall_mem_append, ← ihl, ← ihr]
      exact Iff.rfl

theorem branches_ne_nil (q : Query) : q.branches ≠ [] := by
  induction q with
  | intersect left right ihl _ => exact fun h => ihl (List.append_eq_nil_iff.1 h).1
  | _ => exact List.cons_ne_nil _ _

/-- The branches of an intersection are those of its members. -/
theorem branches_intersectAll (h : intersectAll? qs = some q) : q.branches = qs.flatMap branches := by
  have hfold : ∀ (rest : List Query) (a : Query),
      (rest.foldl intersect a).branches = a.branches ++ rest.flatMap branches := by
    intro rest
    induction rest with
    | nil => exact fun a => (List.append_nil _).symm
    | cons b rest ih =>
        intro a
        rw [List.foldl_cons, ih, branches, List.flatMap_cons, List.append_assoc]
  cases qs with
  | nil => cases h
  | cons a qs =>
      cases h
      rw [hfold, List.flatMap_cons]

/-- The members of a uniform intersection are uniform and as long as the intersection. -/
theorem Uniform.of_mem_intersectAll (h : intersectAll? qs = some q) (hq : q.Uniform) (ha : a ∈ qs) :
    a.Uniform ∧ a.diameter = q.diameter := by
  have hfold : ∀ (rest : List Query) (b : Query), (rest.foldl intersect b).Uniform →
      ∀ x ∈ b :: rest, x.Uniform ∧ x.diameter = (rest.foldl intersect b).diameter := by
    intro rest
    induction rest with
    | nil =>
        intro b hb x hx
        rw [List.mem_singleton.1 hx]
        exact ⟨hb, rfl⟩
    | cons c rest ih =>
        intro b hb
        have hall := ih (.intersect b c) hb
        rw [List.forall_mem_cons] at hall
        obtain ⟨⟨⟨hbu, hcu, hsame⟩, hlen⟩, hrest⟩ := hall
        rw [diameter, ← hsame, Nat.max_self] at hlen
        rw [List.forall_mem_cons, List.forall_mem_cons]
        exact ⟨⟨hbu, hlen⟩, ⟨hcu, hsame ▸ hlen⟩, hrest⟩
  cases qs with
  | nil => cases h
  | cons b qs =>
      cases h
      exact hfold qs b hq a ha

/-- An intersection of uniform queries of one length is uniform and as long. -/
theorem uniform_intersectAll (h : intersectAll? qs = some q)
    (hqs : ∀ a ∈ qs, a.Uniform ∧ a.diameter = d) : q.Uniform ∧ q.diameter = d := by
  refine of_intersectAll (P := fun a => a.Uniform ∧ a.diameter = d) ?_ h hqs
  rintro a b ⟨ha, halen⟩ ⟨hb, hblen⟩
  refine ⟨⟨ha, hb, halen.trans hblen.symm⟩, ?_⟩
  rw [diameter, halen, hblen, Nat.max_self]

/-- An intersection does not join too many queries if its members do not, and it has few branches. -/
theorem within_intersectAll (h : intersectAll? qs = some q) (hqs : ∀ a ∈ qs, a.Within limit)
    (hlen : ∀ n, limit = some n → q.branches.length ≤ n) : q.Within limit := by
  refine of_intersectAll
    (P := fun a => (∀ n, limit = some n → a.branches.length ≤ n) → a.Within limit) ?_ h
    (fun a ha _ => hqs a ha) hlen
  intro a b ha hb hfew
  have hsum : ∀ n, limit = some n → a.branches.length + b.branches.length ≤ n := fun n hn =>
    List.length_append ▸ hfew n hn
  exact ⟨ha fun n hn => Nat.le_of_add_right_le (hsum n hn),
    hb fun n hn => Nat.le_of_add_left_le (hsum n hn), hsum⟩

theorem Within.length_branches_le {n : Nat} (hq : q.Within limit) (hlimit : limit = some n) (hn : 1 ≤ n) :
    q.branches.length ≤ n := by
  cases q with
  | intersect left right => exact List.length_append ▸ hq.2.2 n hlimit
  | _ => exact hn

/-- If the query is uniform, it joins no more queries than the limit, and its pattern does not fold. -/
def Settled (limit : Option Nat) (q : Query) : Prop :=
  q.Uniform → q.Within limit ∧ (Pattern.ofQuery q).Rigid

end Query

/-! ### Steps of one length -/

namespace CoreSet

variable {workers : Nat} {timeout limit : Option Nat} {set set' : CoreSet} {inherited i j d : Nat}
  {members : List Nat} {q : Query}

/-- The core at a place is not inherited, and it is a uniform step of a length that does not fold. -/
structure Even (set : CoreSet) (limit : Option Nat) (inherited d i : Nat) : Prop where
  inherited_le : inherited ≤ i
  lt_size : i < set.cores.size
  uniform : (set.queryAt i).Uniform
  isStep : (set.queryAt i).IsStep
  diameter_eq : (set.queryAt i).diameter = d
  within : (set.queryAt i).Within limit
  rigid : (Pattern.ofQuery (set.queryAt i)).Rigid

theorem branches_of_even (h : ∀ i ∈ members, set.Even limit inherited d i)
    (hq : Query.intersectAll? (members.map set.queryAt) = some q) :
    q.branches = members.map set.queryAt := by
  rw [Query.branches_intersectAll hq, List.flatMap_map, List.map_eq_flatMap]
  exact List.flatMap_congr fun i hi => Query.branches_of_isStep (h i hi).isStep

/-- What steps of one length say together does not fold if none of them maps into another one. -/
theorem rigid_of_even (h : ∀ i ∈ members, set.Even limit inherited d i) (hnodup : members.Nodup)
    (hunrelated : set.Unrelated members)
    (hq : Query.intersectAll? (members.map set.queryAt) = some q) : (Pattern.ofQuery q).Rigid := by
  have hbranches := branches_of_even h hq
  have huniform : q.Uniform := (Query.uniform_intersectAll (d := d) hq
    (List.forall_mem_map.2 fun i hi => ⟨(h i hi).uniform, (h i hi).diameter_eq⟩)).1
  refine Pattern.rigid_of_branches huniform ?_ ?_
  · rw [hbranches]
    exact List.forall_mem_map.2 fun i hi => (h i hi).rigid
  · rw [hbranches, List.pairwise_map]
    exact hnodup.imp_of_mem fun {i j} hi hj hne =>
      ⟨hunrelated i hi j hj hne, hunrelated j hj i hi hne.symm⟩

/-! ### What closing adds -/

/-- The query is an intersection of a selection of two or more cores, none of which is related to an earlier one that
    is not inherited. -/
def Combines (set : CoreSet) (limit : Option Nat) (inherited : Nat) (q : Query) : Prop :=
  ∃ members, set.Selection inherited limit members ∧ 2 ≤ members.length ∧
    Query.intersectAll? (members.map set.queryAt) = some q ∧
    ∀ i ∈ members, ∀ j ∈ members, j < i → inherited ≤ j → ¬ (set.queryAt i).Related (set.queryAt j)

theorem not_related_of_not_holds (hi : i < set.cores.size) (hlt : j < i) (hle : inherited ≤ j)
    (h : (set.baseConflicts inherited).holds i j = false) : ¬ (set.queryAt i).Related (set.queryAt j) := by
  intro hrelated
  rw [holds_baseConflicts.2 ⟨hi, hle, hlt, hrelated⟩] at h
  cases h

/-- The intersections of two cores are combined. -/
theorem combines_of_mem_pairings (hlimit : ∀ n, limit = some n → 2 ≤ n)
    (h : (i, j) ∈ pairings set.cores.size inherited (set.baseConflicts inherited)) :
    set.Combines limit inherited (.intersect (set.queryAt i) (set.queryAt j)) := by
  obtain ⟨hinherited, hi, hlt, hconflict⟩ := mem_pairings.1 h
  refine ⟨[i, j], selection_pair hlimit hinherited hi hlt, Nat.le_refl 2, rfl, ?_⟩
  simp only [List.mem_cons, List.not_mem_nil, or_false]
  rintro k (rfl | rfl) l (rfl | rfl) hlk hle
  · exact absurd hlk (Nat.lt_irrefl _)
  · exact not_related_of_not_holds hi hlk hle hconflict
  · exact absurd hlk (Nat.lt_asymm hlt)
  · exact absurd hlk (Nat.lt_irrefl _)
/-- The larger sets that are tried are combined. -/
theorem combines_of_mem_subsetsOf (h : members ∈ subsetsOf set.cores.size inherited
    (limit.getD set.cores.size) (set.largerConflicts inherited))
    (hq : Query.intersectAll? (members.map set.queryAt) = some q) : set.Combines limit inherited q := by
  obtain ⟨hselection, _, hlen⟩ := selection_of_mem_subsetsOf h
  obtain ⟨_, _, _, hcompatible⟩ := mem_subsetsOf.1 h
  refine ⟨members, hselection, Nat.le_of_succ_le hlen, hq, fun i hi j hj hlt hle => ?_⟩
  have hconflict := Bool.eq_false_iff.1 (hcompatible j hj i hi hlt).2
  rw [Ne, holds_largerConflicts, not_or, Bool.not_eq_true] at hconflict
  exact not_related_of_not_holds (hselection.lt_size i hi) hlt hle hconflict.1

/-- Every core of the closed set was there before or is combined. -/
theorem combines_of_close {c : Canonicalizer} (hlimit : ∀ n, limit = some n → 2 ≤ n)
    (hclose : set.close c limit inherited = .ok set') {core : Core} (hcore : core ∈ set'.cores.toList) :
    core ∈ set.cores.toList ∨ set.Combines limit inherited core.query := by
  obtain ⟨mid, hmid, hlarger⟩ := close_eq_ok hclose
  obtain ⟨pairs, hpairs, rfl⟩ := absorb_eq_ok hmid
  have hmidcore : ∀ core ∈ (pairs.foldl insert set).cores.toList,
      core ∈ set.cores.toList ∨ set.Combines limit inherited core.query := by
    intro core hcore
    refine ((takes_foldl_insert set pairs).origin core hcore).imp_right fun hnew => ?_
    obtain ⟨item, hitem, hgives⟩ := exists_of_mem_right hpairs hnew
    obtain ⟨⟨i, j⟩, hpair, rfl⟩ := List.mem_map.1 hitem
    exact hgives.query_eq ▸ combines_of_mem_pairings hlimit hpair
  split at hlarger
  · rw [hlarger] at hcore
    exact hmidcore core hcore
  · obtain ⟨more, hmore, rfl⟩ := absorb_eq_ok hlarger
    rcases (takes_foldl_insert _ more).origin core hcore with hold | hnew
    · exact hmidcore core hold
    · obtain ⟨item, hitem, hgives⟩ := exists_of_mem_right hmore hnew
      obtain ⟨members, hmembers, hitem⟩ := List.mem_filterMap.1 hitem
      obtain ⟨q, hq, rfl⟩ := Option.map_eq_some_iff.1 hitem
      exact .inr (hgives.query_eq ▸ combines_of_mem_subsetsOf hmembers hq)

/-- If the inherited cores are shorter than the others, and those of the others that are uniform are even, all
    uniform cores of the closed set are settled, provided that those of the set are. -/
theorem settled_of_close {c : Canonicalizer} (hlimit : ∀ n, limit = some n → 2 ≤ n)
    (hclose : set.close c limit inherited = .ok set')
    (hshort : ∀ i < inherited, i < set.cores.size → (set.queryAt i).diameter < d)
    (heven : ∀ i, inherited ≤ i → i < set.cores.size → (set.queryAt i).Uniform →
      set.Even limit inherited d i)
    (hset : ∀ core ∈ set.cores.toList, core.query.Settled limit) :
    ∀ core ∈ set'.cores.toList, core.query.Settled limit := by
  intro core hcore
  rcases combines_of_close hlimit hclose hcore with hold | ⟨members, h, hlen, hq, hfree⟩
  · exact hset core hold
  intro huniform
  have hmember : ∀ i ∈ members, (set.queryAt i).Uniform ∧
      (set.queryAt i).diameter = core.query.diameter := fun i hi =>
    huniform.of_mem_intersectAll hq (List.mem_map_of_mem hi)
  -- One of two members is not inherited, and so the intersection is as long as the new cores.
  have hlong : core.query.diameter = d := by
    obtain ⟨i, j, rest, rfl⟩ : ∃ i j rest, members = i :: j :: rest := by
      match members, hlen with
      | i :: j :: rest, _ => exact ⟨i, j, rest, rfl⟩
    have hi : i ∈ i :: j :: rest := List.mem_cons_self ..
    have hj : j ∈ i :: j :: rest := List.mem_cons_of_mem _ (List.mem_cons_self ..)
    have hne : i ≠ j := by
      rintro rfl
      exact (List.nodup_cons.1 h.nodup).1 (List.mem_cons_self ..)
    rcases Nat.lt_or_gt_of_ne hne with hlt | hlt
    · rw [← (hmember j hj).2, (heven j (h.inherited_le hj hi hlt) (h.lt_size j hj)
        (hmember j hj).1).diameter_eq]
    · rw [← (hmember i hi).2, (heven i (h.inherited_le hi hj hlt) (h.lt_size i hi)
        (hmember i hi).1).diameter_eq]
  have hall : ∀ i ∈ members, set.Even limit inherited d i := by
    intro i hi
    refine heven i (Nat.le_of_not_lt fun hlt => ?_) (h.lt_size i hi) (hmember i hi).1
    have hless := hshort i hlt (h.lt_size i hi)
    rw [(hmember i hi).2, hlong] at hless
    exact Nat.lt_irrefl d hless
  have hunrelated : set.Unrelated members := by
    intro i hi j hj hne hmaps
    rcases Nat.lt_or_gt_of_ne hne with hlt | hlt
    · exact hfree j hj i hi hlt (hall i hi).inherited_le (.inr hmaps)
    · exact hfree i hi j hj hlt (hall j hj).inherited_le (.inl hmaps)
  refine ⟨Query.within_intersectAll hq (List.forall_mem_map.2 fun i hi => (hall i hi).within) ?_,
    rigid_of_even hall h.nodup hunrelated hq⟩
  intro n hn
  rw [branches_of_even hall hq, List.length_map]
  exact h.length_le n hn

/-! ### What closing finds -/

/-- Even cores are a selection if they are not too many. -/
theorem selection_of_even (h : ∀ i ∈ members, set.Even limit inherited d i) (hnodup : members.Nodup)
    (hlen : ∀ n, limit = some n → members.length ≤ n) : set.Selection inherited limit members where
  nodup := hnodup
  lt_size := fun i hi => (h i hi).lt_size
  length_le := hlen
  inherited := fun i hi _ _ hlt => absurd hlt (Nat.not_lt.2 (h i hi).inherited_le)

/-- No two even cores fold, unless one maps into the other. -/
theorem unfolding_of_even (h : ∀ i ∈ members, set.Even limit inherited d i) : set.Unfolding members := by
  intro _ i hi j hj hlt
  by_cases hrelated : (set.queryAt i).Related (set.queryAt j)
  · exact .inl hrelated
  have hunrelated : set.Unrelated [i, j] := by
    simp only [Unrelated, List.mem_cons, List.not_mem_nil, or_false]
    rintro k (rfl | rfl) l (rfl | rfl) hkl hmaps
    · exact hkl rfl
    · exact hrelated (.inl hmaps)
    · exact hrelated (.inr hmaps)
    · exact hkl rfl
  have hpair : ∀ k ∈ [i, j], set.Even limit inherited d k := by simp [h i hi, h j hj]
  exact .inr (rigid_of_even hpair (by simpa using Nat.ne_of_gt hlt) hunrelated rfl)

/-- A uniform query within the limit is found if its branches are among the even cores. -/
theorem hasCore_of_uniform (hset : set.Proper (.ofWorkers workers timeout))
    (hclose : set.close (.ofWorkers workers timeout) limit inherited = .ok set')
    (hlimit : ∀ n, limit = some n → 2 ≤ n) (hq : q.Within limit)
    (hbranches : ∀ b ∈ q.branches, ∃ i, set.Even limit inherited d i ∧ (set.queryAt i).Agrees b) :
    HasCore set'.cores.toList q := by
  choose! place hplace using hbranches
  have hmem : ∀ i, i ∈ (q.branches.map place).dedup ↔ ∃ b ∈ q.branches, place b = i := by
    intro i
    rw [List.mem_dedup, List.mem_map]
  have heven : ∀ i ∈ (q.branches.map place).dedup, set.Even limit inherited d i := by
    intro i hi
    obtain ⟨b, hb, rfl⟩ := (hmem i).1 hi
    exact (hplace b hb).1
  have hnodup : (q.branches.map place).dedup.Nodup := List.nodup_dedup _
  have hlen : (q.branches.map place).dedup.length ≤ q.branches.length :=
    Nat.le_trans (List.dedup_sublist _).length_le (Nat.le_of_eq (List.length_map _))
  have hne : (q.branches.map place).dedup ≠ [] := by
    obtain ⟨b, hb⟩ := List.exists_mem_of_ne_nil _ q.branches_ne_nil
    exact List.ne_nil_of_mem ((hmem _).2 ⟨b, hb, rfl⟩)
  generalize (q.branches.map place).dedup = members at hmem heven hnodup hlen hne
  have hselection : set.Selection inherited limit members := selection_of_even heven hnodup fun n hn =>
    Nat.le_trans hlen (hq.length_branches_le hn (Nat.le_of_succ_le (hlimit n hn)))
  obtain ⟨r, hr⟩ : ∃ r, Query.intersectAll? (members.map set.queryAt) = some r := exists_intersectAll hne
  refine (hasCore_of_selection hset hclose hselection (unfolding_of_even heven) hr).congr fun g u v => ?_
  rw [Query.holds_intersectAll hr, List.forall_mem_map, Query.holds_iff_branches]
  constructor
  · intro h b hb
    exact ((hplace b hb).2 g u v).1 (h _ ((hmem _).2 ⟨b, hb, rfl⟩))
  · intro h i hi
    obtain ⟨b, hb, rfl⟩ := (hmem i).1 hi
    exact ((hplace b hb).2 g u v).2 (h b hb)

end CoreSet

end PathQueryIndex
