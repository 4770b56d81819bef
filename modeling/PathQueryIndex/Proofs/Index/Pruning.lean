/-
Module: PathQueryIndex.Proofs.Index.Pruning
Layer: Proofs
Purpose: What closing under intersections leaves out. Every intersection of two cores is found, also where one
  maps into the other and they are not intersected, for then it is one of them; and a larger set with such a
  pair says the same without the core that maps into the other. But a larger set in which two other cores
  fold when they are intersected is passed over, and nothing stands in for it. So the codes of the closed set
  are exactly those of the intersections without such a pair.
Imports: PathQueryIndex.Proofs.Index.Codes, PathQueryIndex.Proofs.Pattern.Least
Main exports: Query.holds_intersectAll, Query.Related, CoreSet.holds_largerConflicts, CoreSet.Selection,
  CoreSet.Unfolding, CoreSet.selection_of_mem_subsetsOf, CoreSet.hasCore_of_selection,
  CoreSet.hasCore_of_close, CoreSet.exists_close, CoreSet.mem_hashes_close_iff
-/
import PathQueryIndex.Proofs.Index.Codes
import PathQueryIndex.Proofs.Pattern.Least

namespace PathQueryIndex

open Std

/-! ### Intersections -/

namespace Query

variable {a b q : Query}

/-- An intersection holds where all its members do. -/
theorem holds_intersectAll {qs : List Query} (h : intersectAll? qs = some q) {g : Graph} {u v : Vertex} :
    q.Holds g u v ↔ ∀ a ∈ qs, a.Holds g u v := by
  have hfold : ∀ (rest : List Query) (a : Query), (rest.foldl intersect a).Holds g u v ↔
      a.Holds g u v ∧ ∀ b ∈ rest, b.Holds g u v := by
    intro rest
    induction rest with
    | nil => simp
    | cons b rest ih =>
        intro a
        rw [List.foldl_cons, ih, List.forall_mem_cons, ← and_assoc]
        exact Iff.rfl
  cases qs with
  | nil => cases h
  | cons a qs =>
      cases h
      rw [hfold, List.forall_mem_cons]

/-- An intersection is as short as its members are together. -/
theorem nodes_intersectAll_le {qs : List Query} {n : Nat} (h : intersectAll? qs = some q)
    (hqs : ∀ a ∈ qs, a.nodes ≤ n) : q.nodes ≤ qs.length * n := by
  have hfold : ∀ (rest : List Query) (a : Query), (∀ b ∈ rest, b.nodes ≤ n) →
      (rest.foldl intersect a).nodes ≤ a.nodes + rest.length * n := by
    intro rest
    induction rest with
    | nil => simp
    | cons b rest ih =>
        intro a hrest
        rw [List.forall_mem_cons] at hrest
        calc
          (rest.foldl intersect (.intersect a b)).nodes ≤ a.nodes + b.nodes + rest.length * n :=
            ih _ hrest.2
          _ ≤ a.nodes + n + rest.length * n :=
            Nat.add_le_add_right (Nat.add_le_add_left hrest.1 _) _
          _ = a.nodes + (b :: rest).length * n := by
            rw [List.length_cons, Nat.succ_mul]
            omega
  cases qs with
  | nil => cases h
  | cons a qs =>
      cases h
      rw [List.forall_mem_cons] at hqs
      calc
        (qs.foldl intersect a).nodes ≤ a.nodes + qs.length * n := hfold qs a hqs.2
        _ ≤ n + qs.length * n := Nat.add_le_add_right hqs.1 _
        _ = (a :: qs).length * n := by rw [List.length_cons, Nat.succ_mul, Nat.add_comm]

/-- The pattern of one of the queries maps into the pattern of the other. -/
def Related (a b : Query) : Prop :=
  (∃ f, Homomorphism (.ofQuery a) (.ofQuery b) f) ∨ ∃ f, Homomorphism (.ofQuery b) (.ofQuery a) f

/-- A query implies the queries whose patterns map into its own. -/
theorem holds_of_homomorphism {f : Nat → Nat} (hf : Homomorphism (.ofQuery a) (.ofQuery b) f)
    {g : Graph} {u v : Vertex} (h : b.Holds g u v) : a.Holds g u v :=
  Pattern.matchesAt_ofQuery.1 (.of_homomorphism hf (Pattern.matchesAt_ofQuery.2 h))

end Query

/-! ### Conflicts -/

/-- A folded query was a core if and only if nothing of its pattern folds. -/
theorem Folded.wasCore_eq_true_iff {q : Query} :
    (Folded.ofQuery q).wasCore = true ↔ (Pattern.ofQuery q).Rigid := by
  rw [← Pattern.vertexCount_core_eq_iff_rigid (Pattern.wellFormed_ofQuery q)]
  exact beq_iff_eq

namespace Conflicts

variable {conflicts : Conflicts} {i j : Nat}

theorem holds_modify {i' j' : Nat} (hi : i' < conflicts.size) :
    holds (conflicts.modify i' (j' :: ·)) i j = true ↔
      conflicts.holds i j = true ∨ (i', j') = (i, j) := by
  unfold holds
  rw [Array.getD_eq_getD_getElem?, Array.getD_eq_getD_getElem?, Array.getElem?_modify]
  split
  · rename_i heq
    subst heq
    rw [Array.getElem?_eq_getElem hi]
    simp only [Option.map_some, Option.getD_some, List.contains_cons, Bool.or_eq_true, beq_iff_eq,
      Prod.mk.injEq, true_and]
    rw [or_comm, eq_comm (a := j)]
  · rename_i hne
    have hpair : (i', j') ≠ (i, j) := fun heq => hne (congrArg Prod.fst heq)
    rw [or_iff_left hpair]

/-- Ruling out pairs one after the other rules out those that did not stay cores. -/
theorem holds_foldl_modify {pairs : List (Nat × Nat × Folded)}
    (hpairs : ∀ x ∈ pairs, x.1 < conflicts.size) :
    holds (pairs.foldl (fun cs (i, j, f) => if f.wasCore then cs else cs.modify i (j :: ·)) conflicts)
      i j = true ↔ conflicts.holds i j = true ∨ ∃ f, (i, j, f) ∈ pairs ∧ f.wasCore = false := by
  induction pairs generalizing conflicts with
  | nil => simp
  | cons x pairs ih =>
      obtain ⟨i', j', f⟩ := x
      rw [List.forall_mem_cons] at hpairs
      have hhead : (∃ f', (i, j, f') = (i', j', f) ∧ f'.wasCore = false) ↔
          (i', j') = (i, j) ∧ f.wasCore = false := by
        constructor
        · rintro ⟨f', heq, hfolds⟩
          cases heq
          exact ⟨rfl, hfolds⟩
        · rintro ⟨heq, hfolds⟩
          cases heq
          exact ⟨f, rfl, hfolds⟩
      simp only [List.foldl_cons, List.mem_cons, or_and_right, exists_or, hhead]
      cases hcore : f.wasCore with
      | true =>
          rw [if_pos rfl, ih hpairs.2]
          simp
      | false =>
          have hsize : ∀ x ∈ pairs, x.1 < (conflicts.modify i' (j' :: ·)).size := by
            rw [Array.size_modify]
            exact hpairs.2
          rw [if_neg Bool.false_ne_true, ih hsize, holds_modify hpairs.1]
          simp only [and_true, or_assoc]

end Conflicts

namespace CoreSet

variable {workers : Nat} {timeout limit : Option Nat} {set set' : CoreSet} {inherited i j : Nat}
  {members more : List Nat} {a q : Query} {code : CoreHash} {core : Core}

theorem size_baseConflicts : (set.baseConflicts inherited).size = set.cores.size := by
  simp [baseConflicts, homomorphicConflicts]

/-- Two cores are ruled out of larger sets if one was found to map into the other, or else their
    intersection folds. -/
theorem holds_largerConflicts : (set.largerConflicts inherited).holds i j = true ↔
    (set.baseConflicts inherited).holds i j = true ∨
      (i, j) ∈ pairings set.cores.size inherited (set.baseConflicts inherited) ∧
        ¬ (Pattern.ofQuery (.intersect (set.queryAt i) (set.queryAt j))).Rigid := by
  unfold largerConflicts
  rw [Conflicts.holds_foldl_modify]
  · rw [← Folded.wasCore_eq_true_iff, Bool.not_eq_true]
    simp
  · rw [List.forall_mem_map]
    intro x hx
    rw [size_baseConflicts]
    exact (mem_pairings.1 hx).2.1

/-! ### Selections of cores -/

/-- Different places of cores, no more than the limit, and at most one of them inherited. -/
structure Selection (set : CoreSet) (inherited : Nat) (limit : Option Nat) (members : List Nat) :
    Prop where
  nodup : members.Nodup
  lt_size : ∀ i ∈ members, i < set.cores.size
  length_le : ∀ n, limit = some n → members.length ≤ n
  inherited : ∀ i ∈ members, ∀ j ∈ members, i < inherited → j < inherited → i = j

/-- If there are more members than two, no two of them fold when they are intersected, except where one maps
    into the other. -/
def Unfolding (set : CoreSet) (members : List Nat) : Prop :=
  3 ≤ members.length → ∀ i ∈ members, ∀ j ∈ members, j < i →
    (set.queryAt i).Related (set.queryAt j) ∨
      (Pattern.ofQuery (.intersect (set.queryAt i) (set.queryAt j))).Rigid

/-- No member maps into another one. -/
def Unrelated (set : CoreSet) (members : List Nat) : Prop :=
  ∀ i ∈ members, ∀ j ∈ members, i ≠ j →
    ¬ ∃ f, Homomorphism (.ofQuery (set.queryAt i)) (.ofQuery (set.queryAt j)) f

namespace Selection

variable (h : set.Selection inherited limit members)

include h in
/-- Some of the members, in whatever order, are a selection. -/
theorem of_subset (hnodup : more.Nodup) (hsub : more ⊆ members) :
    set.Selection inherited limit more where
  nodup := hnodup
  lt_size := fun i hi => h.lt_size i (hsub hi)
  length_le := fun n hn =>
    Nat.le_trans (List.subperm_of_subset hnodup hsub).length_le (h.length_le n hn)
  inherited := fun i hi j hj => h.inherited i (hsub hi) j (hsub hj)

include h in
theorem length_le_getD : members.length ≤ limit.getD set.cores.size := by
  cases hlimit : limit with
  | some n => exact h.length_le n hlimit
  | none =>
      have hsub : members ⊆ List.range set.cores.size := fun i hi => List.mem_range.2 (h.lt_size i hi)
      have hle := (List.subperm_of_subset h.nodup hsub).length_le
      rw [List.length_range] at hle
      exact hle

include h in
/-- Of two members, the later one is not inherited. -/
theorem inherited_le (hi : i ∈ members) (hj : j ∈ members) (hlt : j < i) : inherited ≤ i := by
  apply Nat.le_of_not_lt
  intro hearly
  exact Nat.ne_of_gt hlt (h.inherited i hi j hj hearly (Nat.lt_trans hlt hearly))

end Selection

theorem Unfolding.of_subset (h : set.Unfolding members) (hnodup : more.Nodup) (hsub : more ⊆ members) :
    set.Unfolding more := fun hlen i hi j hj =>
  h (Nat.le_trans hlen (List.subperm_of_subset hnodup hsub).length_le) i (hsub hi) j (hsub hj)

theorem exists_intersectAll (h : members ≠ []) :
    ∃ q, Query.intersectAll? (members.map set.queryAt) = some q := by
  cases members with
  | nil => exact absurd rfl h
  | cons i members => exact ⟨_, rfl⟩

/-- The same members have the same intersection. -/
theorem agrees_of_mem_iff {b : Query} (ha : Query.intersectAll? (members.map set.queryAt) = some a)
    (hb : Query.intersectAll? (more.map set.queryAt) = some b) (h : ∀ i, i ∈ members ↔ i ∈ more) :
    a.Agrees b := by
  intro g u v
  rw [Query.holds_intersectAll ha, Query.holds_intersectAll hb, List.forall_mem_map,
    List.forall_mem_map]
  simp only [h]

/-- A member that maps into another one adds nothing to the intersection. -/
theorem agrees_erase {b : Query} {f : Nat → Nat} (hnodup : members.Nodup) (hj : j ∈ members) (hne : i ≠ j)
    (hf : Homomorphism (.ofQuery (set.queryAt i)) (.ofQuery (set.queryAt j)) f)
    (ha : Query.intersectAll? (members.map set.queryAt) = some a)
    (hb : Query.intersectAll? ((members.erase i).map set.queryAt) = some b) : b.Agrees a := by
  intro g u v
  rw [Query.holds_intersectAll ha, Query.holds_intersectAll hb, List.forall_mem_map,
    List.forall_mem_map]
  simp only [hnodup.mem_erase_iff]
  constructor
  · intro h k hk
    by_cases hki : k = i
    · rw [hki]
      exact Query.holds_of_homomorphism hf (h j ⟨hne.symm, hj⟩)
    · exact h k ⟨hki, hk⟩
  · exact fun h k hk => h k hk.2

/-- If no member is implied by the others, an intersection of some members that agrees with that of all
    members is of all members. -/
theorem subset_of_agrees {p : Query} (hsub : more ⊆ members)
    (hq : Query.intersectAll? (members.map set.queryAt) = some q)
    (hp : Query.intersectAll? (more.map set.queryAt) = some p) (hagrees : p.Agrees q)
    (hindependent : ∀ z ∈ members, ¬ ∀ g u v,
      (∀ i ∈ members, i ≠ z → (set.queryAt i).Holds g u v) → (set.queryAt z).Holds g u v) :
    members ⊆ more := by
  intro z hz
  by_contra hmissing
  apply hindependent z hz
  intro g u v hothers
  have hpholds : p.Holds g u v := by
    rw [Query.holds_intersectAll hp, List.forall_mem_map]
    intro i hi
    exact hothers i (hsub hi) fun heq => hmissing (heq ▸ hi)
  have hqholds := (hagrees g u v).1 hpholds
  exact (Query.holds_intersectAll hq).1 hqholds _ (List.mem_map_of_mem hz)

/-! ### What is tried -/

theorem queryAt_of_getElem? (h : set.cores.toList[i]? = some core) : set.queryAt i = core.query := by
  rw [queryAt, Array.getD_eq_getD_getElem?, Array.getElem?_map, ← Array.getElem?_toList, h]
  rfl

/-- A pair of cores is ruled out if and only if one maps into the other and neither is inherited. -/
theorem holds_baseConflicts : (set.baseConflicts inherited).holds i j = true ↔
    i < set.cores.size ∧ inherited ≤ j ∧ j < i ∧ (set.queryAt i).Related (set.queryAt j) := by
  have hpattern : ∀ k < set.cores.size, ((set.cores.map Core.query).map Pattern.ofQuery)[k]? =
      some (.ofQuery (set.queryAt k)) := by
    intro k hk
    rw [Array.getElem?_map, queryAt, Array.getD_eq_getD_getElem?,
      Array.getElem?_eq_getElem (by rwa [Array.size_map])]
    rfl
  rw [baseConflicts, Conflicts.holds, homomorphicConflicts, Array.getD_eq_getD_getElem?,
    Array.getElem?_map, Array.getElem?_zipIdx]
  rcases Nat.lt_or_ge i set.cores.size with hi | hi
  · rw [hpattern i hi]
    simp only [Option.map_some, Option.getD_some, List.contains_iff_mem, List.mem_filter,
      List.mem_range'_1, Nat.zero_add, hi, true_and]
    have hbounds := Pattern.inBounds_ofQuery
    constructor
    · rintro ⟨⟨hle, hlt⟩, hmaps⟩
      have hlt : j < i := by omega
      rw [hpattern j (Nat.lt_trans hlt hi), Option.any_some, Bool.or_eq_true,
        Pattern.mapsInto_eq_true_iff (hbounds _) (hbounds _),
        Pattern.mapsInto_eq_true_iff (hbounds _) (hbounds _)] at hmaps
      exact ⟨hle, hlt, hmaps⟩
    · rintro ⟨hle, hlt, hmaps⟩
      rw [hpattern j (Nat.lt_trans hlt hi), Option.any_some, Bool.or_eq_true,
        Pattern.mapsInto_eq_true_iff (hbounds _) (hbounds _),
        Pattern.mapsInto_eq_true_iff (hbounds _) (hbounds _)]
      exact ⟨⟨hle, by omega⟩, hmaps⟩
  · have hnone : ((set.cores.map Core.query).map Pattern.ofQuery)[i]? = none :=
      Array.getElem?_eq_none (by simpa using hi)
    rw [hnone]
    simp [Nat.not_lt.2 hi]

theorem Unrelated.not_related (h : set.Unrelated members) (hi : i ∈ members) (hj : j ∈ members)
    (hne : i ≠ j) : ¬ (set.queryAt i).Related (set.queryAt j) := by
  rintro (hinto | hback)
  · exact h i hi j hj hne hinto
  · exact h j hj i hi hne.symm hback

/-- Two members of which neither maps into the other are intersected. -/
theorem mem_pairings_of_unrelated (h : set.Selection inherited limit members)
    (hunrelated : set.Unrelated members) (hi : i ∈ members) (hj : j ∈ members) (hlt : j < i) :
    (i, j) ∈ pairings set.cores.size inherited (set.baseConflicts inherited) := by
  refine mem_pairings.2 ⟨h.inherited_le hi hj hlt, h.lt_size i hi, hlt, ?_⟩
  apply Bool.eq_false_iff.2
  intro hconflict
  exact hunrelated.not_related hi hj (Nat.ne_of_gt hlt) (holds_baseConflicts.1 hconflict).2.2.2

/-- A larger set that is tried is a selection in which no two members fold. -/
theorem selection_of_mem_subsetsOf (h : members ∈ subsetsOf set.cores.size inherited
    (limit.getD set.cores.size) (set.largerConflicts inherited)) :
    set.Selection inherited limit members ∧ set.Unfolding members ∧ 3 ≤ members.length := by
  obtain ⟨hsub, hlen, hle, hcompatible⟩ := mem_subsetsOf.1 h
  have hselection : set.Selection inherited limit members := by
    constructor
    case nodup => exact hsub.nodup List.nodup_range
    case lt_size => exact fun i hi => List.mem_range.1 (hsub.subset hi)
    case length_le =>
      intro n hn
      rw [hn] at hle
      exact hle
    case inherited =>
      intro i hi j hj hearly hearly'
      rcases Nat.lt_trichotomy i j with hlt | heq | hlt
      · exact absurd hearly' (Nat.not_lt.2 ((hcompatible i hi j hj hlt).1 hearly))
      · exact heq
      · exact absurd hearly (Nat.not_lt.2 ((hcompatible j hj i hi hlt).1 hearly'))
  refine ⟨hselection, fun _ i hi j hj hlt => ?_, hlen⟩
  have hfree := Bool.eq_false_iff.1 (hcompatible j hj i hi hlt).2
  rw [Ne, holds_largerConflicts, not_or, Bool.not_eq_true] at hfree
  right
  by_contra hfolds
  exact hfree.2 ⟨mem_pairings.2 ⟨hselection.inherited_le hi hj hlt, hselection.lt_size i hi, hlt,
    hfree.1⟩, hfolds⟩

/-- A larger selection is tried if no member maps into another and no two members fold. -/
theorem mem_subsetsOf_of_unrelated (h : set.Selection inherited limit members)
    (hunfolding : set.Unfolding members) (hunrelated : set.Unrelated members)
    (hsub : members.Sublist (List.range set.cores.size)) (hlen : 3 ≤ members.length) :
    members ∈ subsetsOf set.cores.size inherited (limit.getD set.cores.size)
      (set.largerConflicts inherited) := by
  refine mem_subsetsOf.2 ⟨hsub, hlen, h.length_le_getD, fun j hj i hi hlt => ⟨fun _ => ?_, ?_⟩⟩
  · exact h.inherited_le hi hj hlt
  · have hnot := hunrelated.not_related hi hj (Nat.ne_of_gt hlt)
    apply Bool.eq_false_iff.2
    intro hconflict
    rcases holds_largerConflicts.1 hconflict with hbase | ⟨_, hfolds⟩
    · exact hnot (holds_baseConflicts.1 hbase).2.2.2
    · exact hfolds ((hunfolding hlen i hi j hj hlt).resolve_left hnot)

section Close

variable (hset : set.Proper (.ofWorkers workers timeout))
  (hclose : set.close (.ofWorkers workers timeout) limit inherited = .ok set')

include hset hclose

omit hset in
/-- The cores are kept. -/
theorem hasCore_of_lt_size (hi : i < set.cores.size) : HasCore set'.cores.toList (set.queryAt i) := by
  obtain ⟨core, hcore, hquery⟩ := queryAt_eq hi
  obtain ⟨_, htakes⟩ := takes_of_close hclose
  exact hquery ▸ .of_mem (htakes.before.subset hcore)

/-- Two cores of which neither maps into the other are intersected. -/
theorem hasCore_of_pair (h : set.Selection inherited limit members) (hunrelated : set.Unrelated members)
    (hi : i ∈ members) (hj : j ∈ members) (hlt : j < i) :
    HasCore set'.cores.toList (.intersect (set.queryAt i) (set.queryAt j)) := by
  obtain ⟨mid, hmid, hlarger⟩ := close_eq_ok hclose
  have hkept : ∀ h ∈ mid.hashes, h ∈ set'.hashes := by
    split at hlarger
    · rw [hlarger]
      exact fun _ => id
    · obtain ⟨_, hmore⟩ := takes_of_absorb hlarger
      exact hmore.kept
  have hitem : folded (.intersect (set.queryAt i) (set.queryAt j)) ∈ set.pairItems inherited :=
    List.mem_map.2 ⟨(i, j), mem_pairings_of_unrelated h hunrelated hi hj hlt, rfl⟩
  exact (proper_of_close hclose hset).hasCore_of_absorb hmid hkept hitem
    (Pattern.standsFor_canonicalPattern _)

/-- More cores are intersected if none maps into another and no two fold. -/
theorem hasCore_of_larger (h : set.Selection inherited limit members) (hunfolding : set.Unfolding members)
    (hunrelated : set.Unrelated members) (hlen : 3 ≤ members.length)
    (hq : Query.intersectAll? (members.map set.queryAt) = some q) : HasCore set'.cores.toList q := by
  -- The members are tried in ascending order.
  have hsub : ((List.range set.cores.size).filter (· ∈ members)).Sublist
      (List.range set.cores.size) := List.filter_sublist
  have hmem : ∀ i, i ∈ (List.range set.cores.size).filter (· ∈ members) ↔ i ∈ members := by
    intro i
    simp only [List.mem_filter, List.mem_range, decide_eq_true_eq, and_iff_right_iff_imp]
    exact h.lt_size i
  generalize (List.range set.cores.size).filter (· ∈ members) = sorted at hsub hmem
  have hnodup := hsub.nodup List.nodup_range
  have hperm := (List.perm_ext_iff_of_nodup hnodup h.nodup).2 hmem
  have hlen' : 3 ≤ sorted.length := hperm.length_eq ▸ hlen
  have htried := mem_subsetsOf_of_unrelated (h.of_subset hnodup hperm.subset)
    (hunfolding.of_subset hnodup hperm.subset)
    (fun i hi j hj => hunrelated i ((hmem i).1 hi) j ((hmem j).1 hj)) hsub hlen'
  obtain ⟨b, hb⟩ : ∃ b, Query.intersectAll? (sorted.map set.queryAt) = some b :=
    exists_intersectAll (List.ne_nil_of_length_pos (Nat.lt_of_lt_of_le (by decide) hlen'))
  obtain ⟨mid, _, hlarger⟩ := close_eq_ok hclose
  rw [if_neg (Nat.not_lt.2 (Nat.le_trans hlen h.length_le_getD))] at hlarger
  have hitem : folded b ∈ set.largerItems inherited (limit.getD set.cores.size)
      (set.largerConflicts inherited) :=
    List.mem_filterMap.2 ⟨sorted, htried, by rw [hb]; rfl⟩
  exact ((proper_of_close hclose hset).hasCore_of_absorb hlarger (fun _ => id) hitem
    (Pattern.standsFor_canonicalPattern _)).congr (agrees_of_mem_iff hb hq hmem)

/-- The intersection of selected cores no two of which fold is there. As long as a member maps into another,
    it is left out; in the end what remains is a core, a pair or a larger set that is tried. -/
theorem hasCore_of_selection (h : set.Selection inherited limit members)
    (hunfolding : set.Unfolding members)
    (hq : Query.intersectAll? (members.map set.queryAt) = some q) : HasCore set'.cores.toList q := by
  induction hlen : members.length using Nat.strong_induction_on generalizing members q with
  | _ n ih =>
      subst hlen
      by_cases hunrelated : set.Unrelated members
      · match members, h, hunfolding, hunrelated, hq with
        | [], _, _, _, hq => cases hq
        | [i], h, _, _, hq =>
            cases hq
            exact hasCore_of_lt_size hclose (h.lt_size i (List.mem_singleton_self i))
        | [i, j], h, _, hunrelated, hq =>
            cases hq
            have hi : i ∈ [i, j] := List.mem_cons_self ..
            have hj : j ∈ [i, j] := List.mem_cons_of_mem _ (List.mem_singleton_self j)
            have hne : i ≠ j := by simpa using h.nodup
            rcases Nat.lt_or_gt_of_ne hne with hlt | hlt
            · exact (hasCore_of_pair hset hclose h hunrelated hj hi hlt).congr
                (Query.Agrees.intersect_comm _ _)
            · exact hasCore_of_pair hset hclose h hunrelated hi hj hlt
        | i :: j :: k :: members, h, hunfolding, hunrelated, hq =>
            exact hasCore_of_larger hset hclose h hunfolding hunrelated (by simp) hq
      · simp only [Unrelated, not_forall, not_not] at hunrelated
        obtain ⟨i, hi, j, hj, hne, f, hf⟩ := hunrelated
        have hnodup : (members.erase i).Nodup := h.nodup.erase i
        have hsub : members.erase i ⊆ members := List.erase_subset
        have hmem : j ∈ members.erase i := h.nodup.mem_erase_iff.2 ⟨hne.symm, hj⟩
        obtain ⟨b, hb⟩ : ∃ b, Query.intersectAll? ((members.erase i).map set.queryAt) = some b :=
          exists_intersectAll (List.ne_nil_of_mem hmem)
        have hless : (members.erase i).length < members.length := by
          rw [List.length_erase_of_mem hi]
          exact Nat.pred_lt (Nat.ne_of_gt (List.length_pos_of_mem hi))
        exact (ih _ hless (h.of_subset hnodup hsub) (hunfolding.of_subset hnodup hsub) hb rfl).congr
          (agrees_erase h.nodup hj hne hf hq hb)

end Close

/-- Two cores of which the later one is not inherited are a selection, if the limit allows two. -/
theorem selection_pair (hlimit : ∀ n, limit = some n → 2 ≤ n) (hinherited : inherited ≤ i)
    (hi : i < set.cores.size) (hlt : j < i) : set.Selection inherited limit [i, j] where
  nodup := by simpa using Nat.ne_of_gt hlt
  lt_size := by simpa using ⟨hi, Nat.lt_trans hlt hi⟩
  length_le := hlimit
  inherited := by
    have hlast : ∀ k ∈ [i, j], k < inherited → k = j := by
      simp [Nat.not_lt.2 hinherited]
    intro k hk l hl hearly hearly'
    rw [hlast k hk hearly, hlast l hl hearly']

/-- The closed set has the intersection of every core that is not inherited with every core. -/
theorem hasCore_of_close (hset : set.Proper (.ofWorkers workers timeout))
    (hclose : set.close (.ofWorkers workers timeout) limit inherited = .ok set')
    (hlimit : ∀ n, limit = some n → 2 ≤ n) (hi : i < set.cores.size) (hj : j < set.cores.size)
    (hinherited : inherited ≤ i) :
    HasCore set'.cores.toList (.intersect (set.queryAt i) (set.queryAt j)) := by
  have hfew : ∀ k l, set.Unfolding [k, l] := fun k l hlen => absurd hlen (by simp)
  rcases Nat.lt_trichotomy j i with hlt | rfl | hgt
  · exact hasCore_of_selection hset hclose (selection_pair hlimit hinherited hi hlt) (hfew _ _) rfl
  · exact (hasCore_of_lt_size hclose hi).congr (Query.Agrees.intersect_of_imp fun _ _ _ => id).symm
  · have hlater := Nat.le_of_lt (Nat.lt_of_le_of_lt hinherited hgt)
    exact (hasCore_of_selection hset hclose (selection_pair hlimit hlater hj hgt) (hfew _ _) rfl).congr
      (Query.Agrees.intersect_comm _ _)

/-! ### Three cores, two of which fold -/

theorem queryAt_eq_getD (set : CoreSet) (i : Nat) :
    set.queryAt i = (set.cores.toList.map Core.query).getD i .identity := by
  simp [queryAt]

/-- Three queries. The first two ask for a walk along 0 and 1, and these walks fold onto each other when the
    queries are intersected, though neither maps into the other: only the first one asks for an edge 2 from
    source to target, and only the second one for an edge 2 from the middle of the walk. -/
def foldingQueries : List Query :=
  [.intersect (.concat (.label ⟨0, false⟩) (.label ⟨1, false⟩)) (.label ⟨2, false⟩),
    .concat (.label ⟨0, false⟩) (.intersect (.label ⟨1, false⟩) (.label ⟨2, false⟩)),
    .label ⟨1, false⟩]

theorem short_of_foldingQueries : ∀ a ∈ foldingQueries, a.nodes ≤ 4 ∧ a.Below 3 := by
  simp [foldingQueries, Query.nodes, Query.Below]

/-- The intersection of up to three of the queries is within the limits. -/
theorem withinLimits_of_foldingQueries {qs : List Query} (h : Query.intersectAll? qs = some q)
    (hqs : ∀ a ∈ qs, a ∈ foldingQueries) (hlen : qs.length ≤ 3) : (Pattern.ofQuery q).WithinLimits := by
  have hnodes := Query.nodes_intersectAll_le h fun a ha => (short_of_foldingQueries a (hqs a ha)).1
  have hbelow : q.Below 3 := Query.of_intersectAll (fun _ _ hleft hright => ⟨hleft, hright⟩) h
    fun a ha => (short_of_foldingQueries a (hqs a ha)).2
  apply Pattern.withinLimits_ofQuery _ hbelow (by decide)
  calc
    2 + q.nodes ≤ 2 + 3 * 4 :=
      Nat.add_le_add_left (Nat.le_trans hnodes (Nat.mul_le_mul_right 4 hlen)) 2
    _ ≤ maxCanonicalNodes := by decide

/-- Neither of the first two queries maps into the other, but their intersection folds. -/
theorem folds_of_foldingQueries :
    ¬ (foldingQueries.getD 1 .identity).Related (foldingQueries.getD 0 .identity) ∧
      ¬ (Pattern.ofQuery (.intersect (foldingQueries.getD 1 .identity)
        (foldingQueries.getD 0 .identity))).Rigid := by
  have hwell := Pattern.wellFormed_ofQuery
  constructor
  · have hinto : (Pattern.ofQuery (foldingQueries.getD 1 .identity)).mapsInto
        (.ofQuery (foldingQueries.getD 0 .identity)) = false := by cbv
    have hback : (Pattern.ofQuery (foldingQueries.getD 0 .identity)).mapsInto
        (.ofQuery (foldingQueries.getD 1 .identity)) = false := by cbv
    rw [Query.Related, ← Pattern.mapsInto_eq_true_iff (hwell _).inBounds (hwell _).inBounds,
      ← Pattern.mapsInto_eq_true_iff (hwell _).inBounds (hwell _).inBounds, hinto, hback]
    simp
  · rw [← Pattern.vertexCount_core_eq_iff_rigid (hwell _)]
    have hcore : (Pattern.ofQuery (.intersect (foldingQueries.getD 1 .identity)
        (foldingQueries.getD 0 .identity))).core.vertexCount = 3 := by cbv
    have hpattern : (Pattern.ofQuery (.intersect (foldingQueries.getD 1 .identity)
        (foldingQueries.getD 0 .identity))).vertexCount = 4 := by cbv
    rw [hcore, hpattern]
    decide

/-- No two of the three queries imply the third one. -/
theorem not_implied_of_foldingQueries : ∀ z ∈ [0, 1, 2], ¬ ∀ g u v,
    (∀ i ∈ [0, 1, 2], i ≠ z → (foldingQueries.getD i .identity).Holds g u v) →
      (foldingQueries.getD z .identity).Holds g u v := by
  have hpair : ∀ i j z, (Pattern.ofQuery (.intersect (foldingQueries.getD i .identity)
      (foldingQueries.getD j .identity))).WithinLimits →
      (Pattern.ofQuery (foldingQueries.getD z .identity)).mapsInto (.ofQuery (.intersect
        (foldingQueries.getD i .identity) (foldingQueries.getD j .identity))) = false →
      ∃ g u v, (foldingQueries.getD i .identity).Holds g u v ∧
        (foldingQueries.getD j .identity).Holds g u v ∧
        ¬ (foldingQueries.getD z .identity).Holds g u v := by
    intro i j z hlimits hnone
    by_contra hnever
    simp only [not_exists, not_and, not_not] at hnever
    have hsize := Nat.lt_of_le_of_lt (Nat.le_trans (Nat.le_add_right ..) hlimits.nodes)
      (by decide : maxCanonicalNodes < UInt32.size)
    have hmaps := Pattern.exists_homomorphism_of_matches (Pattern.wellFormed_ofQuery _) hsize
      hlimits.label fun g u v h =>
        have hholds := Pattern.matchesAt_ofQuery.1 h
        Pattern.matchesAt_ofQuery.2 (hnever g u v hholds.1 hholds.2)
    rw [← Pattern.mapsInto_eq_true_iff (Pattern.inBounds_ofQuery _) (Pattern.inBounds_ofQuery _),
      hnone] at hmaps
    cases hmaps
  simp only [List.mem_cons, List.not_mem_nil, or_false, forall_eq_or_imp, forall_eq]
  refine ⟨fun h => ?_, fun h => ?_, fun h => ?_⟩
  · obtain ⟨g, u, v, hi, hj, hz⟩ := hpair 1 2 0 (of_decide_eq_true (by cbv)) (by cbv)
    exact hz (h g u v ⟨fun hne => absurd rfl hne, fun _ => hi, fun _ => hj⟩)
  · obtain ⟨g, u, v, hi, hj, hz⟩ := hpair 0 2 1 (of_decide_eq_true (by cbv)) (by cbv)
    exact hz (h g u v ⟨fun _ => hi, fun hne => absurd rfl hne, fun _ => hj⟩)
  · obtain ⟨g, u, v, hi, hj, hz⟩ := hpair 0 1 2 (of_decide_eq_true (by cbv)) (by cbv)
    exact hz (h g u v ⟨fun _ => hi, fun _ => hj, fun hne => absurd rfl hne⟩)

/-- The three queries can be the cores of a set. -/
theorem exists_folding : ∃ set : CoreSet, set.Proper (.ofWorkers 1 none) ∧
    set.cores.toList.map Core.query = foldingQueries := by
  have hshort : ∀ q ∈ foldingQueries, (Pattern.ofQuery q).WithinLimits := fun q hq =>
    withinLimits_of_foldingQueries (rfl : Query.intersectAll? [q] = some q) (by simpa using hq)
      (by simp)
  obtain ⟨cores, hqueries, hcodes⟩ := exists_cores hshort
  exact ⟨_, proper_of_hasCode 0 hcodes, hqueries⟩

section Folding

variable (hqueries : set.cores.toList.map Core.query = foldingQueries)

include hqueries in
theorem size_of_folding : set.cores.size = 3 := by
  rw [← Array.length_toList, ← List.length_map (f := Core.query), hqueries]
  rfl

include hqueries in
theorem queryAt_of_folding : set.queryAt = fun i => foldingQueries.getD i .identity := by
  funext i
  rw [queryAt_eq_getD, hqueries]

include hqueries in
theorem selection_of_folding : set.Selection 0 none [0, 1, 2] where
  nodup := by decide
  lt_size := by
    rw [size_of_folding hqueries]
    decide
  length_le := by
    intro n hn
    cases hn
  inherited := fun i _ _ _ hi => absurd hi (Nat.not_lt_zero i)

include hqueries in
theorem withinLimits_of_folding (h : set.Selection 0 none members)
    (hq : Query.intersectAll? (members.map set.queryAt) = some q) :
    (Pattern.ofQuery q).core.WithinLimits := by
  have hmem : ∀ a ∈ members.map set.queryAt, a ∈ foldingQueries := by
    rw [List.forall_mem_map]
    intro i hi
    obtain ⟨core, hcore, heq⟩ := queryAt_eq (h.lt_size i hi)
    rw [heq, ← hqueries]
    exact List.mem_map_of_mem hcore
  have hlen : (members.map set.queryAt).length ≤ 3 := by
    rw [List.length_map, ← size_of_folding hqueries]
    exact h.length_le_getD
  exact (withinLimits_of_foldingQueries hq hmem hlen).core (Pattern.wellFormed_ofQuery q)

include hqueries in
/-- Only an intersection of all three queries agrees with that of all three. -/
theorem all_of_agrees (h : set.Selection 0 none members)
    (ha : Query.intersectAll? (members.map set.queryAt) = some a)
    (hq : Query.intersectAll? foldingQueries = some q) (hagrees : a.Agrees q) :
    [0, 1, 2] ⊆ members := by
  have hqueryAt := queryAt_of_folding hqueries
  have hplaces : members ⊆ [0, 1, 2] := fun i hi =>
    List.mem_range.2 (size_of_folding hqueries ▸ h.lt_size i hi : i < 3)
  have hall : Query.intersectAll? ([0, 1, 2].map set.queryAt) = some q := by
    rw [hqueryAt]
    exact hq
  apply subset_of_agrees hplaces hall ha hagrees
  rw [hqueryAt]
  exact not_implied_of_foldingQueries

include hqueries in
theorem not_unfolding_of_folding (hall : [0, 1, 2] ⊆ members) : ¬ set.Unfolding members := by
  intro hunfolding
  have hlen : 3 ≤ members.length := (List.subperm_of_subset (by decide) hall).length_le
  have hfolds := hunfolding hlen 1 (hall (by simp)) 0 (hall (by simp)) (by decide)
  rw [queryAt_of_folding hqueries] at hfolds
  exact hfolds.elim folds_of_foldingQueries.1 folds_of_foldingQueries.2

end Folding

/-! ### The closed set -/

/-- Closing succeeds if all intersections of selected cores have forms. -/
theorem exists_close (hlimit : ∀ n, limit = some n → 2 ≤ n)
    (hlimits : ∀ members q, set.Selection inherited limit members → 2 ≤ members.length →
      Query.intersectAll? (members.map set.queryAt) = some q →
      (Pattern.ofQuery q).core.WithinLimits) :
    ∃ set', set.close (.ofWorkers workers timeout) limit inherited = .ok set' := by
  have hresolve : ∀ q, (Pattern.ofQuery q).core.WithinLimits → ∀ i, ∃ form,
      (Canonicalizer.ofWorkers workers timeout).resolve i (.ofPattern (folded q).2) = .ok form :=
    fun q hq i => (Canonicalizer.exists_resolve_iff
      (Pattern.wellFormed_core (Pattern.wellFormed_ofQuery q))).2 hq
  have hpairs : ∀ item ∈ set.pairItems inherited, ∀ i, ∃ form,
      (Canonicalizer.ofWorkers workers timeout).resolve i (.ofPattern item.2) = .ok form := by
    intro item hitem
    obtain ⟨⟨i, j⟩, hpair, rfl⟩ := List.mem_map.1 hitem
    obtain ⟨hinherited, hi, hlt, _⟩ := mem_pairings.1 hpair
    exact hresolve _ (hlimits [i, j] _ (selection_pair hlimit hinherited hi hlt) (Nat.le_refl 2) rfl)
  have hlarger : ∀ item ∈ set.largerItems inherited (limit.getD set.cores.size)
      (set.largerConflicts inherited), ∀ i, ∃ form,
        (Canonicalizer.ofWorkers workers timeout).resolve i (.ofPattern item.2) = .ok form := by
    intro item hitem
    obtain ⟨members, hmembers, hitem⟩ := List.mem_filterMap.1 hitem
    obtain ⟨q, hq, rfl⟩ := Option.map_eq_some_iff.1 hitem
    obtain ⟨hselection, _, hlen⟩ := selection_of_mem_subsetsOf hmembers
    exact hresolve q (hlimits members q hselection (Nat.le_of_succ_le hlen) hq)
  obtain ⟨mid, hmid⟩ := exists_absorb set hpairs
  obtain ⟨last, hlast⟩ := exists_absorb mid hlarger
  rw [close_eq, hmid]
  by_cases hfew : limit.getD set.cores.size < 3
  · exact ⟨mid, if_pos hfew⟩
  · exact ⟨last, (if_neg hfew).trans hlast⟩

/-- Closing a set of cores under intersections of up to `limit` of them, all of which have forms, gives the
    codes of exactly these intersections: those of different cores, at most one of them inherited, among
    which, if they are more than two, no two fold when they are intersected unless one maps into the other. -/
theorem mem_hashes_close_iff (hset : set.Proper (.ofWorkers workers timeout))
    (hlimit : ∀ n, limit = some n → 2 ≤ n)
    (hlimits : ∀ members q, set.Selection inherited limit members → 2 ≤ members.length →
      Query.intersectAll? (members.map set.queryAt) = some q →
      (Pattern.ofQuery q).core.WithinLimits) :
    ∃ set', set.close (.ofWorkers workers timeout) limit inherited = .ok set' ∧
      ∀ code, code ∈ set'.hashes ↔ code ∈ set.hashes ∨
        ∃ members q, set.Selection inherited limit members ∧ 2 ≤ members.length ∧
          set.Unfolding members ∧ Query.intersectAll? (members.map set.queryAt) = some q ∧
          q.HasCode code := by
  obtain ⟨set', hclose⟩ : ∃ set', set.close (.ofWorkers workers timeout) limit inherited = .ok set' :=
    exists_close hlimit hlimits
  refine ⟨set', hclose, fun code => ?_⟩
  rw [mem_hashes_of_close hset.coherent hclose]
  constructor
  · rintro (hcode | ⟨item, hitem, hcode⟩ | ⟨_, item, hitem, hcode⟩)
    · exact .inl hcode
    · obtain ⟨⟨i, j⟩, hpair, rfl⟩ := List.mem_map.1 hitem
      obtain ⟨hinherited, hi, hlt, _⟩ := mem_pairings.1 hpair
      have hselection := selection_pair hlimit hinherited hi hlt
      exact .inr ⟨[i, j], _, hselection, Nat.le_refl 2, fun hlen => absurd hlen (by simp), rfl, hcode⟩
    · obtain ⟨members, hmembers, hitem⟩ := List.mem_filterMap.1 hitem
      obtain ⟨q, hq, rfl⟩ := Option.map_eq_some_iff.1 hitem
      obtain ⟨hselection, hunfolding, hlen⟩ := selection_of_mem_subsetsOf hmembers
      exact .inr ⟨members, q, hselection, Nat.le_of_succ_le hlen, hunfolding, hq, hcode⟩
  · rintro (hcode | ⟨members, q, hselection, _, hunfolding, hq, hcode⟩)
    · exact .inl hcode
    · exact (mem_hashes_of_close hset.coherent hclose).1 ((proper_of_close hclose hset).mem_hashes
        (hasCore_of_selection hset hclose hselection hunfolding hq) hcode)

/-- The code of the intersection of the three queries is not found, although that of the first two is, and
    the three are a selection that the limit allows. -/
theorem mem_hashes_close_iff_folding : ∃ set set' : CoreSet,
    set.Proper (.ofWorkers 1 none) ∧ set.cores.toList.map Core.query = foldingQueries ∧
    set.close (.ofWorkers 1 none) none 0 = .ok set' ∧ set.Selection 0 none [0, 1, 2] ∧
    (∃ p code, Query.intersectAll? (foldingQueries.take 2) = some p ∧ p.HasCode code ∧
      code ∈ set'.hashes) ∧
    ∃ q code, Query.intersectAll? foldingQueries = some q ∧ q.HasCode code ∧ code ∉ set'.hashes := by
  obtain ⟨set, hset, hqueries⟩ := exists_folding
  have hqueryAt := queryAt_of_folding hqueries
  have hselection := selection_of_folding hqueries
  have hlimit : ∀ n, (none : Option Nat) = some n → 2 ≤ n := by
    intro n hn
    cases hn
  obtain ⟨set', hclose, hhashes⟩ := mem_hashes_close_iff hset hlimit fun members q h _ hq =>
    withinLimits_of_folding hqueries h hq
  refine ⟨set, set', hset, hqueries, hclose, hselection, ?_, ?_⟩
  · have hpair : set.Selection 0 none [0, 1] := hselection.of_subset (by decide) (by simp)
    obtain ⟨p, hp⟩ : ∃ p, Query.intersectAll? ([0, 1].map set.queryAt) = some p := ⟨_, rfl⟩
    obtain ⟨code, hcode⟩ := Query.exists_hasCode_iff.2 (withinLimits_of_folding hqueries hpair hp)
    have hfound := (hhashes code).2 (.inr ⟨[0, 1], p, hpair, by decide,
      fun hlen => absurd hlen (by decide), hp, hcode⟩)
    rw [hqueryAt] at hp
    exact ⟨p, code, hp, hcode, hfound⟩
  · obtain ⟨q, hq⟩ : ∃ q, Query.intersectAll? ([0, 1, 2].map set.queryAt) = some q := ⟨_, rfl⟩
    obtain ⟨code, hcode⟩ := Query.exists_hasCode_iff.2 (withinLimits_of_folding hqueries hselection hq)
    rw [hqueryAt] at hq
    refine ⟨q, code, hq, hcode, fun hfound => ?_⟩
    rcases (hhashes code).1 hfound with hbase | ⟨members, a, h, _, hunfolding, ha, hacode⟩
    · obtain ⟨core, hcore, hhash⟩ := (hset.coherent code).1 hbase
      have hagrees := (hset.coded core hcore).agrees (hcode.coded 1 none) hhash
      obtain ⟨i, hi⟩ := List.mem_iff_getElem?.1 hcore
      have hlt : i < set.cores.size := (List.getElem?_eq_some_iff.1 hi).1
      have hone : set.Selection 0 none [i] := by
        apply hselection.of_subset (List.nodup_singleton i)
        intro k hk
        rw [List.mem_singleton.1 hk]
        exact List.mem_range.2 (size_of_folding hqueries ▸ hlt : i < 3)
      have hsub := all_of_agrees hqueries hone rfl hq (queryAt_of_getElem? hi ▸ hagrees)
      have hzero : 0 = i := List.mem_singleton.1 (hsub (by simp))
      have htwo : 2 = i := List.mem_singleton.1 (hsub (by simp))
      exact absurd (hzero.trans htwo.symm) (by decide)
    · have hall := all_of_agrees hqueries h ha hq (hacode.agrees hcode)
      exact not_unfolding_of_folding hqueries hall hunfolding

end CoreSet

end PathQueryIndex
