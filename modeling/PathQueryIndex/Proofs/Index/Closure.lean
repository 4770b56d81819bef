/-
Module: PathQueryIndex.Proofs.Index.Closure
Layer: Proofs
Purpose: Closing and anchoring a set of cores. Both only absorb queries that are made of those of the set:
  intersections of two of them, intersections of more of them, and at last intersections with the identity.
  So what holds of all cores of a set holds of all cores of the closed set, if intersections keep it.
Imports: PathQueryIndex.Proofs.Index.CoreSets, PathQueryIndex.Proofs.Index.Subsets
Main exports: CoreSet.pairItems, CoreSet.largerItems, CoreSet.close_eq, CoreSet.close_eq_ok,
  CoreSet.all_of_close, CoreSet.all_of_anchor
-/
import PathQueryIndex.Proofs.Index.CoreSets
import PathQueryIndex.Proofs.Index.Subsets

namespace PathQueryIndex

variable {c : Canonicalizer} {inherited : Nat} {conflicts : Conflicts}

/-! ### The members of the sets that are intersected -/

theorem mem_pairings {count i j : Nat} : (i, j) ∈ pairings count inherited conflicts ↔
    inherited ≤ i ∧ i < count ∧ j < i ∧ conflicts.holds i j = false := by
  simp only [pairings, List.mem_flatMap, List.mem_map, List.mem_filter, List.mem_range, Prod.mk.injEq,
    List.mem_range'_1]
  constructor
  · intro h
    obtain ⟨_, hi, _, ⟨hj, hfree⟩, rfl, rfl⟩ := h
    rw [Bool.not_eq_true'] at hfree
    exact ⟨hi.1, by omega, hj, hfree⟩
  · intro h
    obtain ⟨hle, hi, hj, hfree⟩ := h
    exact ⟨i, ⟨hle, by omega⟩, j, ⟨hj, by rw [hfree]; rfl⟩, rfl, rfl⟩

/-- What holds of some queries holds of their intersection, if it is kept by intersecting two. -/
theorem Query.of_intersectAll {P : Query → Prop} (hstep : ∀ a b, P a → P b → P (.intersect a b))
    {qs : List Query} {q : Query} (h : intersectAll? qs = some q) (hqs : ∀ a ∈ qs, P a) : P q := by
  cases qs with
  | nil => cases h
  | cons a qs =>
      cases h
      have hfold : ∀ (rest : List Query) (a : Query), P a → (∀ b ∈ rest, P b) →
          P (rest.foldl Query.intersect a) := by
        intro rest
        induction rest with
        | nil => exact fun _ ha _ => ha
        | cons b rest ih =>
            intro a ha hrest
            exact ih _ (hstep a b ha (hrest b (List.mem_cons_self ..)))
              fun x hx => hrest x (List.mem_cons_of_mem b hx)
      exact hfold qs a (hqs a (List.mem_cons_self ..)) fun b hb => hqs b (List.mem_cons_of_mem a hb)

namespace CoreSet

variable {set set' : CoreSet} {limit : Option Nat} {P : Core → Prop}

/-- The query of the core at a place. -/
def queryAt (set : CoreSet) (i : Nat) : Query := (set.cores.map Core.query).getD i .identity

/-- The pairs of cores of which one maps into the other. -/
def baseConflicts (set : CoreSet) (inherited : Nat) : Conflicts :=
  homomorphicConflicts ((set.cores.map Core.query).map Pattern.ofQuery) inherited

/-- A query with the pattern that stands for it. -/
def folded (q : Query) : Query × Pattern := (q, canonicalPattern q false)

/-- The intersections of two cores that closing absorbs. -/
def pairItems (set : CoreSet) (inherited : Nat) : List (Query × Pattern) :=
  (pairings set.cores.size inherited (set.baseConflicts inherited)).map fun (i, j) =>
    folded (.intersect (set.queryAt i) (set.queryAt j))

/-- The intersections of more cores that closing absorbs, some pairs of cores being ruled out. -/
def largerItems (set : CoreSet) (inherited limit : Nat) (conflicts : Conflicts) :
    List (Query × Pattern) :=
  (subsetsOf set.cores.size inherited limit conflicts).filterMap fun members =>
    (Query.intersectAll? (members.map set.queryAt)).map folded

/-- The pairs of cores that no set of three or more may have: those of which one maps into the other, and
    those whose intersection folds. -/
def largerConflicts (set : CoreSet) (inherited : Nat) : Conflicts :=
  ((pairings set.cores.size inherited (set.baseConflicts inherited)).map fun (i, j) =>
    (i, j, Folded.ofQuery (.intersect (set.queryAt i) (set.queryAt j)))).foldl
    (fun cs (i, j, f) => if f.wasCore then cs else cs.modify i (j :: ·)) (set.baseConflicts inherited)

/-- Closing absorbs the intersections of two cores, and then those of more if there may be more. -/
theorem close_eq (c : Canonicalizer) (limit : Option Nat) (inherited : Nat) (set : CoreSet) :
    set.close c limit inherited = (set.absorb c (set.pairItems inherited) >>= fun mid =>
      if limit.getD set.cores.size < 3 then .ok mid
      else mid.absorb c (set.largerItems inherited (limit.getD set.cores.size)
        (set.largerConflicts inherited))) := by
  simp only [close, Array.size_map, List.map_map, List.map_filterMap, Option.map_map]
  rfl

theorem close_eq_ok (h : set.close c limit inherited = .ok set') :
    ∃ mid, set.absorb c (set.pairItems inherited) = .ok mid ∧
      if limit.getD set.cores.size < 3 then set' = mid
      else mid.absorb c (set.largerItems inherited (limit.getD set.cores.size)
        (set.largerConflicts inherited)) = .ok set' := by
  rw [close_eq] at h
  obtain ⟨mid, hmid, h⟩ := bind_eq_ok.1 h
  refine ⟨mid, hmid, ?_⟩
  by_cases hfew : limit.getD set.cores.size < 3
  · rw [if_pos hfew] at h ⊢
    cases h
    rfl
  · rw [if_neg hfew] at h ⊢
    exact h

theorem takes_of_close (h : set.close c limit inherited = .ok set') :
    ∃ cores, Takes cores set set' := by
  obtain ⟨mid, hmid, hlarger⟩ := close_eq_ok h
  obtain ⟨first, hfirst⟩ := takes_of_absorb hmid
  split at hlarger
  · rw [hlarger]
    exact ⟨first, hfirst⟩
  · obtain ⟨more, hmore⟩ := takes_of_absorb hlarger
    exact ⟨first ++ more, hfirst.append hmore⟩

theorem queryAt_eq {i : Nat} (h : i < set.cores.size) :
    ∃ core ∈ set.cores.toList, set.queryAt i = core.query := by
  refine ⟨set.cores[i], Array.getElem_mem_toList h, ?_⟩
  rw [queryAt, Array.getD_eq_getD_getElem?, Array.getElem?_map, Array.getElem?_eq_getElem h]
  rfl

/-- What holds of the queries of all cores holds of every intersection that closing absorbs. -/
theorem of_mem_pairItems {Q : Query → Prop} (hset : ∀ core ∈ set.cores.toList, Q core.query)
    (hstep : ∀ a b, Q a → Q b → Q (.intersect a b)) {item : Query × Pattern}
    (h : item ∈ set.pairItems inherited) : Q item.1 ∧ item = folded item.1 := by
  obtain ⟨⟨i, j⟩, hij, rfl⟩ := List.mem_map.1 h
  obtain ⟨_, hi, hj, _⟩ := mem_pairings.1 hij
  obtain ⟨a, ha, haq⟩ := queryAt_eq hi
  obtain ⟨b, hb, hbq⟩ := queryAt_eq (Nat.lt_trans hj hi)
  refine ⟨?_, rfl⟩
  change Q (.intersect (set.queryAt i) (set.queryAt j))
  rw [haq, hbq]
  exact hstep _ _ (hset a ha) (hset b hb)

theorem of_mem_largerItems {Q : Query → Prop} (hset : ∀ core ∈ set.cores.toList, Q core.query)
    (hstep : ∀ a b, Q a → Q b → Q (.intersect a b)) {limit : Nat} {item : Query × Pattern}
    (h : item ∈ set.largerItems inherited limit conflicts) : Q item.1 ∧ item = folded item.1 := by
  obtain ⟨members, hmembers, hitem⟩ := List.mem_filterMap.1 h
  obtain ⟨q, hq, rfl⟩ := Option.map_eq_some_iff.1 hitem
  refine ⟨Query.of_intersectAll hstep hq fun a ha => ?_, rfl⟩
  obtain ⟨i, hi, rfl⟩ := List.mem_map.1 ha
  have hlt : i < set.cores.size := List.mem_range.1 ((mem_subsetsOf.1 hmembers).1.subset hi)
  obtain ⟨core, hcore, heq⟩ := queryAt_eq hlt
  rw [heq]
  exact hset core hcore

/-- A single core is closed. -/
theorem close_singleton (h : set.cores.size = 1) : set.close c none 0 = .ok set := by
  have hsize : (set.cores.map Core.query).size = 1 := by rw [Array.size_map, h]
  refine bind_eq_ok.2 ⟨set, ?_, ?_⟩
  · rw [hsize]
    exact absorb_nil ..
  · rw [hsize]
    rfl

/-- What holds of the queries of all cores, if intersections keep it, and of every core that a folded
    query gives, holds of all cores of the closed set. -/
theorem all_of_close {Q : Query → Prop} (hstep : ∀ a b, Q a → Q b → Q (.intersect a b))
    (hgives : ∀ q core, Q q → c.Gives (folded q) core → P core)
    (hquery : ∀ core, P core → Q core.query) (h : set.close c limit inherited = .ok set')
    (hset : ∀ core ∈ set.cores.toList, P core) : ∀ core ∈ set'.cores.toList, P core := by
  have hbase : ∀ core ∈ set.cores.toList, Q core.query := fun core hcore =>
    hquery core (hset core hcore)
  obtain ⟨mid, hmid, hlarger⟩ := close_eq_ok h
  have hpairs : ∀ core ∈ mid.cores.toList, P core := by
    refine all_of_absorb hmid hset fun item hitem core hcore => ?_
    obtain ⟨hq, heq⟩ := of_mem_pairItems hbase hstep hitem
    rw [heq] at hcore
    exact hgives _ core hq hcore
  split at hlarger
  · rw [hlarger]
    exact hpairs
  · refine all_of_absorb hlarger hpairs fun item hitem core hcore => ?_
    obtain ⟨hq, heq⟩ := of_mem_largerItems hbase hstep hitem
    rw [heq] at hcore
    exact hgives _ core hq hcore

/-- What holds of the queries of all cores, if intersecting with the identity keeps it, and of every core
    that a folded query gives, holds of all cores of the anchored set. -/
theorem all_of_anchor {Q : Query → Prop} (hstep : ∀ a, Q a → Q (.intersect a .identity))
    (hgives : ∀ q core, Q q → c.Gives (folded q) core → P core)
    (hquery : ∀ core, P core → Q core.query) (h : set.anchor c inherited = .ok set')
    (hset : ∀ core ∈ set.cores.toList, P core) : ∀ core ∈ set'.cores.toList, P core := by
  refine all_of_absorb h hset fun item hitem core hcore => ?_
  obtain ⟨base, hbase, rfl⟩ := List.mem_map.1 hitem
  exact hgives _ core (hstep _ (hquery _ (hset _ (List.mem_of_mem_drop hbase)))) hcore

end CoreSet

end PathQueryIndex
