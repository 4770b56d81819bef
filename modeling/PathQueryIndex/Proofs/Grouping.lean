/-
Module: PathQueryIndex.Proofs.Grouping
Layer: Proofs
Purpose: What sorting and cutting give together. If a list ascends, cutting it where neighbours differ
  gathers everything that compares equal: two elements of one run are equal, and all of a run is less
  than all of a later one. So grouping by a key gives every key once, with exactly its values, and as sorting
  leaves the elements with one key in their order, they stand in their order in the group. Ascending lists
  with as many elements of each kind compare equal element by element.
Imports: PathQueryIndex.OrderedSet, Mathlib.Data.List.Forall2
Main exports: eq_of_mem_runs, pairwise_runs, mem_run_of_eq, forall₂_runs, forall₂_perm_runs,
  sorted_eq_of_perm, forall₂_eq_of_countP_eq, mem_values_of_mem_groupByKey, exists_mem_groupByKey,
  mem_group_iff, filter_sortedOn, lookup_groupByKey, flatMap_values_groupByKey, mem_keys_groupByKey,
  nodup_keys_groupByKey, OrderedSet.exists_mem_ofList
-/
import PathQueryIndex.OrderedSet
import Mathlib.Data.List.Forall2

namespace PathQueryIndex

open Std

universe u

variable {α : Type u}

/-! ### Runs of an ascending list -/

/-- A new element is a run of its own, or it joins the first run if it is the same as its head. -/
theorem runs_cons (same : α → α → Bool) (x : α) (xs : List α) :
    (xs = [] ∧ runs same (x :: xs) = [[x]]) ∨
      ∃ y ys rest, runs same xs = (y :: ys) :: rest ∧ runs same (x :: xs) =
        if same x y then (x :: y :: ys) :: rest else [x] :: (y :: ys) :: rest := by
  cases hruns : runs same xs with
  | nil =>
      have hflat := flatten_runs same xs
      rw [hruns] at hflat
      exact .inl ⟨hflat.symm, by simp [runs, hruns]⟩
  | cons r rest =>
      cases r with
      | nil => exact absurd rfl (ne_nil_of_mem_runs (hruns ▸ List.mem_cons_self ..))
      | cons y ys => exact .inr ⟨y, ys, rest, rfl, by simp [runs, hruns]⟩

section Runs

variable {cmp : α → α → Ordering} [TransCmp cmp] {xs : List α}

/-- If neighbours are cut apart where they do not compare equal, all of a run compares equal. -/
theorem pairwise_of_mem_runs {r : List α} (hr : r ∈ runs (fun a b => cmp a b == .eq) xs) :
    r.Pairwise fun a b => cmp a b = .eq := by
  induction xs generalizing r with
  | nil => simp [runs] at hr
  | cons x xs ih =>
      rcases runs_cons (fun a b => cmp a b == .eq) x xs with ⟨_, hcut⟩ | ⟨y, ys, rest, hruns, hcut⟩
      · rw [hcut] at hr
        rw [List.mem_singleton.1 hr]
        exact List.pairwise_singleton ..
      · rw [hruns] at ih
        have hfirst := ih (List.mem_cons_self ..)
        rw [hcut] at hr
        split at hr
        · rename_i hxy
          rcases List.mem_cons.1 hr with rfl | hr
          · refine List.pairwise_cons.2 ⟨fun b hb => ?_, hfirst⟩
            have hxy : cmp x y = .eq := by simpa using hxy
            rcases List.mem_cons.1 hb with rfl | hb
            · exact hxy
            · exact TransCmp.eq_trans hxy ((List.pairwise_cons.1 hfirst).1 b hb)
          · exact ih (List.mem_cons_of_mem _ hr)
        · rcases List.mem_cons.1 hr with rfl | hr
          · exact List.pairwise_singleton ..
          · exact ih hr

/-- Any two elements of a run compare equal. -/
theorem eq_of_mem_runs {r : List α} {a b : α} (hr : r ∈ runs (fun a b => cmp a b == .eq) xs)
    (ha : a ∈ r) (hb : b ∈ r) : cmp a b = .eq := by
  have hpair := pairwise_of_mem_runs hr
  have hflip := hpair.imp fun h => OrientedCmp.eq_symm h
  exact hpair.forall_of_forall_of_flip (fun _ _ => ReflCmp.compare_self) hflip ha hb

/-- The runs of an ascending list ascend strictly. -/
theorem pairwise_runs (h : xs.Pairwise fun a b => (cmp a b).isLE = true) :
    (runs (fun a b => cmp a b == .eq) xs).Pairwise fun r t =>
      ∀ a ∈ r, ∀ b ∈ t, cmp a b = .lt := by
  induction xs with
  | nil => exact .nil
  | cons x xs ih =>
      have hx := (List.pairwise_cons.1 h).1
      have ih := ih (List.pairwise_cons.1 h).2
      rcases runs_cons (fun a b => cmp a b == .eq) x xs with ⟨_, hcut⟩ | ⟨y, ys, rest, hruns, hcut⟩
      · rw [hcut]
        exact List.pairwise_singleton ..
      · have hfirst : (y :: ys) ∈ runs (fun a b => cmp a b == .eq) xs :=
          hruns ▸ List.mem_cons_self ..
        have hxy := hx y (mem_of_mem_runs hfirst (List.mem_cons_self ..))
        rw [hruns] at ih
        obtain ⟨hlater, hrest⟩ := List.pairwise_cons.1 ih
        rw [hcut]
        split
        · rename_i heq
          have heq : cmp x y = .eq := by simpa using heq
          refine List.pairwise_cons.2 ⟨fun t ht a ha b hb => ?_, hrest⟩
          rcases List.mem_cons.1 ha with rfl | ha
          · exact TransCmp.lt_of_eq_of_lt heq (hlater t ht y (List.mem_cons_self ..) b hb)
          · exact hlater t ht a ha b hb
        · rename_i hne
          have hlt : cmp x y = .lt := by
            cases hc : cmp x y with
            | lt => rfl
            | eq => simp [hc] at hne
            | gt => simp [hc] at hxy
          refine List.pairwise_cons.2 ⟨fun t ht a ha b hb => ?_, ih⟩
          rw [List.mem_singleton.1 ha]
          rcases List.mem_cons.1 ht with rfl | ht
          · exact TransCmp.lt_of_lt_of_eq hlt (eq_of_mem_runs hfirst (List.mem_cons_self ..) hb)
          · exact TransCmp.lt_trans hlt (hlater t ht y (List.mem_cons_self ..) b hb)

/-- Whatever compares equal to an element of an ascending list stands in its run. -/
theorem mem_run_of_eq (h : xs.Pairwise fun a b => (cmp a b).isLE = true) {r : List α} {a b : α}
    (hr : r ∈ runs (fun a b => cmp a b == .eq) xs) (ha : a ∈ r) (hb : b ∈ xs)
    (hab : cmp a b = .eq) : b ∈ r := by
  rw [← flatten_runs (fun a b => cmp a b == .eq) xs] at hb
  obtain ⟨t, ht, hbt⟩ := List.mem_flatten.1 hb
  obtain ⟨i, hi, rfl⟩ := List.mem_iff_getElem.1 hr
  obtain ⟨j, hj, rfl⟩ := List.mem_iff_getElem.1 ht
  have hpair := List.pairwise_iff_getElem.1 (pairwise_runs h)
  rcases Nat.lt_trichotomy i j with hlt | rfl | hgt
  · have := hpair i j hi hj hlt a ha b hbt
    rw [hab] at this
    cases this
  · exact hbt
  · have := hpair j i hj hi hgt b hbt a ha
    rw [OrientedCmp.eq_symm hab] at this
    cases this

end Runs

/-- Mapping a list maps its runs. -/
theorem runs_map {β : Type u} (same : β → β → Bool) (f : α → β) (xs : List α) :
    runs same (xs.map f) = (runs (fun a b => same (f a) (f b)) xs).map (List.map f) := by
  induction xs with
  | nil => rfl
  | cons x xs ih =>
      rw [List.map_cons]
      rcases runs_cons (fun a b => same (f a) (f b)) x xs with ⟨rfl, _⟩ | ⟨y, ys, rest, hruns, hcut⟩
      · rfl
      · rw [hruns] at ih
        rw [hcut]
        simp only [runs, ih, List.map_cons]
        split <;> rfl

theorem length_runs_pos (same : α → α → Bool) {xs : List α} (h : xs ≠ []) : 0 < (runs same xs).length := by
  rw [List.length_pos_iff]
  intro hnil
  have hflat := flatten_runs same xs
  rw [hnil] at hflat
  exact h hflat.symm

theorem length_runs_cons_cons (same : α → α → Bool) (x y : α) (xs : List α) :
    (runs same (x :: y :: xs)).length =
      (runs same (y :: xs)).length + if same x y then 0 else 1 := by
  rcases runs_cons same x (y :: xs) with ⟨hnil, _⟩ | ⟨z, zs, rest, hruns, hcut⟩
  · cases hnil
  · have hflat := flatten_runs same (y :: xs)
    rw [hruns] at hflat
    obtain ⟨rfl, _⟩ := List.cons.inj hflat
    rw [hcut, hruns]
    by_cases h : same x z = true
    · rw [if_pos h, if_pos h]
      rfl
    · rw [if_neg h, if_neg h]
      rfl

/-- Related lists are cut at the same places if related neighbours are the same in both or in neither. -/
theorem forall₂_runs {β : Type u} {R : α → β → Prop} {same : α → α → Bool} {same' : β → β → Bool}
    (hsame : ∀ a b x y, R a x → R b y → same a b = same' x y) {xs : List α} {ys : List β}
    (h : List.Forall₂ R xs ys) :
    List.Forall₂ (List.Forall₂ R) (runs same xs) (runs same' ys) := by
  induction h with
  | nil => exact .nil
  | cons hax hrest ih =>
      rename_i a x as xs
      rcases runs_cons same a as with ⟨rfl, hcut⟩ | ⟨b, bs, cs, hruns, hcut⟩
      · obtain rfl := List.forall₂_nil_left_iff.1 hrest
        exact .cons (.cons hax .nil) .nil
      · rw [hruns] at ih
        obtain ⟨run, zs, hrun, hzs, heq⟩ := List.forall₂_cons_left_iff.1 ih
        obtain ⟨y, ys, hby, hys, rfl⟩ := List.forall₂_cons_left_iff.1 hrun
        rw [hcut, hsame a b x y hax hby]
        simp only [runs, heq]
        split
        · exact .cons (.cons hax (.cons hby hys)) hzs
        · exact .cons (.cons hax .nil) (.cons (.cons hby hys) hzs)

/-! ### Classes -/

section Classes

/-- Lists whose elements compare equal inside each list and ascend from list to list. -/
structure Classes (cmp : α → α → Ordering) (rs : List (List α)) : Prop where
  nonempty : ∀ r ∈ rs, r ≠ []
  equal : ∀ r ∈ rs, ∀ a ∈ r, ∀ b ∈ r, cmp a b = .eq
  ascending : rs.Pairwise fun r t => ∀ a ∈ r, ∀ b ∈ t, cmp a b = .lt

variable {cmp : α → α → Ordering} {r t : List α} {rs ts : List (List α)} {a b : α}

theorem classes_runs [TransCmp cmp] {xs : List α}
    (h : xs.Pairwise fun a b => (cmp a b).isLE = true) :
    Classes cmp (runs (fun a b => cmp a b == .eq) xs) where
  nonempty := fun _ hr => ne_nil_of_mem_runs hr
  equal := fun _ hr _ ha _ hb => eq_of_mem_runs hr ha hb
  ascending := pairwise_runs h

namespace Classes

theorem tail (h : Classes cmp (r :: rs)) : Classes cmp rs where
  nonempty := fun t ht => h.nonempty t (List.mem_cons_of_mem _ ht)
  equal := fun t ht => h.equal t (List.mem_cons_of_mem _ ht)
  ascending := (List.pairwise_cons.1 h.ascending).2

/-- No element is less than those of the first class. -/
theorem isLE_of_mem (h : Classes cmp (r :: rs)) (ha : a ∈ r) (hb : b ∈ (r :: rs).flatten) :
    (cmp a b).isLE = true := by
  obtain ⟨t, ht, hbt⟩ := List.mem_flatten.1 hb
  rcases List.mem_cons.1 ht with rfl | ht
  · rw [h.equal t (List.mem_cons_self ..) a ha b hbt]
    rfl
  · rw [(List.pairwise_cons.1 h.ascending).1 t ht a ha b hbt]
    rfl

/-- The first class has what compares equal to one of its elements. -/
theorem filter_flatten [TransCmp cmp] (h : Classes cmp (r :: rs)) (ha : a ∈ r) :
    (r :: rs).flatten.filter (fun b => cmp a b == .eq) = r := by
  rw [List.flatten_cons, List.filter_append, List.filter_eq_self.2, List.filter_eq_nil_iff.2,
    List.append_nil]
  · intro b hb heq
    obtain ⟨t, ht, hb⟩ := List.mem_flatten.1 hb
    rw [(List.pairwise_cons.1 h.ascending).1 t ht a ha b hb] at heq
    cases heq
  · intro b hb
    rw [h.equal r (List.mem_cons_self ..) a ha b hb]
    rfl

/-- Every class has what compares equal to one of its elements. -/
theorem filter_flatten_of_mem [TransCmp cmp] (h : Classes cmp rs) (hr : r ∈ rs) (ha : a ∈ r) :
    rs.flatten.filter (fun b => cmp a b == .eq) = r := by
  induction rs with
  | nil => cases hr
  | cons t rs ih =>
      rcases List.mem_cons.1 hr with rfl | hr
      · exact h.filter_flatten ha
      · rw [List.flatten_cons, List.filter_append, ih h.tail hr, List.filter_eq_nil_iff.2, List.nil_append]
        intro b hb heq
        have hlt := (List.pairwise_cons.1 h.ascending).1 r hr b hb a ha
        rw [OrientedCmp.eq_symm (beq_iff_eq.1 heq)] at hlt
        cases hlt

end Classes

/-- Classes are determined, up to the order inside each, by what they have together. -/
theorem forall₂_perm_of_classes [TransCmp cmp] (hr : Classes cmp rs) (ht : Classes cmp ts)
    (h : rs.flatten.Perm ts.flatten) : List.Forall₂ List.Perm rs ts := by
  induction rs generalizing ts with
  | nil =>
      cases ts with
      | nil => exact .nil
      | cons t ts =>
          obtain ⟨b, rest, rfl⟩ := List.exists_cons_of_ne_nil (ht.nonempty _ (List.mem_cons_self ..))
          exact absurd h.length_eq (by simp)
  | cons r rs ih =>
      obtain ⟨a, r', hr'⟩ := List.exists_cons_of_ne_nil (hr.nonempty _ (List.mem_cons_self ..))
      have ha : a ∈ r := hr' ▸ List.mem_cons_self ..
      have haLeft : a ∈ (r :: rs).flatten := List.mem_flatten.2 ⟨r, List.mem_cons_self .., ha⟩
      cases ts with
      | nil => exact absurd (h.subset haLeft) List.not_mem_nil
      | cons t ts =>
          obtain ⟨b, t', ht'⟩ := List.exists_cons_of_ne_nil (ht.nonempty _ (List.mem_cons_self ..))
          have hb : b ∈ t := ht' ▸ List.mem_cons_self ..
          have hbRight : b ∈ (t :: ts).flatten := List.mem_flatten.2 ⟨t, List.mem_cons_self .., hb⟩
          have hab : cmp a b = .eq := OrientedCmp.isLE_antisymm
            (hr.isLE_of_mem ha (h.symm.subset hbRight)) (ht.isLE_of_mem hb (h.subset haLeft))
          -- Both first classes are what compares equal to `a`.
          have hfirst : r.Perm t := by
            have hfilter := h.filter (fun c => cmp a c == .eq)
            rw [hr.filter_flatten ha] at hfilter
            have hsame : (fun c => cmp a c == .eq) = fun c => cmp b c == .eq := by
              funext c
              rw [TransCmp.congr_left hab]
            rw [hsame, ht.filter_flatten hb] at hfilter
            exact hfilter
          have hrest : rs.flatten.Perm ts.flatten := by
            apply (List.perm_append_left_iff r).1
            exact h.trans (hfirst.symm.append_right _)
          exact .cons hfirst (ih hr.tail ht.tail hrest)

/-- The runs of ascending lists with the same elements have the same elements one by one. -/
theorem forall₂_perm_runs [TransCmp cmp] {xs ys : List α}
    (hx : xs.Pairwise fun a b => (cmp a b).isLE = true)
    (hy : ys.Pairwise fun a b => (cmp a b).isLE = true) (h : xs.Perm ys) :
    List.Forall₂ List.Perm (runs (fun a b => cmp a b == .eq) xs)
      (runs (fun a b => cmp a b == .eq) ys) := by
  apply forall₂_perm_of_classes (classes_runs hx) (classes_runs hy)
  rw [flatten_runs, flatten_runs]
  exact h

end Classes

/-! ### Sorting -/

/-- The order of a list does not matter for sorting it. -/
theorem sorted_eq_of_perm [Ord α] [TransOrd α] [LawfulEqOrd α] {xs ys : List α} (h : xs.Perm ys) :
    sorted xs = sorted ys := by
  apply ((sorted_perm xs).trans (h.trans (sorted_perm ys).symm)).eq_of_pairwise _
    (pairwise_sorted xs) (pairwise_sorted ys)
  intro a b _ _ hab hba
  exact LawfulEqCmp.eq_of_compare (OrientedCmp.isLE_antisymm hab hba)

/-- A list without repeats ascends strictly once it is sorted. -/
theorem ascending_sorted [Ord α] [TransOrd α] [LawfulEqOrd α] {xs : List α} (h : xs.Nodup) :
    Ascending (sorted xs) := by
  refine (pairwise_sorted xs).imp₂ (fun a b hle hne => ?_) ((sorted_perm xs).nodup_iff.2 h)
  cases hab : compare a b with
  | lt => rfl
  | eq => exact absurd (LawfulEqCmp.eq_of_compare hab) hne
  | gt =>
      rw [hab] at hle
      cases hle

/-- Ascending lists that have as many elements of each class compare equal element by element: the first
    elements do, since each is as small as the other list allows, and so do the others. -/
theorem forall₂_eq_of_countP_eq {cmp : α → α → Ordering} [TransCmp cmp] {xs ys : List α}
    (hx : xs.Pairwise fun a b => (cmp a b).isLE = true)
    (hy : ys.Pairwise fun a b => (cmp a b).isLE = true)
    (h : ∀ c, xs.countP (fun a => cmp c a == .eq) = ys.countP fun a => cmp c a == .eq) :
    List.Forall₂ (fun a b => cmp a b = .eq) xs ys := by
  induction xs generalizing ys with
  | nil =>
      cases ys with
      | nil => exact .nil
      | cons y ys => simpa [ReflCmp.compare_self] using h y
  | cons x xs ih =>
      cases ys with
      | nil => simpa [ReflCmp.compare_self] using h x
      | cons y ys =>
          have hself : ∀ c, (cmp c c).isLE = true := fun c => by simp [ReflCmp.compare_self]
          have hle : ∀ {a b : α} {as bs : List α},
              ((b :: bs).Pairwise fun a b => (cmp a b).isLE = true) →
              (a :: as).countP (fun c => cmp a c == .eq) =
                (b :: bs).countP (fun c => cmp a c == .eq) → (cmp b a).isLE = true := by
            intro a b as bs hb hcount
            have hpos : 0 < (b :: bs).countP fun c => cmp a c == .eq := by
              rw [← hcount]
              simp [ReflCmp.compare_self]
            obtain ⟨c, hc, hac⟩ := List.countP_pos_iff.1 hpos
            have hbc : (cmp b c).isLE = true := by
              rcases List.mem_cons.1 hc with rfl | hc
              · exact hself _
              · exact (List.pairwise_cons.1 hb).1 c hc
            rwa [TransCmp.congr_right (beq_iff_eq.1 hac)]
          have hxy : cmp x y = .eq :=
            OrientedCmp.isLE_antisymm (hle hx (h y).symm) (hle hy (h x))
          refine .cons hxy (ih (List.pairwise_cons.1 hx).2 (List.pairwise_cons.1 hy).2 fun c => ?_)
          have hcount := h c
          rw [List.countP_cons, List.countP_cons, TransCmp.congr_right hxy] at hcount
          exact Nat.add_right_cancel hcount

theorem isLE_total {cmp : α → α → Ordering} [OrientedCmp cmp] (a b : α) :
    ((cmp a b).isLE || (cmp b a).isLE) = true := by
  have hswap : cmp b a = (cmp a b).swap := OrientedCmp.eq_swap
  rw [hswap]
  cases cmp a b <;> rfl

/-- A list sorted by a comparison ascends. -/
theorem pairwise_mergeSort_isLE {cmp : α → α → Ordering} [TransCmp cmp] (xs : List α) :
    (xs.mergeSort fun a b => (cmp a b).isLE).Pairwise fun a b => (cmp a b).isLE = true :=
  List.pairwise_mergeSort (fun _ _ _ => TransCmp.isLE_trans) isLE_total xs

/-! ### Grouping by a key -/

section Group

variable {κ : Type u} [Ord κ] [TransOrd κ]

/-- The entries in the order of their keys ascend by key. -/
theorem pairwise_sortedOn (key : α → κ) (xs : List α) :
    (sortedOn key xs).Pairwise fun a b => (compareOn key a b).isLE = true :=
  pairwise_mergeSort_isLE xs

/-- Sorting by a key leaves the elements with one key in their order. -/
theorem filter_sortedOn (key : α → κ) (k : κ) (xs : List α) :
    (sortedOn key xs).filter (fun x => compare k (key x) == .eq) =
      xs.filter fun x => compare k (key x) == .eq := by
  have hkeys : (xs.filter fun x => compare k (key x) == .eq).Pairwise
      fun a b => (compareOn key a b).isLE = true := by
    refine List.pairwise_of_forall_mem_list fun a ha b hb => ?_
    have hab : compare (key a) (key b) = .eq := TransCmp.eq_trans
      (OrientedCmp.eq_symm (beq_iff_eq.1 (List.mem_filter.1 ha).2)) (beq_iff_eq.1 (List.mem_filter.1 hb).2)
    rw [compareOn, hab]
    rfl
  have htrans : ∀ a b c : α, (compareOn key a b).isLE = true → (compareOn key b c).isLE = true →
      (compareOn key a c).isLE = true := fun _ _ _ => TransCmp.isLE_trans
  have hsub : (xs.filter fun x => compare k (key x) == .eq).Sublist (sortedOn key xs) :=
    List.sublist_mergeSort htrans isLE_total hkeys List.filter_sublist
  have hlength := ((List.mergeSort_perm xs fun a b => (compareOn key a b).isLE).filter
    fun x => compare k (key x) == .eq).length_eq
  have hfilter := hsub.filter fun x => compare k (key x) == .eq
  rw [List.filter_filter] at hfilter
  simp only [Bool.and_self] at hfilter
  exact (hfilter.eq_of_length hlength.symm).symm

/-- The runs that a grouping is made of. -/
def groupRuns (xs : List (κ × α)) : List (List (κ × α)) :=
  runs (fun a b => compareOn Prod.fst a b == .eq) (sortedOn Prod.fst xs)

omit [TransOrd κ] in
theorem mem_groupByKey {xs : List (κ × α)} {k : κ} {vs : List α} :
    (k, vs) ∈ groupByKey xs ↔
      ∃ v rest, (k, v) :: rest ∈ groupRuns xs ∧ vs = ((k, v) :: rest).map Prod.snd := by
  change (k, vs) ∈ (groupRuns xs).filterMap _ ↔ _
  rw [List.mem_filterMap]
  constructor
  · rintro ⟨run, hrun, hhead⟩
    cases run with
    | nil => cases hhead
    | cons entry rest =>
        cases hhead
        exact ⟨entry.2, rest, hrun, rfl⟩
  · rintro ⟨v, rest, hrun, rfl⟩
    exact ⟨_, hrun, rfl⟩

/-- A group has exactly the values that go with its key. -/
theorem mem_values_of_mem_groupByKey [LawfulEqOrd κ] {xs : List (κ × α)} {k : κ} {vs : List α}
    (h : (k, vs) ∈ groupByKey xs) {w : α} : w ∈ vs ↔ (k, w) ∈ xs := by
  obtain ⟨v, rest, hrun, rfl⟩ := mem_groupByKey.1 h
  have hself : (k, v) ∈ (k, v) :: rest := List.mem_cons_self ..
  constructor
  · intro hw
    obtain ⟨⟨j, w'⟩, hentry, rfl⟩ := List.mem_map.1 hw
    have heq : compareOn Prod.fst (k, v) (j, w') = .eq := eq_of_mem_runs hrun hself hentry
    have hkey : k = j := LawfulEqCmp.eq_of_compare heq
    rw [hkey]
    exact mem_sortedOn.1 (mem_of_mem_runs hrun hentry)
  · intro hw
    have heq : compareOn Prod.fst (k, v) (k, w) = .eq := ReflCmp.compare_self
    exact List.mem_map.2 ⟨(k, w), mem_run_of_eq (pairwise_sortedOn _ _) hrun hself
      (mem_sortedOn.2 hw) heq, rfl⟩

/-- Every key has a group. -/
theorem exists_mem_groupByKey [LawfulEqOrd κ] {xs : List (κ × α)} {k : κ} {v : α}
    (h : (k, v) ∈ xs) : ∃ vs, (k, vs) ∈ groupByKey xs := by
  have hsorted : (k, v) ∈ sortedOn Prod.fst xs := mem_sortedOn.2 h
  rw [← flatten_runs (fun a b => compareOn Prod.fst a b == .eq) (sortedOn Prod.fst xs)] at hsorted
  obtain ⟨run, hrun, hmem⟩ := List.mem_flatten.1 hsorted
  cases run with
  | nil => cases hmem
  | cons entry rest =>
      obtain ⟨j, w⟩ := entry
      have heq : compareOn Prod.fst (j, w) (k, v) = .eq :=
        eq_of_mem_runs hrun (List.mem_cons_self ..) hmem
      have hkey : j = k := LawfulEqCmp.eq_of_compare heq
      subst hkey
      exact ⟨_, mem_groupByKey.2 ⟨w, rest, hrun, rfl⟩⟩

/-- The group of a key, empty if there is none, has exactly the values that go with the key. -/
theorem mem_group_iff [LawfulEqOrd κ] [DecidableEq κ] {xs : List (κ × α)} {k : κ} {w : α} :
    w ∈ ((groupByKey xs).find? fun (j, _) => j == k).elim [] Prod.snd ↔ (k, w) ∈ xs := by
  cases hfind : (groupByKey xs).find? fun (j, _) => j == k with
  | none =>
      constructor
      · intro hw
        cases hw
      · intro hw
        obtain ⟨vs, hvs⟩ := exists_mem_groupByKey hw
        have hne := List.find?_eq_none.1 hfind _ hvs
        exact absurd (beq_self_eq_true k) hne
  | some group =>
      obtain ⟨j, vs⟩ := group
      have hkey : j = k := by simpa using List.find?_some hfind
      rw [← hkey]
      exact mem_values_of_mem_groupByKey (List.mem_of_find?_eq_some hfind)

/-- A group has the values that go with its key, in their order. -/
theorem values_of_mem_groupByKey {xs : List (κ × α)} {k : κ} {vs : List α} (h : (k, vs) ∈ groupByKey xs) :
    vs = (xs.filter fun x => compare k x.1 == .eq).map Prod.snd := by
  obtain ⟨v, rest, hrun, rfl⟩ := mem_groupByKey.1 h
  have hclass := (classes_runs (pairwise_sortedOn Prod.fst xs)).filter_flatten_of_mem hrun
    (List.mem_cons_self ..)
  rw [flatten_runs] at hclass
  rw [← hclass]
  exact congrArg (List.map Prod.snd) (filter_sortedOn Prod.fst k xs)

/-- Looking a key up gives the values that go with it, in their order. -/
theorem lookup_groupByKey [LawfulEqOrd κ] [BEq κ] [LawfulBEq κ] (xs : List (κ × α)) (k : κ) :
    ((groupByKey xs).lookup k).getD [] = (xs.filter fun x => x.1 == k).map Prod.snd := by
  have hkey : (fun x : κ × α => x.1 == k) = fun x => compare k x.1 == .eq := by
    funext x
    rw [Bool.eq_iff_iff, beq_iff_eq, beq_iff_eq, LawfulEqCmp.compare_eq_iff_eq, eq_comm]
  cases hlookup : (groupByKey xs).lookup k with
  | none =>
      rw [List.filter_eq_nil_iff.2]
      · rfl
      · rintro ⟨j, v⟩ hmem heq
        obtain rfl : j = k := beq_iff_eq.1 heq
        obtain ⟨vs, hvs⟩ := exists_mem_groupByKey hmem
        have hne := List.lookup_eq_none_iff.1 hlookup _ hvs
        rw [bne_self_eq_false] at hne
        cases hne
  | some vs =>
      obtain ⟨before, after, hgroups, _⟩ := List.lookup_eq_some_iff.1 hlookup
      have hmem : (k, vs) ∈ groupByKey xs := hgroups ▸ List.mem_append_right _ List.mem_cons_self
      rw [hkey, ← values_of_mem_groupByKey hmem]
      rfl

omit [TransOrd κ] in
/-- The groups together have all values. -/
theorem flatMap_values_groupByKey (xs : List (κ × α)) :
    (groupByKey xs).flatMap Prod.snd = (sortedOn Prod.fst xs).map Prod.snd := by
  have hgroups : ∀ rs : List (List (κ × α)), (∀ r ∈ rs, r ≠ []) →
      (rs.filterMap fun run => run.head?.map fun x => (x.1, run.map Prod.snd)).flatMap Prod.snd =
        rs.flatten.map Prod.snd := by
    intro rs hrs
    induction rs with
    | nil => rfl
    | cons r rs ih =>
        obtain ⟨x, rest, rfl⟩ := List.exists_cons_of_ne_nil (hrs r (List.mem_cons_self ..))
        rw [List.flatten_cons, List.map_append, ← ih fun r hr => hrs r (List.mem_cons_of_mem _ hr)]
        rfl
  have hall := hgroups (groupRuns xs) fun r hr => ne_nil_of_mem_runs hr
  rw [groupRuns, flatten_runs] at hall
  exact hall

theorem mem_keys_groupByKey [LawfulEqOrd κ] {xs : List (κ × α)} {k : κ} :
    k ∈ (groupByKey xs).map Prod.fst ↔ k ∈ xs.map Prod.fst := by
  constructor
  · intro h
    obtain ⟨⟨j, vs⟩, hmem, rfl⟩ := List.mem_map.1 h
    obtain ⟨v, rest, hrun, _⟩ := mem_groupByKey.1 hmem
    exact List.mem_map_of_mem (mem_sortedOn.1 (mem_of_mem_runs hrun (List.mem_cons_self ..)))
  · intro h
    obtain ⟨⟨j, v⟩, hmem, rfl⟩ := List.mem_map.1 h
    obtain ⟨vs, hvs⟩ := exists_mem_groupByKey hmem
    exact List.mem_map_of_mem hvs

/-- Keys ascend strictly from group to group. -/
theorem pairwise_groupByKey (xs : List (κ × α)) :
    (groupByKey xs).Pairwise fun a b => compare a.1 b.1 = .lt := by
  change ((groupRuns xs).filterMap _).Pairwise _
  refine (pairwise_runs (pairwise_sortedOn Prod.fst xs)).filterMap _ fun r t hrt a ha b hb => ?_
  cases r with
  | nil => cases ha
  | cons x r =>
      cases t with
      | nil => cases hb
      | cons y t =>
          cases ha
          cases hb
          exact hrt x (List.mem_cons_self ..) y (List.mem_cons_self ..)

/-- No key has two groups. -/
theorem nodup_keys_groupByKey (xs : List (κ × α)) : ((groupByKey xs).map Prod.fst).Nodup := by
  refine List.pairwise_map.2 ((pairwise_groupByKey xs).imp fun hlt heq => ?_)
  rw [heq, compare_self] at hlt
  cases hlt

end Group

/-! ### Ordered sets of lists -/

/-- Of elements that compare equal a set keeps one, so that every element of the list is there up to
    comparison. -/
theorem OrderedSet.exists_mem_ofList [Ord α] [TransOrd α] {x : α} {xs : List α} (h : x ∈ xs) :
    ∃ y ∈ ofList xs, compare x y = .eq := by
  have hkeep : ∀ ys : List α, x ∈ ys → ∃ y ∈ dropRepeats ys, compare x y = .eq := by
    intro ys
    induction ys with
    | nil =>
        intro hx
        cases hx
    | cons z zs ih =>
        intro hx
        simp only [dropRepeats]
        split
        · rename_i hnil
          rcases List.mem_cons.1 hx with rfl | hx
          · exact ⟨x, List.mem_cons_self .., compare_self⟩
          · obtain ⟨y, hy, _⟩ := ih hx
            rw [hnil] at hy
            cases hy
        · rename_i w ws hcons
          rcases List.mem_cons.1 hx with rfl | hx
          · refine ⟨x, ?_, compare_self⟩
            split <;> exact List.mem_cons_self ..
          · obtain ⟨y, hy, hxy⟩ := ih hx
            rw [hcons] at hy
            split
            · rename_i hzw
              have hzw : compare z w = .eq := by simpa using hzw
              rcases List.mem_cons.1 hy with rfl | hy
              · exact ⟨z, List.mem_cons_self .., TransCmp.eq_trans hxy (OrientedCmp.eq_symm hzw)⟩
              · exact ⟨y, List.mem_cons_of_mem _ hy, hxy⟩
            · exact ⟨y, List.mem_cons_of_mem _ hy, hxy⟩
  exact hkeep _ (mem_sorted.2 h)

/-- A set of a list has elements of the list only. -/
theorem OrderedSet.mem_of_mem_ofList [Ord α] [TransOrd α] {x : α} {xs : List α}
    (h : x ∈ ofList xs) : x ∈ xs :=
  mem_sorted.1 (mem_of_mem_dropRepeats h)

end PathQueryIndex
