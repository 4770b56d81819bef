/-
Module: PathQueryIndex.Proofs.Index.Subsets
Layer: Proofs
Purpose: The sets that closing enumerates. Depth first, a set is extended by some of the candidates that are
  left, and candidates are passed over in two cases: a candidate may conflict with a member, and behind an
  inherited member there is no other one. So the enumeration has exactly the sets of places of three to
  `limit` members that keep to these rules, each written in ascending order. A set comes before those
  that extend it, and these before the sets without its last member, so the sets themselves ascend, too.
Imports: PathQueryIndex.Proofs.Index.SubsetCursor, Mathlib.Data.List.Sort
Main exports: Extends, mem_subsetsFrom, pairwise_iff_of_pairwise_lt, mem_subsetsOf,
  pairwise_lt_subsetsFrom, subsets_are_exact
-/
import PathQueryIndex.Proofs.Index.SubsetCursor
import Mathlib.Data.List.Sort

namespace PathQueryIndex

variable {inherited room c : Nat} {conflicts : Conflicts} {chosen rest added members xs : List Nat}

/-- Both members may be in a set, the first of them before the second. -/
def Compatible (inherited : Nat) (conflicts : Conflicts) (j i : Nat) : Prop :=
  (j < inherited → inherited ≤ i) ∧ conflicts.holds i j = false

/-- Some candidates can be added to those that are chosen. -/
structure Extends (inherited : Nat) (conflicts : Conflicts) (chosen : List Nat) (room : Nat)
    (candidates added : List Nat) : Prop where
  sublist : added.Sublist candidates
  length_le : added.length ≤ room
  compatible : added.Pairwise (Compatible inherited conflicts)
  free : ∀ j ∈ chosen, ∀ i ∈ added, conflicts.holds i j = false

/-! ### One candidate after the other -/

theorem sublist_following_iff : added.Sublist (following inherited c rest) ↔
    added.Sublist rest ∧ ∀ i ∈ added, c < inherited → inherited ≤ i := by
  unfold following
  split
  · rename_i hc
    rw [List.sublist_filter_iff]
    constructor
    · rintro ⟨more, hmore, rfl⟩
      refine ⟨List.filter_sublist.trans hmore, fun i hi _ => ?_⟩
      simpa using (List.mem_filter.1 hi).2
    · intro ⟨hadded, hle⟩
      refine ⟨added, hadded, (List.filter_eq_self.2 fun i hi => ?_).symm⟩
      simpa using hle i hi hc
  · rename_i hc
    constructor
    · exact fun h => ⟨h, fun _ _ hlt => absurd hlt hc⟩
    · exact And.left

namespace Extends

theorem nil : Extends inherited conflicts chosen room xs [] where
  sublist := List.nil_sublist _
  length_le := Nat.zero_le _
  compatible := List.Pairwise.nil
  free := fun _ _ _ hi => nomatch hi

/-- What can be added has the next candidate or not. If it has, that one does not conflict, and the others
    can be added after it. -/
theorem cons_iff : Extends inherited conflicts chosen room (c :: rest) xs ↔
    Extends inherited conflicts chosen room rest xs ∨
      ∃ added, xs = c :: added ∧ room ≠ 0 ∧ (∀ j ∈ chosen, conflicts.holds c j = false) ∧
        Extends inherited conflicts (chosen ++ [c]) (room - 1) (following inherited c rest) added := by
  constructor
  · intro h
    rcases List.sublist_cons_iff.1 h.sublist with hsub | ⟨added, rfl, hsub⟩
    · exact .inl ⟨hsub, h.length_le, h.compatible, h.free⟩
    · obtain ⟨hfirst, hmore⟩ := List.pairwise_cons.1 h.compatible
      have hlen : added.length + 1 ≤ room := h.length_le
      have hfree := fun j hj => List.forall_mem_cons.1 (h.free j hj)
      refine .inr ⟨added, rfl, by omega, fun j hj => (hfree j hj).1, ?_, by omega, hmore, ?_⟩
      · exact sublist_following_iff.2 ⟨hsub, fun i hi => (hfirst i hi).1⟩
      · intro j hj i hi
        rcases List.mem_append.1 hj with hj | hj
        · exact (hfree j hj).2 i hi
        · rw [List.mem_singleton.1 hj]
          exact (hfirst i hi).2
  · rintro (h | ⟨added, rfl, hroom, hfree, h⟩)
    · exact ⟨h.sublist.cons c, h.length_le, h.compatible, h.free⟩
    · obtain ⟨hsub, hinherited⟩ := sublist_following_iff.1 h.sublist
      have hlen := h.length_le
      refine ⟨hsub.cons_cons c, by rw [List.length_cons]; omega, ?_, fun j hj => ?_⟩
      · refine List.pairwise_cons.2 ⟨fun i hi => ⟨hinherited i hi, ?_⟩, h.compatible⟩
        exact h.free c (List.mem_append_right _ (List.mem_singleton_self c)) i hi
      · exact List.forall_mem_cons.2 ⟨hfree j hj, h.free j (List.mem_append_left _ hj)⟩

/-- If the next candidate is passed over, the others are what is left. -/
theorem cons_iff_of_pass (hpass : (decide (room = 0) || chosen.any (conflicts.holds c)) = true) :
    Extends inherited conflicts chosen room (c :: rest) xs ↔
      Extends inherited conflicts chosen room rest xs := by
  rw [cons_iff]
  apply or_iff_left
  rintro ⟨added, _, hroom, hfree, _⟩
  rcases Bool.or_eq_true_iff.1 hpass with hzero | hany
  · exact hroom (of_decide_eq_true hzero)
  · obtain ⟨j, hj, hconflict⟩ := List.any_eq_true.1 hany
    rw [hfree j hj] at hconflict
    cases hconflict

end Extends

/-! ### The whole enumeration -/

/-- The enumeration has the sets that extend what is chosen and have three members or more. -/
theorem mem_subsetsFrom : members ∈ subsetsFrom inherited conflicts chosen room xs ↔
    ∃ added, members = chosen ++ added ∧ added ≠ [] ∧ 3 ≤ members.length ∧
      Extends inherited conflicts chosen room xs added := by
  fun_induction subsetsFrom inherited conflicts chosen room xs with
  | case1 chosen room =>
      constructor
      · intro h
        cases h
      · rintro ⟨added, _, hne, _, h⟩
        exact absurd (List.sublist_nil.1 h.sublist) hne
  | case2 chosen room c rest without hpass ih =>
      simp only [Extends.cons_iff_of_pass hpass]
      exact ih
  | case3 chosen room c rest without hpass taken ih₂ ih₁ =>
      have hroom : room ≠ 0 := by
        intro hzero
        simp [hzero] at hpass
      have hfree : ∀ j ∈ chosen, conflicts.holds c j = false := by
        intro j hj
        by_contra hconflict
        simp only [Bool.not_eq_false] at hconflict
        exact hpass (Bool.or_eq_true_iff.2 (.inr (List.any_eq_true.2 ⟨j, hj, hconflict⟩)))
      have hwithout : members ∈ without ↔ _ := ih₂
      simp only [List.mem_append, ih₁, hwithout, Extends.cons_iff]
      constructor
      · rintro ((h | ⟨added, rfl, _, hlen, h⟩) | ⟨added, rfl, hne, hlen, h⟩)
        · split at h
          · rename_i hlen
            rw [List.mem_singleton.1 h]
            exact ⟨[c], rfl, List.cons_ne_nil _ _, hlen, .inr ⟨[], rfl, hroom, hfree, .nil⟩⟩
          · cases h
        · exact ⟨c :: added, List.append_cons .. |>.symm, List.cons_ne_nil _ _, hlen,
            .inr ⟨added, rfl, hroom, hfree, h⟩⟩
        · exact ⟨added, rfl, hne, hlen, .inl h⟩
      · rintro ⟨added, rfl, hne, hlen, h | ⟨more, rfl, _, _, h⟩⟩
        · exact .inr ⟨added, rfl, hne, hlen, h⟩
        · cases more with
          | nil =>
              have htaken : 3 ≤ taken.length := hlen
              rw [if_pos htaken]
              exact .inl (.inl (List.mem_singleton_self _))
          | cons d more =>
              exact .inl (.inr ⟨d :: more, List.append_cons .., List.cons_ne_nil _ _, hlen, h⟩)

/-- What holds along an ascending list holds of any two of its members in their order. -/
theorem pairwise_iff_of_pairwise_lt {R : Nat → Nat → Prop} (h : xs.Pairwise (· < ·)) :
    xs.Pairwise R ↔ ∀ j ∈ xs, ∀ i ∈ xs, j < i → R j i := by
  constructor
  · intro hR
    have hforth : xs.Pairwise fun j i => j < i → R j i := by
      apply hR.imp
      exact fun hji _ => hji
    have hback : xs.Pairwise fun j i => i < j → R i j :=
      h.imp fun hlt hgt => absurd hlt (Nat.lt_asymm hgt)
    have hself : ∀ k ∈ xs, k < k → R k k := fun k _ hlt => absurd hlt (Nat.lt_irrefl k)
    exact fun j hj i hi => hforth.forall_of_forall_of_flip hself hback hj hi
  · exact fun hR => h.imp_of_mem fun hj hi hlt => hR _ hj _ hi hlt

/-- The enumeration has all sets of three to `limit` places in which there is no conflict and at most one
    place is inherited. -/
theorem mem_subsetsOf {count limit : Nat} : members ∈ subsetsOf count inherited limit conflicts ↔
    members.Sublist (List.range count) ∧ 3 ≤ members.length ∧ members.length ≤ limit ∧
      ∀ j ∈ members, ∀ i ∈ members, j < i → Compatible inherited conflicts j i := by
  rw [subsetsOf_eq, mem_subsetsFrom]
  constructor
  · rintro ⟨added, rfl, _, hlen, h⟩
    have hsorted := List.pairwise_lt_range.sublist h.sublist
    exact ⟨h.sublist, hlen, Nat.le_trans h.length_le (Nat.min_le_left ..),
      (pairwise_iff_of_pairwise_lt hsorted).1 h.compatible⟩
  · intro ⟨hsub, hlen, hle, hcompatible⟩
    have hsorted := List.pairwise_lt_range.sublist hsub
    have hcount := hsub.length_le
    rw [List.length_range] at hcount
    refine ⟨members, rfl, List.ne_nil_of_length_pos (by omega), hlen, hsub, ?_, ?_, ?_⟩
    · exact Nat.le_min.2 ⟨hle, hcount⟩
    · exact (pairwise_iff_of_pairwise_lt hsorted).2 hcompatible
    · exact fun j hj => nomatch hj

/-! ### The order of the sets -/

/-- What extends some members by a candidate comes before what extends them by later ones only. -/
theorem append_lt_of_mem_subsetsFrom (h : (c :: rest).Pairwise (· < ·))
    (hmembers : members ∈ subsetsFrom inherited conflicts chosen room rest) :
    chosen ++ c :: added < members := by
  obtain ⟨later, rfl, hne, _, hextends⟩ := mem_subsetsFrom.1 hmembers
  obtain ⟨d, later, rfl⟩ := List.exists_cons_of_ne_nil hne
  apply List.append_left_lt
  have hmem : d ∈ rest := hextends.sublist.subset (List.mem_cons_self ..)
  exact List.cons_lt_cons_iff.2 (.inl ((List.pairwise_cons.1 h).1 d hmem))

/-- The sets ascend, if the candidates do: each is followed by those that extend it. -/
theorem pairwise_lt_subsetsFrom (h : xs.Pairwise (· < ·)) :
    (subsetsFrom inherited conflicts chosen room xs).Pairwise (· < ·) := by
  fun_induction subsetsFrom inherited conflicts chosen room xs with
  | case1 chosen room => exact List.Pairwise.nil
  | case2 chosen room c rest without hpass ih => exact ih (List.pairwise_cons.1 h).2
  | case3 chosen room c rest without hpass taken ih₂ ih₁ =>
      have hrest := (List.pairwise_cons.1 h).2
      have hfollowing : (following inherited c rest).Sublist rest :=
        (sublist_following_iff.1 (List.Sublist.refl _)).1
      refine List.pairwise_append.2 ⟨List.pairwise_append.2 ⟨?_, ?_, ?_⟩, ih₂ hrest, ?_⟩
      · split
        · exact List.pairwise_singleton _ _
        · exact List.Pairwise.nil
      · exact ih₁ (hrest.sublist hfollowing)
      · intro first hfirst members hmembers
        obtain ⟨added, rfl, hne, _⟩ := mem_subsetsFrom.1 hmembers
        obtain ⟨d, added, rfl⟩ := List.exists_cons_of_ne_nil hne
        split at hfirst
        · rw [List.mem_singleton.1 hfirst]
          have hlt : taken ++ [] < taken ++ d :: added := List.append_left_lt (List.nil_lt_cons d added)
          rw [List.append_nil] at hlt
          exact hlt
        · cases hfirst
      · intro first hfirst members hmembers
        have hwith : ∃ added, first = chosen ++ c :: added := by
          rcases List.mem_append.1 hfirst with hfirst | hfirst
          · split at hfirst
            · exact ⟨[], List.mem_singleton.1 hfirst⟩
            · cases hfirst
          · obtain ⟨added, rfl, _⟩ := mem_subsetsFrom.1 hfirst
            exact ⟨added, List.append_cons .. |>.symm⟩
        obtain ⟨added, rfl⟩ := hwith
        exact append_lt_of_mem_subsetsFrom h hmembers

/-! ### Sets of places -/

/-- The places of a set in ascending order are some of those below a count. -/
theorem sublist_range_iff {count : Nat} : members.Sublist (List.range count) ↔
    members.Pairwise (· < ·) ∧ ∀ i ∈ members, i < count := by
  constructor
  · intro h
    exact ⟨List.pairwise_lt_range.sublist h, fun i hi => List.mem_range.1 (h.subset hi)⟩
  · intro h
    obtain ⟨hsorted, hlt⟩ := h
    have hnodup : members.Nodup := hsorted.imp Nat.ne_of_lt
    have hsub : members ⊆ List.range count := fun i hi => List.mem_range.2 (hlt i hi)
    exact List.sublist_of_subperm_of_pairwise (List.subperm_of_subset hnodup hsub)
      (hsorted.imp Nat.le_of_lt) (List.pairwise_lt_range.imp Nat.le_of_lt)

/-- One inherited place at most is to say that behind an inherited place there is no other one. -/
theorem length_filter_le_one_iff (h : members.Pairwise (· < ·)) :
    (members.filter (· < inherited)).length ≤ 1 ↔
      ∀ j ∈ members, ∀ i ∈ members, j < i → j < inherited → inherited ≤ i := by
  constructor
  · intro hlen j hj i hi hlt hinherited
    apply Nat.le_of_not_lt
    intro hboth
    have hj' : j ∈ members.filter (· < inherited) := List.mem_filter.2 ⟨hj, decide_eq_true hinherited⟩
    have hi' : i ∈ members.filter (· < inherited) := List.mem_filter.2 ⟨hi, decide_eq_true hboth⟩
    obtain ⟨k, hk⟩ := List.length_eq_one_iff.1 (Nat.le_antisymm hlen (List.length_pos_of_mem hj'))
    rw [hk, List.mem_singleton] at hj' hi'
    omega
  · intro hbehind
    apply Nat.le_of_not_lt
    intro hlen
    obtain ⟨j, i, rest, hpair⟩ : ∃ j i rest, members.filter (· < inherited) = j :: i :: rest := by
      match hfilter : members.filter (· < inherited) with
      | [] => simp [hfilter] at hlen
      | [_] => simp [hfilter] at hlen
      | j :: i :: rest => exact ⟨j, i, rest, rfl⟩
    have hsorted := h.sublist (List.filter_sublist (p := (· < inherited)))
    rw [hpair] at hsorted
    have hlt := (List.pairwise_cons.1 hsorted).1 i (List.mem_cons_self ..)
    have hj : j ∈ members.filter (· < inherited) := hpair ▸ List.mem_cons_self ..
    have hi : i ∈ members.filter (· < inherited) :=
      hpair ▸ List.mem_cons_of_mem _ (List.mem_cons_self ..)
    have hle := hbehind j (List.mem_filter.1 hj).1 i (List.mem_filter.1 hi).1 hlt
      (of_decide_eq_true (List.mem_filter.1 hj).2)
    exact absurd (of_decide_eq_true (List.mem_filter.1 hi).2) (Nat.not_lt.2 hle)

/-- The enumeration of sets is exact. Asked for one set after the other, the cursor gives the sets of the
    list and then ends. The list ascends, so that no set occurs twice, and what it has are
    just the sets of places below `count` with three to `limit` members, written in ascending order, in
    which no place conflicts with an earlier one and at most one is inherited. -/
theorem subsets_are_exact (count inherited limit : Nat) (conflicts : Conflicts) :
    (SubsetCursor.start count inherited limit conflicts).Yields
        (subsetsOf count inherited limit conflicts) ∧
      (subsetsOf count inherited limit conflicts).Pairwise (· < ·) ∧
      ∀ members, members ∈ subsetsOf count inherited limit conflicts ↔
        members.Pairwise (· < ·) ∧ (∀ i ∈ members, i < count) ∧
          3 ≤ members.length ∧ members.length ≤ limit ∧
          (∀ i ∈ members, ∀ j ∈ members, j < i → conflicts.holds i j = false) ∧
          (members.filter (· < inherited)).length ≤ 1 := by
  refine ⟨SubsetCursor.yields_start count inherited limit conflicts, ?_, fun members => ?_⟩
  · rw [subsetsOf_eq]
    exact pairwise_lt_subsetsFrom List.pairwise_lt_range
  · rw [mem_subsetsOf, sublist_range_iff]
    constructor
    · intro h
      obtain ⟨⟨hsorted, hlt⟩, hlen, hle, hcompatible⟩ := h
      refine ⟨hsorted, hlt, hlen, hle, fun i hi j hj hji => (hcompatible j hj i hi hji).2, ?_⟩
      exact (length_filter_le_one_iff hsorted).2 fun j hj i hi hji => (hcompatible j hj i hi hji).1
    · intro h
      obtain ⟨hsorted, hlt, hlen, hle, hfree, hone⟩ := h
      refine ⟨⟨hsorted, hlt⟩, hlen, hle, fun j hj i hi hji => ⟨?_, hfree i hi j hj hji⟩⟩
      exact (length_filter_le_one_iff hsorted).1 hone j hj i hi hji

end PathQueryIndex
