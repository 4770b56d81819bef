/-
Module: PathQueryIndex.Proofs.Index.SubsetCursor
Layer: Proofs
Purpose: The loop of the cursor is a recursion over the candidates. The recursion tries a candidate as a
  member before it goes on without it. What a cursor has still to find is what the recursion finds for the
  chosen members from the next candidate on, and then, for each chosen member, what it finds without that
  one; a turn changes nothing about this but takes away the set it has found. So the cursor
  gives the sets of the recursion in their order, and then it ends.
Imports: PathQueryIndex.Index.SubsetCursor
Main exports: subsetsFrom, SubsetCursor.pending, SubsetCursor.pending_turn, SubsetCursor.Yields,
  SubsetCursor.yields_start, subsetsOf_eq
-/
import PathQueryIndex.Index.SubsetCursor

namespace PathQueryIndex

/-! ### The recursion -/

/-- The candidates that may follow a member: none that is inherited behind one that is. -/
def following (inherited member : Nat) (rest : List Nat) : List Nat :=
  if member < inherited then rest.filter (inherited ≤ ·) else rest

theorem length_following_le (inherited member : Nat) (rest : List Nat) :
    (following inherited member rest).length ≤ rest.length := by
  unfold following
  split
  · exact List.length_filter_le ..
  · exact Nat.le_refl _

/-- The sets that extend `chosen` by at least one of the candidates, in depth-first order: those with
    three members or more, and `room` candidates at most. A candidate that conflicts with a chosen
    member is passed over. -/
def subsetsFrom (inherited : Nat) (conflicts : Conflicts) (chosen : List Nat) (room : Nat)
    (candidates : List Nat) : List (List Nat) :=
  match candidates with
  | [] => []
  | c :: rest =>
    let without := subsetsFrom inherited conflicts chosen room rest
    if room = 0 || chosen.any (conflicts.holds c) then without
    else
      let taken := chosen ++ [c]
      (if 3 ≤ taken.length then [taken] else []) ++
        subsetsFrom inherited conflicts taken (room - 1) (following inherited c rest) ++ without
termination_by candidates.length
decreasing_by
  · exact Nat.lt_succ_self _
  · exact Nat.lt_succ_of_le (length_following_le ..)

section Recursion

variable {inherited room x count : Nat} {conflicts : Conflicts} {chosen rest : List Nat}

theorem subsetsFrom_no_room (candidates : List Nat) :
    subsetsFrom inherited conflicts chosen 0 candidates = [] := by
  induction candidates with
  | nil => rw [subsetsFrom]
  | cons x rest ih =>
      rw [subsetsFrom, ih]
      rfl

theorem subsetsFrom_cons_of_conflict (h : chosen.any (conflicts.holds x) = true) :
    subsetsFrom inherited conflicts chosen room (x :: rest) =
      subsetsFrom inherited conflicts chosen room rest := by
  rw [subsetsFrom, h, Bool.or_true, if_pos rfl]

theorem subsetsFrom_cons_of_fits (hroom : room ≠ 0) (h : chosen.any (conflicts.holds x) = false) :
    subsetsFrom inherited conflicts chosen room (x :: rest) =
      (if 3 ≤ (chosen ++ [x]).length then [chosen ++ [x]] else []) ++
        subsetsFrom inherited conflicts (chosen ++ [x]) (room - 1) (following inherited x rest) ++
        subsetsFrom inherited conflicts chosen room rest := by
  rw [subsetsFrom, h, Bool.or_false, decide_eq_false hroom]
  rfl

/-- Skipping the inherited candidates is going on behind the last one of them. -/
theorem filter_range'_of_lt (h : x < inherited) :
    (List.range' (x + 1) (count - (x + 1))).filter (inherited ≤ ·) =
      List.range' inherited (count - inherited) := by
  rcases Nat.le_total inherited count with hle | hle
  · have hsplit : List.range' (x + 1) (count - (x + 1)) =
        List.range' (x + 1) (inherited - (x + 1)) ++ List.range' inherited (count - inherited) := by
      have hmid : x + 1 + (inherited - (x + 1)) = inherited := Nat.add_sub_of_le h
      have hlen : inherited - (x + 1) + (count - inherited) = count - (x + 1) := by omega
      have happend : List.range' (x + 1) (inherited - (x + 1)) ++
          List.range' (x + 1 + (inherited - (x + 1))) (count - inherited) =
          List.range' (x + 1) (inherited - (x + 1) + (count - inherited)) := List.range'_append_1
      rw [hmid, hlen] at happend
      exact happend.symm
    rw [hsplit, List.filter_append, List.filter_eq_nil_iff.2, List.filter_eq_self.2, List.nil_append]
    · intro y hy
      exact decide_eq_true (List.mem_range'_1.1 hy).1
    · intro y hy
      have hlt := (List.mem_range'_1.1 hy).2
      simp only [decide_eq_true_eq]
      omega
  · rw [Nat.sub_eq_zero_of_le hle, List.range'_zero, List.filter_eq_nil_iff]
    intro y hy
    have hlt := (List.mem_range'_1.1 hy).2
    simp only [decide_eq_true_eq]
    omega

/-- The candidates that follow a member are the places from the one on that the cursor goes to. -/
theorem following_range' : following inherited x (List.range' (x + 1) (count - (x + 1))) =
    List.range' (if x < inherited then inherited else x + 1)
      (count - if x < inherited then inherited else x + 1) := by
  unfold following
  split
  · rename_i hlt
    exact filter_range'_of_lt hlt
  · rfl

end Recursion

namespace SubsetCursor

/-! ### What a cursor has still to find -/

variable (c : SubsetCursor)

/-- The sets that the chosen members and candidates from `x` on give. -/
def frame (chosen : List Nat) (x : Nat) : List (List Nat) :=
  subsetsFrom c.inherited c.conflicts chosen.reverse (c.limit - chosen.length)
    (List.range' x (c.count - x))

/-- The sets that are found once the chosen members are given up, one after the other. -/
def later : List Nat → List (List Nat)
  | [] => []
  | last :: rest => c.frame rest (last + 1) ++ later rest

/-- The sets that are still to come. -/
def pending : List (List Nat) := c.frame c.chosen c.candidate ++ c.later c.chosen

/-- The sets that are still to come with a turn and after it. -/
def Turn.pending : Turn → List (List Nat)
  | ended => []
  | moved cursor => cursor.pending
  | found members cursor => members :: cursor.pending

variable {c} {d : SubsetCursor} {chosen members : List Nat} {sets found : List (List Nat)} {x : Nat}

/-- A turn leaves the bounds and the conflicts as they are, and what comes later depends on them only. -/
theorem later_congr (c d : SubsetCursor) (h : d.frame = c.frame) (chosen : List Nat) :
    d.later chosen = c.later chosen := by
  induction chosen with
  | nil => rfl
  | cons last rest ih => rw [later, later, h, ih]

theorem frame_eq_nil (h : ¬ (chosen.length < c.limit ∧ x < c.count)) : c.frame chosen x = [] := by
  unfold frame
  rcases Nat.lt_or_ge chosen.length c.limit with hroom | hroom
  · have hcount : c.count ≤ x := Nat.le_of_not_lt fun hlt => h ⟨hroom, hlt⟩
    rw [Nat.sub_eq_zero_of_le hcount, List.range'_zero, subsetsFrom]
  · rw [Nat.sub_eq_zero_of_le hroom]
    exact subsetsFrom_no_room _

theorem range'_candidate (h : x < c.count) :
    List.range' x (c.count - x) = x :: List.range' (x + 1) (c.count - (x + 1)) := by
  have hsub : c.count - x = c.count - (x + 1) + 1 := by omega
  rw [hsub, List.range'_succ]

theorem any_reverse_eq_not_fits :
    c.chosen.reverse.any (c.conflicts.holds c.candidate) = !c.fits := by
  rw [List.any_reverse, fits, Bool.not_not]

/-- A candidate that conflicts with a chosen member gives no set. -/
theorem pending_skip (hlt : c.candidate < c.count) (hfits : c.fits = false) :
    c.skip.pending = c.pending := by
  have hconflict : c.chosen.reverse.any (c.conflicts.holds c.candidate) = true := by
    rw [any_reverse_eq_not_fits, hfits]
    rfl
  have hframe : c.frame c.chosen c.candidate = c.frame c.chosen (c.candidate + 1) := by
    rw [frame, range'_candidate hlt, subsetsFrom_cons_of_conflict hconflict]
    rfl
  have hlater : c.skip.later c.chosen = c.later c.chosen := later_congr c c.skip rfl c.chosen
  change c.frame c.chosen (c.candidate + 1) ++ c.skip.later c.chosen = _
  rw [pending, hframe, hlater]

/-- A candidate that fits gives the set it completes, those in which others are added to it, and then
    those without it. -/
theorem pending_take (hroom : c.chosen.length < c.limit) (hlt : c.candidate < c.count)
    (hfits : c.fits = true) :
    (if 3 ≤ c.take.chosen.length then [c.take.members] else []) ++ c.take.pending = c.pending := by
  have hfree : c.chosen.reverse.any (c.conflicts.holds c.candidate) = false := by
    rw [any_reverse_eq_not_fits, hfits]
    rfl
  have hmembers : c.chosen.reverse ++ [c.candidate] = c.take.members := List.reverse_cons.symm
  have hlen : c.take.members.length = c.take.chosen.length := List.length_reverse
  have hroom' : c.limit - c.chosen.length - 1 = c.limit - c.take.chosen.length := Nat.sub_sub ..
  have hframe : c.frame c.chosen c.candidate =
      (if 3 ≤ c.take.chosen.length then [c.take.members] else []) ++
        c.take.frame c.take.chosen c.take.candidate ++ c.frame c.chosen (c.candidate + 1) := by
    rw [frame, range'_candidate hlt,
      subsetsFrom_cons_of_fits (Nat.ne_of_gt (Nat.sub_pos_of_lt hroom)) hfree, following_range',
      hmembers, hlen, hroom']
    rfl
  have hlater : c.take.later c.take.chosen = c.frame c.chosen (c.candidate + 1) ++ c.later c.chosen :=
    later_congr c c.take rfl (c.candidate :: c.chosen)
  rw [pending, pending, hframe, hlater]
  simp only [List.append_assoc]

/-- When no candidate or no room is left, what is still to come is what comes once the last member is
    given up. -/
theorem pending_eq_later (h : ¬ (c.chosen.length < c.limit ∧ c.candidate < c.count)) :
    c.pending = c.later c.chosen := by
  rw [pending, frame_eq_nil h, List.nil_append]

/-- The step: a turn takes nothing away but the set that it has found. -/
theorem pending_turn (c : SubsetCursor) : c.turn.pending = c.pending := by
  unfold turn
  split
  · rename_i hguard
    obtain ⟨hroom, hlt⟩ := hguard
    split
    · rename_i hfits
      have htake := pending_take hroom hlt hfits
      split
      · rename_i hlen
        rw [if_pos hlen] at htake
        exact htake
      · rename_i hlen
        rw [if_neg hlen] at htake
        exact htake
    · rename_i hfits
      exact pending_skip hlt (Bool.eq_false_iff.2 hfits)
  · rename_i hguard
    rw [pending_eq_later hguard]
    split
    · rename_i hchosen
      rw [hchosen]
      rfl
    · rename_i last rest hchosen
      rw [hchosen]
      exact congrArg (c.frame rest (last + 1) ++ ·) (later_congr c (c.giveUp last rest) rfl rest)

/-! ### The whole run -/

/-- Asked for the next set again and again, a cursor gives some sets, and then it has ended. -/
inductive Yields : SubsetCursor → List (List Nat) → Prop where
  | ended {c : SubsetCursor} : c.next? = none → Yields c []
  | next {c d : SubsetCursor} {members : List Nat} {sets : List (List Nat)} :
      c.next? = some (members, d) → Yields d sets → Yields c (members :: sets)

theorem pending_of_next?_eq_none (h : c.next? = none) : c.pending = [] := by
  fun_induction next? with
  | case1 c hturn => rw [← pending_turn, hturn, Turn.pending]
  | case2 c d hturn ih => rw [← pending_turn, hturn, Turn.pending, ih h]
  | case3 c members d hturn => cases h

theorem pending_of_next? (h : c.next? = some (members, d)) : c.pending = members :: d.pending := by
  fun_induction next? with
  | case1 c hturn => cases h
  | case2 c d' hturn ih => rw [← pending_turn, hturn, Turn.pending, ih h]
  | case3 c members' d' hturn =>
      cases h
      rw [← pending_turn, hturn, Turn.pending]

/-- The run: a cursor gives what it has still to find. -/
theorem Yields.eq_pending (h : c.Yields sets) : sets = c.pending := by
  induction h with
  | ended hnext => exact (pending_of_next?_eq_none hnext).symm
  | next hnext _ ih => rw [pending_of_next? hnext, ih]

/-- A cursor comes to its end. -/
theorem exists_yields (c : SubsetCursor) (found : List (List Nat)) :
    ∃ sets, c.Yields sets ∧ c.drain found = found.reverse ++ sets := by
  fun_induction drain with
  | case1 c found hnext => exact ⟨[], .ended hnext, (List.append_nil _).symm⟩
  | case2 c found members d hnext ih =>
      obtain ⟨sets, hyields, hdrain⟩ := ih
      refine ⟨members :: sets, .next hnext hyields, ?_⟩
      rw [hdrain, List.reverse_cons, List.append_assoc]
      rfl

theorem yields_start (count inherited limit : Nat) (conflicts : Conflicts) :
    (start count inherited limit conflicts).Yields (subsetsOf count inherited limit conflicts) := by
  obtain ⟨sets, hyields, hdrain⟩ := exists_yields (start count inherited limit conflicts) []
  rw [subsetsOf, hdrain]
  exact hyields

end SubsetCursor

/-- The cursor gives the sets of the recursion. -/
theorem subsetsOf_eq (count inherited limit : Nat) (conflicts : Conflicts) :
    subsetsOf count inherited limit conflicts =
      subsetsFrom inherited conflicts [] (min limit count) (List.range count) := by
  rw [(SubsetCursor.yields_start count inherited limit conflicts).eq_pending, List.range_eq_range']
  exact List.append_nil _

end PathQueryIndex
