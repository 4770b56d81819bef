/-
Module: PathQueryIndex.Index.SubsetCursor
Layer: Index
Purpose: The sets of cores that a closure tries beyond pairs, one after the other. A cursor keeps the members
  that are chosen and the candidate that is looked at next. A candidate that fits is chosen, and the
  candidates behind it follow; when there is no candidate or no room left, the member chosen last is given
  up, and the candidates behind that one follow. Leading members come from an earlier layer, and behind
  one of them all others are skipped.
Imports: PathQueryIndex.Sums
Main exports: Conflicts, Conflicts.holds, SubsetCursor, SubsetCursor.start, SubsetCursor.turn,
  SubsetCursor.next?, SubsetCursor.drain, subsetsOf
-/
import PathQueryIndex.Sums

namespace PathQueryIndex

/-- For each member of a list the earlier members that it is not joined with. -/
abbrev Conflicts := Array (List Nat)

namespace Conflicts

/-- Whether `i` may not be joined with the earlier member `j`. -/
def holds (c : Conflicts) (i j : Nat) : Bool := (c.getD i []).contains j

end Conflicts

/-- A place in the enumeration of sets of members below `count`: the members that are chosen, the last one
    first, and the next candidate. Members below `inherited` come from an earlier layer, and no more than
    `limit` are chosen. -/
structure SubsetCursor where
  count : Nat
  inherited : Nat
  limit : Nat
  conflicts : Conflicts
  chosen : List Nat
  candidate : Nat

/-- What the cursor comes to in one turn: the end, or another place, where a set may be complete. -/
inductive SubsetCursor.Turn where
  | ended
  | moved (cursor : SubsetCursor)
  | found (members : List Nat) (cursor : SubsetCursor)

/-- The place that a turn leads to. -/
def SubsetCursor.Turn.cursor? : Turn → Option SubsetCursor
  | ended => none
  | moved cursor => some cursor
  | found _ cursor => some cursor

namespace SubsetCursor

/-- The cursor before the first set. -/
def start (count inherited limit : Nat) (conflicts : Conflicts) : SubsetCursor where
  count := count
  inherited := inherited
  limit := min limit count
  conflicts := conflicts
  chosen := []
  candidate := 0

variable (c : SubsetCursor)

/-- The chosen members, ascending. -/
def members : List Nat := c.chosen.reverse

/-- Whether the candidate conflicts with none of the chosen members. -/
def fits : Bool := !c.chosen.any (c.conflicts.holds c.candidate)

/-- Pass the candidate over. -/
def skip : SubsetCursor := { c with candidate := c.candidate + 1 }

/-- Choose the candidate. Behind an inherited one the others are skipped. -/
def take : SubsetCursor :=
  { c with
    chosen := c.candidate :: c.chosen
    candidate := if c.candidate < c.inherited then c.inherited else c.candidate + 1 }

/-- Give up the member chosen last and go on with the candidates behind it. -/
def giveUp (last : Nat) (rest : List Nat) : SubsetCursor :=
  { c with chosen := rest, candidate := last + 1 }

/-- One turn of the loop. -/
def turn : Turn :=
  if c.chosen.length < c.limit ∧ c.candidate < c.count then
    if c.fits then
      if 3 ≤ c.take.chosen.length then .found c.take.members c.take else .moved c.take
    else .moved c.skip
  else
    match c.chosen with
    | [] => .ended
    | last :: rest => .moved (c.giveUp last rest)

/-! ### The turns come to an end -/

/-- A bound on the turns that are needed to get through the candidates from one on. -/
def workFrom (candidate : Nat) : Nat := Nat.pow 3 (c.count - candidate)

/-- A bound on the turns that are left: those for the candidates behind the next one, and behind each of
    the chosen members after it is given up. -/
def work : Nat := c.workFrom c.candidate + sumOf (c.chosen.map fun x => c.workFrom (x + 1))

theorem workFrom_pos (x : Nat) : 0 < c.workFrom x := Nat.pow_pos (by decide)

theorem workFrom_le {x y : Nat} (h : x ≤ y) : c.workFrom y ≤ c.workFrom x :=
  Nat.pow_le_pow_right (by decide) (Nat.sub_le_sub_left h c.count)

theorem workFrom_eq {x : Nat} (h : x < c.count) : c.workFrom x = 3 * c.workFrom (x + 1) := by
  have hsub : c.count - x = c.count - (x + 1) + 1 := by omega
  rw [workFrom, workFrom, hsub, Nat.mul_comm]
  rfl

theorem work_skip_lt (h : c.candidate < c.count) : c.skip.work < c.work := by
  have hpos := c.workFrom_pos (c.candidate + 1)
  have heq := c.workFrom_eq h
  change c.workFrom (c.candidate + 1) + _ < _
  exact Nat.add_lt_add_right (by omega) _

theorem work_take_lt (h : c.candidate < c.count) : c.take.work < c.work := by
  have hle : c.workFrom c.take.candidate ≤ c.workFrom (c.candidate + 1) := by
    apply c.workFrom_le
    simp only [take]
    split <;> omega
  have hpos := c.workFrom_pos (c.candidate + 1)
  have heq := c.workFrom_eq h
  change c.workFrom c.take.candidate + (c.workFrom (c.candidate + 1) + _) < c.workFrom c.candidate + _
  rw [← Nat.add_assoc]
  exact Nat.add_lt_add_right (by omega) _

theorem work_giveUp_lt {last : Nat} {rest : List Nat} (h : c.chosen = last :: rest) :
    (c.giveUp last rest).work < c.work := by
  rw [work, work, h, List.map_cons, sumOf_cons]
  exact Nat.lt_add_of_pos_left (c.workFrom_pos c.candidate)

theorem work_lt_of_turn {c d : SubsetCursor} (h : c.turn.cursor? = some d) : d.work < c.work := by
  unfold turn at h
  split at h
  · rename_i hguard
    split at h
    · split at h
      · cases h
        exact c.work_take_lt hguard.2
      · cases h
        exact c.work_take_lt hguard.2
    · cases h
      exact c.work_skip_lt hguard.2
  · split at h
    · cases h
    · rename_i last rest hchosen
      cases h
      exact c.work_giveUp_lt hchosen

/-- The next set and the cursor behind it, if there is one. -/
def next? (c : SubsetCursor) : Option (List Nat × SubsetCursor) :=
  match _hturn : c.turn with
  | .ended => none
  | .moved d => next? d
  | .found members d => some (members, d)
termination_by c.work
decreasing_by exact work_lt_of_turn (by rw [_hturn]; rfl)

theorem work_lt_of_next? {c d : SubsetCursor} {members : List Nat} (h : c.next? = some (members, d)) :
    d.work < c.work := by
  fun_induction next? with
  | case1 c hturn => cases h
  | case2 c d' hturn ih => exact Nat.lt_trans (ih h) (work_lt_of_turn (by rw [hturn]; rfl))
  | case3 c members' d' hturn =>
      cases h
      exact work_lt_of_turn (by rw [hturn]; rfl)

/-- All sets that are still to come, behind those found so far, the last of which is the first. -/
def drain (c : SubsetCursor) (found : List (List Nat)) : List (List Nat) :=
  match _hnext : c.next? with
  | none => found.reverse
  | some (members, d) => drain d (members :: found)
termination_by c.work
decreasing_by exact work_lt_of_next? _hnext

end SubsetCursor

/-- The sets of three to `limit` members below `count` without a conflict and with at most one
    inherited member. -/
def subsetsOf (count inherited limit : Nat) (conflicts : Conflicts) : List (List Nat) :=
  (SubsetCursor.start count inherited limit conflicts).drain []

end PathQueryIndex
