/-
Module: PathQueryIndex.Proofs.Query.Narrow
Layer: Proofs
Purpose: The queries that closing up to a limit does not miss. An intersection of such a query joins two
  steps, each a label or a concatenation, and the longer of the two cannot be asked for by any query of
  shorter walks; or it anchors a query at a loop; or it joins any number of steps up to the limit, all of one
  length. A query all of whose intersections join queries of one length holds from one end of a line of
  vertices to the other, where a query of shorter walks does not reach, and of the queries that reach as far
  as they are long all are of this kind.
Imports: PathQueryIndex.Query.Answer
Main exports: Query.Agrees, Query.Tight, Query.Uniform, Query.tight_of_uniform, Query.TakesSteps,
  Query.TakesSteps.uniform_of_agrees, Query.Within, Query.Narrow, Query.narrow_path
-/
import PathQueryIndex.Query.Answer

namespace PathQueryIndex

open Std

namespace Query

variable {a a' b b' q : Query} {g : Graph} {u v : Vertex} {n : Nat} {count : UInt32}

/-- Two queries have the same answers on every graph. -/
def Agrees (a b : Query) : Prop := ∀ g u v, a.Holds g u v ↔ b.Holds g u v

namespace Agrees

theorem refl (q : Query) : q.Agrees q := fun _ _ _ => Iff.rfl

theorem symm (h : a.Agrees b) : b.Agrees a := fun g u v => (h g u v).symm

theorem trans (h : a.Agrees b) (h' : b.Agrees q) : a.Agrees q := fun g u v =>
  (h g u v).trans (h' g u v)

theorem concat (ha : a.Agrees a') (hb : b.Agrees b') :
    (Query.concat a b).Agrees (.concat a' b') := fun g u v => by
  simp only [Holds, ha g, hb g]

theorem intersect (ha : a.Agrees a') (hb : b.Agrees b') :
    (Query.intersect a b).Agrees (.intersect a' b') := fun g u v =>
  and_congr (ha g u v) (hb g u v)

theorem intersect_comm (a b : Query) : (Query.intersect a b).Agrees (.intersect b a) :=
  fun _ _ _ => and_comm

/-- An intersection with a query that holds anyway changes nothing. -/
theorem intersect_of_imp (h : ∀ g u v, a.Holds g u v → b.Holds g u v) :
    (Query.intersect a b).Agrees a := fun g u v =>
  and_iff_left_of_imp (h g u v)

end Agrees

/-! ### Lengths -/

/-- No query of shorter walks has the same answers. -/
def Tight (q : Query) : Prop := ∀ a : Query, a.Agrees q → q.diameter ≤ a.diameter

/-- Every intersection joins two queries of the same length, and the identity is not asked for. -/
def Uniform : Query → Prop
  | identity => False
  | label _ => True
  | concat first second => first.Uniform ∧ second.Uniform
  | intersect left right => left.Uniform ∧ right.Uniform ∧ left.diameter = right.diameter

/-- A query that takes a step: a label or a concatenation. -/
def IsStep : Query → Prop
  | label _ => True
  | concat _ _ => True
  | _ => False

/-- The queries that an intersection joins, intersections among them taken apart. -/
def branches : Query → List Query
  | intersect left right => left.branches ++ right.branches
  | q => [q]

/-- No intersection joins more queries than the limit. -/
def Within (limit : Option Nat) : Query → Prop
  | identity => True
  | label _ => True
  | concat first second => first.Within limit ∧ second.Within limit
  | intersect left right => left.Within limit ∧ right.Within limit ∧
      ∀ n, limit = some n → left.branches.length + right.branches.length ≤ n

/-- The identity is asked for only beside a query that takes steps. -/
def TakesSteps : Query → Prop
  | identity => False
  | label _ => True
  | concat first second => first.TakesSteps ∧ second.TakesSteps
  | intersect left right => left.TakesSteps ∧ (right = identity ∨ right.TakesSteps)

theorem TakesSteps.one_le_diameter (hq : q.TakesSteps) : 1 ≤ q.diameter := by
  induction q with
  | identity => exact hq.elim
  | label l => exact Nat.le_refl 1
  | concat first second ihf _ => exact Nat.le_trans (ihf hq.1) (Nat.le_add_right ..)
  | intersect left right ihl _ => exact Nat.le_trans (ihl hq.1) (Nat.le_max_left ..)

theorem branches_of_isStep (h : q.IsStep) : q.branches = [q] := by
  cases q with
  | identity => exact h.elim
  | label l => rfl
  | concat first second => rfl
  | intersect left right => exact h.elim

namespace Uniform

theorem takesSteps (hq : q.Uniform) : q.TakesSteps := by
  induction q with
  | identity => exact hq.elim
  | label l => trivial
  | concat first second ihf ihs => exact ⟨ihf hq.1, ihs hq.2⟩
  | intersect left right ihl ihr => exact ⟨ihl hq.1, .inr (ihr hq.2.1)⟩

theorem one_le_diameter (hq : q.Uniform) : 1 ≤ q.diameter := hq.takesSteps.one_le_diameter

/-- The branches of a uniform query are uniform steps of its length. -/
theorem of_mem_branches (hq : q.Uniform) (ha : a ∈ q.branches) :
    a.Uniform ∧ a.IsStep ∧ a.diameter = q.diameter := by
  induction q with
  | identity => exact hq.elim
  | label l =>
      rw [List.mem_singleton.1 ha]
      exact ⟨hq, trivial, rfl⟩
  | concat first second _ _ =>
      rw [List.mem_singleton.1 ha]
      exact ⟨hq, trivial, rfl⟩
  | intersect left right ihl ihr =>
      obtain ⟨hl, hr, hlen⟩ := hq
      rw [diameter, ← hlen, Nat.max_self]
      rcases List.mem_append.1 ha with ha | ha
      · exact ihl hl ha
      · exact hlen ▸ ihr hr ha

end Uniform

/-- All labels are below a bound. -/
def Below (count : UInt32) : Query → Prop
  | identity => True
  | label l => l.id < count
  | concat first second => first.Below count ∧ second.Below count
  | intersect left right => left.Below count ∧ right.Below count

/-- A query that holds has labels of the graph only. -/
theorem below_of_holds (h : q.Holds g u v) : q.Below g.labelCount := by
  induction q generalizing u v with
  | identity => trivial
  | label l =>
      obtain ⟨id, inverse⟩ := l
      cases inverse with
      | false => exact (g.inBounds _ h).2
      | true => exact (g.inBounds _ h).2
  | concat first second ihf ihs =>
      obtain ⟨w, hfirst, hsecond⟩ := h
      exact ⟨ihf hfirst, ihs hsecond⟩
  | intersect left right ihl ihr => exact ⟨ihl h.1, ihr h.2⟩

end Query

/-! ### A line of vertices -/

namespace Graph

variable {n : Nat} {count : UInt32} {hn : n < UInt32.size}

/-- The edges between neighbours on a line of `n` vertices, in both directions and with all labels below
    a bound. -/
def lineEdges (n : Nat) (count : UInt32) : List Edge :=
  (List.range (n - 1)).flatMap fun i => (List.range count.toNat).flatMap fun l =>
    [⟨.ofNat i, .ofNat (i + 1), .ofNat l⟩, ⟨.ofNat (i + 1), .ofNat i, .ofNat l⟩]

theorem mem_lineEdges {e : Edge} : e ∈ lineEdges n count ↔ ∃ i, i + 1 < n ∧ ∃ l < count.toNat,
    e = ⟨.ofNat i, .ofNat (i + 1), .ofNat l⟩ ∨ e = ⟨.ofNat (i + 1), .ofNat i, .ofNat l⟩ := by
  simp only [lineEdges, List.mem_flatMap, List.mem_range, List.mem_cons, List.not_mem_nil, or_false]
  constructor
  · intro h
    obtain ⟨i, hi, l, hl, he⟩ := h
    exact ⟨i, by omega, l, hl, he⟩
  · intro h
    obtain ⟨i, hi, l, hl, he⟩ := h
    exact ⟨i, by omega, l, hl, he⟩

/-- A line of vertices: neighbours are joined by all labels below a bound. -/
def line (n : Nat) (hn : n < UInt32.size) (count : UInt32) : Graph where
  vertexCount := .ofNat n
  labelCount := count
  edges := .ofList (lineEdges n count)
  inBounds := by
    intro e he
    obtain ⟨i, hi, l, hl, he⟩ := mem_lineEdges.1 (OrderedSet.mem_ofList.1 he)
    have hlt : ∀ k < n, UInt32.ofNat k < UInt32.ofNat n := fun k hk => by
      rw [UInt32.lt_iff_toNat_lt, UInt32.toNat_ofNat_of_lt' (Nat.lt_trans hk hn),
        UInt32.toNat_ofNat_of_lt' hn]
      exact hk
    have hlabel : UInt32.ofNat l < count := by
      rw [UInt32.lt_iff_toNat_lt,
        UInt32.toNat_ofNat_of_lt' (Nat.lt_trans hl count.toNat_lt_size)]
      exact hl
    rcases he with rfl | rfl
    · exact ⟨⟨hlt i (Nat.lt_of_succ_lt hi), hlt _ hi⟩, hlabel⟩
    · exact ⟨⟨hlt _ hi, hlt i (Nat.lt_of_succ_lt hi)⟩, hlabel⟩

/-- Every label leads from a vertex of the line to the next one. -/
theorem step_line {i : Nat} {l : Label} (hi : i + 1 < n) (hl : l.id < count) :
    (line n hn count).Step l (.ofNat i) (.ofNat (i + 1)) := by
  have hlabel := UInt32.lt_iff_toNat_lt.1 hl
  obtain ⟨id, inverse⟩ := l
  cases inverse with
  | false =>
      exact OrderedSet.mem_ofList.2 (mem_lineEdges.2 ⟨i, hi, id.toNat, hlabel, .inl (by
        rw [UInt32.ofNat_toNat]
        rfl)⟩)
  | true =>
      exact OrderedSet.mem_ofList.2 (mem_lineEdges.2 ⟨i, hi, id.toNat, hlabel, .inr (by
        rw [UInt32.ofNat_toNat]
        rfl)⟩)

/-- A step on a line goes no farther than to a neighbour. -/
theorem le_of_step_line {l : Label} {u v : Vertex} (h : (line n hn count).Step l u v) :
    u.toNat ≤ v.toNat + 1 ∧ v.toNat ≤ u.toNat + 1 := by
  have hends : ∀ e ∈ lineEdges n count,
      e.source.toNat ≤ e.target.toNat + 1 ∧ e.target.toNat ≤ e.source.toNat + 1 := by
    intro e he
    obtain ⟨i, hi, _, _, he⟩ := mem_lineEdges.1 he
    have hsource := UInt32.toNat_ofNat_of_lt' (Nat.lt_trans (Nat.lt_of_succ_lt hi) hn)
    have htarget := UInt32.toNat_ofNat_of_lt' (Nat.lt_trans hi hn)
    rcases he with rfl | rfl
    · simp only [hsource, htarget]
      omega
    · simp only [hsource, htarget]
      omega
  obtain ⟨id, inverse⟩ := l
  cases inverse with
  | false => exact hends _ (OrderedSet.mem_ofList.1 h)
  | true => exact (hends _ (OrderedSet.mem_ofList.1 h)).symm

end Graph

namespace Query

variable {a a' b b' q : Query} {g : Graph} {u v : Vertex} {n : Nat} {count : UInt32}
  {hn : n < UInt32.size}

/-- A query whose intersections are uniform holds along a line, between vertices as far apart as the query
    is long. -/
theorem Uniform.holds_line (hq : q.Uniform) (hlabels : q.Below count) {i : Nat}
    (hi : i + q.diameter < n) :
    q.Holds (.line n hn count) (.ofNat i) (.ofNat (i + q.diameter)) := by
  induction q generalizing i with
  | identity => exact hq.elim
  | label l => exact Graph.step_line hi hlabels
  | concat first second ihf ihs =>
      rw [diameter, ← Nat.add_assoc] at hi ⊢
      exact ⟨_, ihf hq.1 hlabels.1 (by omega), ihs hq.2 hlabels.2 hi⟩
  | intersect left right ihl ihr =>
      have hdiameter : (intersect left right).diameter = left.diameter := by
        rw [diameter, ← hq.2.2, Nat.max_self]
      rw [hdiameter] at hi ⊢
      refine ⟨ihl hq.1 hlabels.1 hi, ?_⟩
      rw [hq.2.2] at hi ⊢
      exact ihr hq.2.1 hlabels.2 hi

/-- On a line a query reaches no farther than it is long. -/
theorem le_of_holds_line (h : q.Holds (.line n hn count) u v) :
    u.toNat ≤ v.toNat + q.diameter ∧ v.toNat ≤ u.toNat + q.diameter := by
  induction q generalizing u v with
  | identity =>
      rw [h.1]
      exact ⟨Nat.le_refl _, Nat.le_refl _⟩
  | label l => exact Graph.le_of_step_line h
  | concat first second ihf ihs =>
      obtain ⟨w, hfirst, hsecond⟩ := h
      have hf := ihf hfirst
      have hs := ihs hsecond
      rw [diameter]
      omega
  | intersect left right ihl _ =>
      have hl := ihl h.1
      have hle : left.diameter ≤ (intersect left right).diameter := Nat.le_max_left ..
      omega

/-- A query whose intersections are uniform and that holds somewhere cannot be asked for by a query of
    shorter walks. -/
theorem tight_of_uniform (hq : q.Uniform) (hlen : q.diameter + 1 < UInt32.size)
    (h : q.Holds g u v) : q.Tight := by
  intro a ha
  have hline : q.Holds (.line (q.diameter + 1) hlen g.labelCount) (.ofNat 0)
      (.ofNat (0 + q.diameter)) := hq.holds_line (below_of_holds h) (by omega)
  have hreach := (le_of_holds_line ((ha _ _ _).2 hline)).2
  rw [UInt32.toNat_ofNat_of_lt' (by omega), UInt32.toNat_ofNat_of_lt' (by omega)] at hreach
  omega

/-- A query that takes steps and reaches as far on a line as it is long is uniform. -/
theorem TakesSteps.uniform (hq : q.TakesSteps) (h : q.Holds (.line n hn count) u v)
    (hfar : u.toNat + q.diameter ≤ v.toNat) : q.Uniform := by
  induction q generalizing u v with
  | identity => exact hq.elim
  | label l => trivial
  | concat first second ihf ihs =>
      obtain ⟨w, hfirst, hsecond⟩ := h
      have hf := (le_of_holds_line hfirst).2
      have hs := (le_of_holds_line hsecond).2
      rw [diameter] at hfar
      exact ⟨ihf hq.1 hfirst (by omega), ihs hq.2 hsecond (by omega)⟩
  | intersect left right ihl ihr =>
      have hl := (le_of_holds_line h.1).2
      have hr := (le_of_holds_line h.2).2
      have hleft : left.diameter ≤ max left.diameter right.diameter := Nat.le_max_left ..
      have hright : right.diameter ≤ max left.diameter right.diameter := Nat.le_max_right ..
      rw [diameter] at hfar
      have hlong := hq.1.one_le_diameter
      rcases hq.2 with rfl | hsteps
      · rw [diameter] at hr
        omega
      · exact ⟨ihl hq.1 h.1 (by omega), ihr hsteps h.2 (by omega), by omega⟩

/-- A query that takes steps, asks for no longer walks than a uniform one and has its answers is uniform, and
    as long. -/
theorem TakesSteps.uniform_of_agrees (ha : a.TakesSteps) (hq : q.Uniform)
    (hlen : q.diameter + 1 < UInt32.size) (h : q.Holds g u v) (hagrees : a.Agrees q)
    (hshort : a.diameter ≤ q.diameter) : a.Uniform ∧ a.diameter = q.diameter := by
  have hline : q.Holds (.line (q.diameter + 1) hlen g.labelCount) (.ofNat 0)
      (.ofNat (0 + q.diameter)) := hq.holds_line (below_of_holds h) (by omega)
  refine ⟨ha.uniform ((hagrees _ _ _).2 hline) ?_,
    Nat.le_antisymm hshort (tight_of_uniform hq hlen h a hagrees)⟩
  rw [UInt32.toNat_ofNat_of_lt' (by omega), UInt32.toNat_ofNat_of_lt' (by omega)]
  omega

/-! ### Narrow queries -/

/-- A query that closing up to a limit does not miss: an intersection in it joins two steps, of which the
    longer is tight, or anchors a query at a loop, or else joins as many steps as the limit allows, all of
    one length. Three steps of different lengths may be missed even if they do not fold themselves: a core is
    kept with the query it was made of, and one whose own query folds counts as folding with every other. -/
inductive Narrow (limit : Option Nat) : Query → Prop
  | label (l : Label) : Narrow limit (label l)
  | concat {first second : Query} : Narrow limit first → Narrow limit second →
      Narrow limit (concat first second)
  | join {left right : Query} : Narrow limit left → Narrow limit right → left.IsStep → right.IsStep →
      right.diameter ≤ left.diameter → left.Tight → Narrow limit (intersect left right)
  | anchor {q : Query} : Narrow limit q → Narrow limit (intersect q identity)
  | swap {left right : Query} : Narrow limit (intersect left right) → Narrow limit (intersect right left)
  | uniform {q : Query} : q.Uniform → q.Within limit → q.diameter + 1 < UInt32.size → Narrow limit q

/-- A narrow query asks for at least one step. -/
theorem Narrow.one_le_diameter {limit : Option Nat} (h : q.Narrow limit) : 1 ≤ q.diameter := by
  induction h with
  | label => exact Nat.le_refl 1
  | concat _ _ ihf _ => exact Nat.le_trans ihf (Nat.le_add_right ..)
  | join _ _ _ _ _ _ ihl _ => exact Nat.le_trans ihl (Nat.le_max_left ..)
  | anchor _ ih => exact Nat.le_trans ih (Nat.le_max_left ..)
  | swap _ ih =>
      rw [diameter, Nat.max_comm]
      exact ih
  | uniform hq => exact hq.one_le_diameter

/-- The parts of a narrow concatenation are narrow. -/
theorem Narrow.of_concat {limit : Option Nat} (h : (Query.concat a b).Narrow limit) :
    a.Narrow limit ∧ b.Narrow limit := by
  cases h with
  | concat ha hb => exact ⟨ha, hb⟩
  | uniform hq hwithin hlen =>
      rw [diameter] at hlen
      exact ⟨.uniform hq.1 hwithin.1 (by omega), .uniform hq.2 hwithin.2 (by omega)⟩

theorem Narrow.foldl_concat {limit : Option Nat} {ls : List Label} (hq : q.Narrow limit) (hstep : q.IsStep) :
    ((ls.map Query.label).foldl Query.concat q).Narrow limit ∧
      ((ls.map Query.label).foldl Query.concat q).IsStep := by
  induction ls generalizing q with
  | nil => exact ⟨hq, hstep⟩
  | cons l ls ih => exact ih (.concat hq (.label l)) trivial

/-- A path is narrow, and it is a step. -/
theorem narrow_path {limit : Option Nat} (ls : LabelSequence) : (path ls).Narrow limit ∧ (path ls).IsStep := by
  obtain ⟨labels, hne⟩ := ls
  cases labels with
  | nil => exact absurd rfl hne
  | cons l labels => exact Narrow.foldl_concat (.label l) trivial

/-- A branch joins no more queries than the limit if the query does not. -/
theorem Within.of_mem_branches {limit : Option Nat} (hq : q.Within limit) (ha : a ∈ q.branches) :
    a.Within limit := by
  induction q with
  | identity => exact List.mem_singleton.1 ha ▸ hq
  | label l => exact List.mem_singleton.1 ha ▸ hq
  | concat first second _ _ => exact List.mem_singleton.1 ha ▸ hq
  | intersect left right ihl ihr =>
      rcases List.mem_append.1 ha with ha | ha
      · exact ihl hq.1 ha
      · exact ihr hq.2.1 ha

end Query

end PathQueryIndex
