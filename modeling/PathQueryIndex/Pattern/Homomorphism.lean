/-
Module: PathQueryIndex.Pattern.Homomorphism
Layer: Core
Purpose: Maps between patterns. A homomorphism sends points to points so that source, target and every
  labeled edge are kept. The search gives each point a domain of possible images, drops images without
  support across an edge until none is left to drop, and then branches on a point with the fewest
  images left, two or more. When no such point remains, the images left are a homomorphism.
Imports: PathQueryIndex.Pattern, PathQueryIndex.Sums
Main exports: Homomorphism, Domains, Matching, Matching.propagate, Matching.solve, Pattern.mapsInto,
  Pattern.folding?
-/
import PathQueryIndex.Pattern
import PathQueryIndex.Sums

namespace PathQueryIndex

/-- `f` sends every edge of `p` to an equally labeled edge of `q` and keeps source and target. -/
structure Homomorphism (p q : Pattern) (f : Nat → Nat) : Prop where
  source : f p.source = q.source
  target : f p.target = q.target
  edge : ∀ e ∈ p.edges, e.map f ∈ q.edges
  inRange : ∀ v < p.vertexCount, f v < q.vertexCount

/-- For each point, the labels of its edges in one direction and their other ends. -/
abbrev Links := Array (List (UInt32 × Nat))

namespace Pattern

/-- The edges that leave each point. -/
def outgoing (p : Pattern) : Links :=
  ((List.range p.vertexCount).map fun v =>
    (p.edges.toList.filter (·.source == v)).map fun e => (e.label, e.target)).toArray

/-- The edges that enter each point. -/
def incoming (p : Pattern) : Links :=
  ((List.range p.vertexCount).map fun v =>
    (p.edges.toList.filter (·.target == v)).map fun e => (e.label, e.source)).toArray

end Pattern

/-- The possible images of each point, ascending. -/
abbrev Domains := Array (List Nat)

namespace Domains

/-- The images of a point. -/
def choices (d : Domains) (v : Nat) : List Nat := d.getD v []

/-- The number of images of all points together. -/
def total (d : Domains) : Nat := sumOf (d.toList.map List.length)

/-- The domains with the images of one point replaced. -/
def assign (d : Domains) (v : Nat) (images : List Nat) : Domains := d.setIfInBounds v images

theorem sum_set {xs : List (List Nat)} {v : Nat} {images : List Nat} (hv : v < xs.length) :
    sumOf ((xs.set v images).map List.length) + (xs.getD v []).length =
      sumOf (xs.map List.length) + images.length := by
  induction xs generalizing v with
  | nil => simp at hv
  | cons x xs ih =>
    cases v with
    | zero => simp; omega
    | succ v =>
      have := ih (v := v) (by simpa using hv)
      simp only [List.set_cons_succ, List.map_cons, sumOf_cons, List.getD_cons_succ]
      omega

theorem total_assign {d : Domains} {v : Nat} {images : List Nat} (hv : v < d.size) :
    (d.assign v images).total + (d.choices v).length = d.total + images.length := by
  have h := @sum_set d.toList v images (by simpa using hv)
  simp only [total, assign, choices, Array.toList_setIfInBounds]
  simpa [Array.getD_eq_getD_getElem?] using h

theorem total_assign_le {d : Domains} {v : Nat} {images : List Nat}
    (h : images.length ≤ (d.choices v).length) : (d.assign v images).total ≤ d.total := by
  by_cases hv : v < d.size
  · have := @total_assign d v images hv
    omega
  · simp [assign, Array.setIfInBounds, hv]

/-- Prefer `v` to the point found so far if it has several images, and fewer than that point. -/
def prefer (d : Domains) (best : Option Nat) (v : Nat) : Option Nat :=
  if (d.choices v).length ≤ 1 then best
  else
    match best with
    | none => some v
    | some u => if (d.choices v).length < (d.choices u).length then some v else best

/-- The first of the points with the fewest images among those with more than one. -/
def open? (d : Domains) : Option Nat := (List.range d.size).foldl d.prefer none

theorem prefer_cases {d : Domains} {best : Option Nat} {v w : Nat} (h : d.prefer best v = some w) :
    best = some w ∨ (w = v ∧ 1 < (d.choices v).length) := by
  unfold prefer at h
  split at h
  · exact .inl h
  · rename_i hlen
    split at h
    · cases h; exact .inr ⟨rfl, by omega⟩
    · split at h
      · cases h; exact .inr ⟨rfl, by omega⟩
      · exact .inl h

theorem foldl_prefer_cases {d : Domains} {vs : List Nat} {best : Option Nat} {w : Nat}
    (h : vs.foldl d.prefer best = some w) :
    best = some w ∨ (w ∈ vs ∧ 1 < (d.choices w).length) := by
  induction vs generalizing best with
  | nil => exact .inl h
  | cons v vs ih =>
    rcases ih h with h | ⟨hmem, hlen⟩
    · rcases prefer_cases h with h | ⟨rfl, hlen⟩
      · exact .inl h
      · exact .inr ⟨List.mem_cons_self .., hlen⟩
    · exact .inr ⟨List.mem_cons_of_mem _ hmem, hlen⟩

theorem lt_of_open? {d : Domains} {v : Nat} (h : d.open? = some v) :
    v < d.size ∧ 1 < (d.choices v).length := by
  rcases foldl_prefer_cases h with h | ⟨hmem, hlen⟩
  · cases h
  · exact ⟨List.mem_range.1 hmem, hlen⟩

end Domains

/-- The images that have an edge with the label to one of the images `other`. -/
def supported (links : Links) (label : UInt32) (other images : List Nat) : List Nat :=
  images.filter fun w =>
    (links.getD w []).any fun (l, x) => l == label && other.contains x

/-- A search for homomorphisms from `source` to `target`, with the edges of both at hand. If
    `ownFirst`, a point is tried as its own image before all others. -/
structure Matching where
  source : Pattern
  target : Pattern
  outOfSource : Links
  intoSource : Links
  outOfTarget : Links
  intoTarget : Links
  ownFirst : Bool

namespace Matching

/-- The search from one pattern to another. -/
def between (p q : Pattern) (ownFirst : Bool) : Matching where
  source := p
  target := q
  outOfSource := p.outgoing
  intoSource := p.incoming
  outOfTarget := q.outgoing
  intoTarget := q.incoming
  ownFirst := ownFirst

variable (m : Matching)

/-- Whether `w` has the labels of all edges at `v`, in their directions, and its loops. -/
def compatible (v w : Nat) : Bool :=
  ((m.outOfSource.getD v []).all fun (label, u) =>
    if u == v then m.target.edges.contains ⟨w, w, label⟩
    else (m.outOfTarget.getD w []).any fun (l, _) => l == label) &&
  (m.intoSource.getD v []).all fun (label, _) =>
    (m.intoTarget.getD w []).any fun (l, _) => l == label

/-- Replace the images of a point by some of them; fail if none are left. -/
def restrict (d : Domains) (v : Nat) (images : List Nat) : Option Domains :=
  if images.length = (d.choices v).length then some d
  else if images.isEmpty then none
  else some (d.assign v images)

/-- Drop the images of both ends of an edge that the other end does not support. An edge from a point
    to itself is left to `compatible`. -/
def revise (d : Domains) (e : PatternEdge) : Option Domains := do
  if e.source = e.target then return d
  let d ← restrict d e.source
    (supported m.outOfTarget e.label (d.choices e.target) (d.choices e.source))
  restrict d e.target
    (supported m.intoTarget e.label (d.choices e.source) (d.choices e.target))

/-- Revise the domains along each edge once. -/
def reviseAll (d : Domains) : Option Domains := m.source.edges.toList.foldlM m.revise d

theorem length_supported_le (links : Links) (label : UInt32) (other images : List Nat) :
    (supported links label other images).length ≤ images.length :=
  List.length_filter_le _ _

theorem total_restrict_le {d next : Domains} {v : Nat} {images : List Nat}
    (hle : images.length ≤ (d.choices v).length) (h : restrict d v images = some next) :
    next.total ≤ d.total := by
  unfold restrict at h
  split at h
  · cases h; exact Nat.le_refl _
  · split at h
    · cases h
    · cases h; exact Domains.total_assign_le hle

theorem total_revise_le {d next : Domains} {e : PatternEdge} (h : m.revise d e = some next) :
    next.total ≤ d.total := by
  unfold revise at h
  split at h
  · cases h; exact Nat.le_refl _
  · simp only [Option.bind_eq_bind, Option.bind_eq_some_iff] at h
    obtain ⟨d₁, h₁, h₂⟩ := h
    exact Nat.le_trans (total_restrict_le (length_supported_le ..) h₂)
      (total_restrict_le (length_supported_le ..) h₁)

theorem total_reviseAll_le {d next : Domains} (h : m.reviseAll d = some next) :
    next.total ≤ d.total := by
  unfold reviseAll at h
  generalize m.source.edges.toList = edges at h
  induction edges generalizing d with
  | nil => cases h; exact Nat.le_refl _
  | cons e edges ih =>
    simp only [List.foldlM_cons, Option.bind_eq_bind, Option.bind_eq_some_iff] at h
    obtain ⟨d₁, h₁, h₂⟩ := h
    exact Nat.le_trans (ih h₂) (m.total_revise_le h₁)

/-- Revise until no image is dropped any more; fail once a point has no image left. -/
def propagate (d : Domains) : Option Domains :=
  match m.reviseAll d with
  | none => none
  | some next => if next.total < d.total then propagate next else some next
termination_by d.total

theorem total_propagate_le {d next : Domains} (h : m.propagate d = some next) :
    next.total ≤ d.total := by
  fun_induction propagate with
  | case1 => cases h
  | case2 d d₁ h₁ hlt ih => exact Nat.le_trans (ih h) (Nat.le_of_lt hlt)
  | case3 d d₁ h₁ hlt => cases h; exact m.total_reviseAll_le h₁

/-- The domains at the start: source and target have one image each, every other point has all images
    that carry its labels. -/
def initial? : Option Domains := do
  if m.source.isLoop && !m.target.isLoop then none
  let images := fun v =>
    if v = m.source.source then [m.target.source]
    else if v = m.source.target then [m.target.target]
    else List.range m.target.vertexCount
  let domains := (List.range m.source.vertexCount).map fun v =>
    (images v).filter (m.compatible v)
  if domains.any List.isEmpty then none
  m.propagate domains.toArray

/-- The images of a point in the order in which they are tried. -/
def attempts (v : Nat) (images : List Nat) : List Nat :=
  if m.ownFirst && images.contains v then v :: images.filter (· != v) else images

/-- The images of a homomorphism within the domains, point by point. -/
def solve (d : Domains) : Option (List Nat) :=
  match _hopen : d.open? with
  | none => d.toList.mapM List.head?
  | some v =>
    (m.attempts v (d.choices v)).findSome? fun image =>
      match _hnext : m.propagate (d.assign v [image]) with
      | none => none
      | some next => solve next
termination_by d.total
decreasing_by
  obtain ⟨hv, hlen⟩ := Domains.lt_of_open? _hopen
  have h₁ := m.total_propagate_le _hnext
  have h₂ := @Domains.total_assign d v [image] hv
  simp only [List.length_singleton] at h₂
  omega

/-- The images of some homomorphism, point by point. -/
def search : Option (List Nat) := do m.solve (← m.initial?)

end Matching

namespace Pattern

/-- Whether some homomorphism leads from `p` to `q`. -/
def mapsInto (p q : Pattern) : Bool := (Matching.between p q false).search.isSome

/-- A map of the pattern to itself that misses some point. Every point that has another image than
    itself is tried as the missing one, in order. -/
def folding? (p : Pattern) : Option (List Nat) := do
  let m := Matching.between p p true
  let domains ← m.initial?
  (List.range p.vertexCount).findSome? fun x =>
    if x = p.source ∨ x = p.target ∨ domains.choices x = [x] then none
    else
      let without := domains.map (·.filter (· != x))
      if without.any List.isEmpty then none
      else do m.solve (← m.propagate without)

end Pattern

end PathQueryIndex
