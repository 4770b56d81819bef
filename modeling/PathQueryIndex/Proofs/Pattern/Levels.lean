/-
Module: PathQueryIndex.Proofs.Pattern.Levels
Layer: Proofs
Purpose: Points at levels between a source and a target, where every edge leads from one level to the next,
  along its label or against it, and every point can go on in both directions. A map that keeps edges, source
  and target leaves every point at its level: it can be no farther from the source than the point is, and no
  farther from the target. Levels can be put one behind the other or side by side, so the outline of a query
  all of whose intersections join queries of one length has levels, as many as the query is long.
Imports: PathQueryIndex.Proofs.Pattern.Outline, PathQueryIndex.Proofs.Query.Narrow
Main exports: PatternEdge.Between, Leveled, Leveled.at_map, Leveled.concat, Leveled.intersect, Query.At,
  Query.Uniform.leveled
-/
import PathQueryIndex.Proofs.Pattern.Outline
import PathQueryIndex.Proofs.Query.Narrow

namespace PathQueryIndex

/-! ### Edges between points -/

/-- The edge joins two points, in one direction or the other. -/
def PatternEdge.Between (e : PatternEdge) (a b : Nat) : Prop :=
  e.source = a ∧ e.target = b ∨ e.source = b ∧ e.target = a

namespace PatternEdge.Between

variable {e : PatternEdge} {a b c d : Nat}

theorem map (h : e.Between a b) (f : Nat → Nat) : (e.map f).Between (f a) (f b) := by
  rcases h with ⟨rfl, rfl⟩ | ⟨rfl, rfl⟩
  · exact .inl ⟨rfl, rfl⟩
  · exact .inr ⟨rfl, rfl⟩

theorem ofLabel (l : Label) (s t : Nat) : (PatternEdge.ofLabel l s t).Between s t := by
  unfold PatternEdge.ofLabel
  split
  · exact .inr ⟨rfl, rfl⟩
  · exact .inl ⟨rfl, rfl⟩

/-- An edge joins no other two points. -/
theorem unique (h : e.Between a b) (h' : e.Between c d) : a = c ∧ b = d ∨ a = d ∧ b = c := by
  rcases h with ⟨rfl, rfl⟩ | ⟨rfl, rfl⟩
  · exact h'
  · exact h'.symm.imp And.symm And.symm

end PatternEdge.Between

/-! ### Levels -/

/-- Points stand at levels from 0 to `d`, each at one, with the source alone at the first and the target alone at
    the last one. Every edge joins neighbouring levels, and every point but the ends has an edge either way. -/
structure Leveled (edges : List PatternEdge) (At : Nat → Nat → Prop) (s t d : Nat) : Prop where
  source : At s 0
  target : At t d
  eq_source : ∀ x, At x 0 → x = s
  eq_target : ∀ x, At x d → x = t
  unique : ∀ x i j, At x i → At x j → i = j
  le : ∀ x i, At x i → i ≤ d
  up : ∀ x i, At x i → i < d → ∃ y, At y (i + 1) ∧ ∃ e ∈ edges, e.Between x y
  down : ∀ y i, At y (i + 1) → ∃ x, At x i ∧ ∃ e ∈ edges, e.Between x y
  edge : ∀ e ∈ edges, ∃ x y i, At x i ∧ At y (i + 1) ∧ e.Between x y

namespace Leveled

variable {E E' : List PatternEdge} {At At' : Nat → Nat → Prop} {s s' t t' m d d' i j x y : Nat}
  {f : Nat → Nat} {e : PatternEdge}

/-- The step: one end of an edge is a level above the other. -/
theorem neighbours (h : Leveled E At s t d) (he : e ∈ E) (hxy : e.Between x y) (hx : At x i) :
    ∃ j, At y j ∧ (j = i + 1 ∨ i = j + 1) := by
  obtain ⟨a, b, k, ha, hb, hab⟩ := h.edge e he
  rcases hxy.unique hab with ⟨rfl, rfl⟩ | ⟨rfl, rfl⟩
  · obtain rfl := h.unique _ _ _ hx ha
    exact ⟨_, hb, .inl rfl⟩
  · obtain rfl := h.unique _ _ _ hx hb
    exact ⟨_, ha, .inr rfl⟩

/-- The ends of the edges stand at levels. -/
theorem exists_level (h : Leveled E At s t d) (he : e ∈ E) (hxy : e.Between x y) : ∃ i, At x i := by
  obtain ⟨a, b, k, ha, hb, hab⟩ := h.edge e he
  rcases hxy.unique hab with ⟨rfl, _⟩ | ⟨rfl, _⟩
  · exact ⟨k, ha⟩
  · exact ⟨k + 1, hb⟩

section Maps

variable (h : Leveled E At s t d) (h' : Leveled E' At' s' t' d) (hs : f s = s') (ht : f t = t')
  (hf : ∀ e ∈ E, e.map f ∈ E')

include h h' hf

include hs in
/-- Counted from the source, the image of a point is not above the level of the point. -/
theorem exists_le (hx : At x i) : ∃ j ≤ i, At' (f x) j := by
  induction i generalizing x with
  | zero =>
      rw [h.eq_source x hx, hs]
      exact ⟨0, Nat.le_refl 0, h'.source⟩
  | succ i ih =>
      obtain ⟨w, hw, e, he, hwx⟩ := h.down x i hx
      obtain ⟨j, hj, hfw⟩ := ih hw
      obtain ⟨k, hk, hnext⟩ := h'.neighbours (hf e he) (hwx.map f) hfw
      exact ⟨k, by omega, hk⟩

include ht in
/-- Counted from the target, it is not below the level of the point. -/
theorem exists_ge (hx : At x i) : ∃ j, i ≤ j ∧ At' (f x) j := by
  induction hd : d - i generalizing x i with
  | zero =>
      have hle := h.le x i hx
      obtain rfl : i = d := by omega
      rw [h.eq_target x hx, ht]
      exact ⟨i, Nat.le_refl i, h'.target⟩
  | succ n ih =>
      obtain ⟨y, hy, e, he, hxy⟩ := h.up x i hx (by omega)
      obtain ⟨j, hj, hfy⟩ := ih hy (by omega)
      obtain ⟨k, hk, hnext⟩ := h'.neighbours (hf e he) (hxy.map f).symm hfy
      exact ⟨k, by omega, hk⟩

include hs ht

/-- A map that keeps the edges and the ends leaves every point at its level. -/
theorem at_map (hx : At x i) : At' (f x) i := by
  obtain ⟨j, hj, hfx⟩ := exists_le h h' hs hf hx
  obtain ⟨k, hk, hfx'⟩ := exists_ge h h' ht hf hx
  obtain rfl := h'.unique _ _ _ hfx hfx'
  obtain rfl : j = i := by omega
  exact hfx

end Maps

/-! ### Putting levels together -/

/-- The levels of one part behind those of the other. -/
theorem concat (h : Leveled E At s m d) (h' : Leveled E' At' m t d')
    (hmeet : ∀ x i j, At x i → At' x j → x = m) :
    Leveled (E ++ E') (fun x i => At x i ∨ ∃ j, At' x j ∧ i = d + j) s t (d + d') where
  source := .inl h.source
  target := .inr ⟨d', h'.target, rfl⟩
  eq_source := by
    rintro x (hx | ⟨j, hx, hj⟩)
    · exact h.eq_source x hx
    · obtain ⟨rfl, rfl⟩ : d = 0 ∧ j = 0 := by omega
      rw [h'.eq_source x hx]
      exact h.eq_source m h.target
  eq_target := by
    rintro x (hx | ⟨j, hx, hj⟩)
    · have hle := h.le x _ hx
      obtain rfl : d' = 0 := by omega
      rw [h.eq_target x hx]
      exact h'.eq_target m h'.source
    · obtain rfl : j = d' := by omega
      exact h'.eq_target x hx
  unique := by
    have hmid : ∀ x i j, At x i → At' x j → i = d + j := by
      intro x i j hx hx'
      obtain rfl := hmeet x i j hx hx'
      rw [h.unique _ _ _ hx h.target, h'.unique _ _ _ hx' h'.source, Nat.add_zero]
    rintro x i j (hx | ⟨k, hx, rfl⟩) (hx' | ⟨l, hx', rfl⟩)
    · exact h.unique x i j hx hx'
    · exact hmid x i l hx hx'
    · exact (hmid x j k hx' hx).symm
    · rw [h'.unique x k l hx hx']
  le := by
    rintro x i (hx | ⟨j, hx, rfl⟩)
    · exact Nat.le_add_right_of_le (h.le x i hx)
    · exact Nat.add_le_add_left (h'.le x j hx) d
  up := by
    have hsecond : ∀ x j, At' x j → j < d' → ∃ y, (At y (d + j + 1) ∨ ∃ k, At' y k ∧ d + j + 1 = d + k) ∧
        ∃ e ∈ E ++ E', e.Between x y := by
      intro x j hx hlt
      obtain ⟨y, hy, e, he, hxy⟩ := h'.up x j hx hlt
      exact ⟨y, .inr ⟨j + 1, hy, rfl⟩, e, List.mem_append_right _ he, hxy⟩
    rintro x i (hx | ⟨j, hx, rfl⟩) hlt
    · rcases Nat.lt_or_eq_of_le (h.le x i hx) with hi | rfl
      · obtain ⟨y, hy, e, he, hxy⟩ := h.up x i hx hi
        exact ⟨y, .inl hy, e, List.mem_append_left _ he, hxy⟩
      · rw [h.eq_target x hx]
        exact hsecond m 0 h'.source (by omega)
    · exact hsecond x j hx (by omega)
  down := by
    have hfirst : ∀ y i, At y (i + 1) → ∃ x, (At x i ∨ ∃ k, At' x k ∧ i = d + k) ∧
        ∃ e ∈ E ++ E', e.Between x y := by
      intro y i hy
      obtain ⟨x, hx, e, he, hxy⟩ := h.down y i hy
      exact ⟨x, .inl hx, e, List.mem_append_left _ he, hxy⟩
    rintro y i (hy | ⟨j, hy, hij⟩)
    · exact hfirst y i hy
    · cases j with
      | zero =>
          rw [h'.eq_source y hy]
          exact hfirst m i (hij ▸ h.target)
      | succ j =>
          obtain ⟨x, hx, e, he, hxy⟩ := h'.down y j hy
          exact ⟨x, .inr ⟨j, hx, Nat.succ.inj hij⟩, e, List.mem_append_right _ he, hxy⟩
  edge := by
    intro e he
    rcases List.mem_append.1 he with he | he
    · obtain ⟨x, y, i, hx, hy, hxy⟩ := h.edge e he
      exact ⟨x, y, i, .inl hx, .inl hy, hxy⟩
    · obtain ⟨x, y, i, hx, hy, hxy⟩ := h'.edge e he
      exact ⟨x, y, d + i, .inr ⟨i, hx, rfl⟩, .inr ⟨i + 1, hy, rfl⟩, hxy⟩

/-- Levels of one number side by side. -/
theorem intersect (h : Leveled E At s t d) (h' : Leveled E' At' s t d)
    (hmeet : ∀ x i j, At x i → At' x j → x = s ∨ x = t) :
    Leveled (E ++ E') (fun x i => At x i ∨ At' x i) s t d where
  source := .inl h.source
  target := .inl h.target
  eq_source := fun x hx => hx.elim (h.eq_source x) (h'.eq_source x)
  eq_target := fun x hx => hx.elim (h.eq_target x) (h'.eq_target x)
  unique := by
    have hends : ∀ x i j, At x i → At' x j → i = j := by
      intro x i j hx hx'
      rcases hmeet x i j hx hx' with rfl | rfl
      · rw [h.unique _ _ _ hx h.source, h'.unique _ _ _ hx' h'.source]
      · rw [h.unique _ _ _ hx h.target, h'.unique _ _ _ hx' h'.target]
    rintro x i j (hx | hx) (hx' | hx')
    · exact h.unique x i j hx hx'
    · exact hends x i j hx hx'
    · exact (hends x j i hx' hx).symm
    · exact h'.unique x i j hx hx'
  le := fun x i hx => hx.elim (h.le x i) (h'.le x i)
  up := by
    rintro x i (hx | hx) hlt
    · obtain ⟨y, hy, e, he, hxy⟩ := h.up x i hx hlt
      exact ⟨y, .inl hy, e, List.mem_append_left _ he, hxy⟩
    · obtain ⟨y, hy, e, he, hxy⟩ := h'.up x i hx hlt
      exact ⟨y, .inr hy, e, List.mem_append_right _ he, hxy⟩
  down := by
    rintro y i (hy | hy)
    · obtain ⟨x, hx, e, he, hxy⟩ := h.down y i hy
      exact ⟨x, .inl hx, e, List.mem_append_left _ he, hxy⟩
    · obtain ⟨x, hx, e, he, hxy⟩ := h'.down y i hy
      exact ⟨x, .inr hx, e, List.mem_append_right _ he, hxy⟩
  edge := by
    intro e he
    rcases List.mem_append.1 he with he | he
    · obtain ⟨x, y, i, hx, hy, hxy⟩ := h.edge e he
      exact ⟨x, y, i, .inl hx, .inl hy, hxy⟩
    · obtain ⟨x, y, i, hx, hy, hxy⟩ := h'.edge e he
      exact ⟨x, y, i, .inr hx, .inr hy, hxy⟩

end Leveled

/-! ### Outlines in frames -/

/-- Where an outline is drawn: between two points, with new ones from a number on. -/
structure Frame where
  source : Nat
  target : Nat
  fresh : Nat
  source_lt : source < fresh
  target_lt : target < fresh
  ne : source ≠ target

/-- The outline of a query in a frame. -/
def Query.drawn (q : Query) (F : Frame) : Outline := q.outline F.source F.target F.fresh

theorem Query.le_fresh_drawn (q : Query) (F : Frame) : F.fresh ≤ (q.drawn F).fresh :=
  q.le_fresh F.source F.target F.fresh

namespace Frame

/-- The points of the outline of a query in a frame. -/
def Has (F : Frame) (q : Query) (x : Nat) : Prop :=
  x = F.source ∨ x = F.target ∨ F.fresh ≤ x ∧ x < (q.drawn F).fresh

/-- The frame of a pattern. -/
def standard : Frame := ⟨0, 1, 2, by decide, by decide, by decide⟩

/-- The frame of the first part of a concatenation. -/
def first (F : Frame) : Frame where
  source := F.source
  target := F.fresh
  fresh := F.fresh + 1
  source_lt := Nat.lt_succ_of_lt F.source_lt
  target_lt := Nat.lt_succ_self _
  ne := Nat.ne_of_lt F.source_lt

/-- The frame of the second part of a concatenation, behind the first part. -/
def second (F : Frame) (a : Query) : Frame where
  source := F.fresh
  target := F.target
  fresh := (a.drawn F.first).fresh
  source_lt := a.le_fresh_drawn F.first
  target_lt := Nat.lt_of_lt_of_le (Nat.lt_succ_of_lt F.target_lt) (a.le_fresh_drawn F.first)
  ne := Nat.ne_of_gt F.target_lt

/-- The frame of the right side of an intersection, beside the left one. -/
def beside (F : Frame) (a : Query) : Frame where
  source := F.source
  target := F.target
  fresh := (a.drawn F).fresh
  source_lt := Nat.lt_of_lt_of_le F.source_lt (a.le_fresh_drawn F)
  target_lt := Nat.lt_of_lt_of_le F.target_lt (a.le_fresh_drawn F)
  ne := F.ne

variable {F : Frame} {a b : Query} {x : Nat}

/-- The parts of a concatenation have its points, and only the middle one in common. -/
theorem has_concat : F.Has (.concat a b) x ↔ F.first.Has a x ∨ (F.second a).Has b x := by
  have hs := F.source_lt
  have ht := F.target_lt
  have hfirst := a.le_fresh_drawn F.first
  have hsecond := b.le_fresh_drawn (F.second a)
  change x = F.source ∨ x = F.target ∨ F.fresh ≤ x ∧ x < (b.drawn (F.second a)).fresh ↔
    (x = F.source ∨ x = F.fresh ∨ F.fresh + 1 ≤ x ∧ x < (a.drawn F.first).fresh) ∨
      (x = F.fresh ∨ x = F.target ∨ (a.drawn F.first).fresh ≤ x ∧ x < (b.drawn (F.second a)).fresh)
  change F.fresh + 1 ≤ _ at hfirst
  change (a.drawn F.first).fresh ≤ _ at hsecond
  omega

theorem eq_of_has_concat (h : F.first.Has a x) (h' : (F.second a).Has b x) : x = F.fresh := by
  have hs := F.source_lt
  have ht := F.target_lt
  have hne := F.ne
  have hfirst := a.le_fresh_drawn F.first
  change x = F.source ∨ x = F.fresh ∨ F.fresh + 1 ≤ x ∧ x < (a.drawn F.first).fresh at h
  change x = F.fresh ∨ x = F.target ∨ (a.drawn F.first).fresh ≤ x ∧ _ at h'
  change F.fresh + 1 ≤ _ at hfirst
  omega

/-- The sides of an intersection have its points, and only the ends in common. -/
theorem has_intersect : F.Has (.intersect a b) x ↔ F.Has a x ∨ (F.beside a).Has b x := by
  have hleft := a.le_fresh_drawn F
  have hright := b.le_fresh_drawn (F.beside a)
  change x = F.source ∨ x = F.target ∨ F.fresh ≤ x ∧ x < (b.drawn (F.beside a)).fresh ↔
    (x = F.source ∨ x = F.target ∨ F.fresh ≤ x ∧ x < (a.drawn F).fresh) ∨
      (x = F.source ∨ x = F.target ∨ (a.drawn F).fresh ≤ x ∧ x < (b.drawn (F.beside a)).fresh)
  change (a.drawn F).fresh ≤ _ at hright
  omega

theorem eq_of_has_intersect (h : F.Has a x) (h' : (F.beside a).Has b x) : x = F.source ∨ x = F.target := by
  change x = F.source ∨ x = F.target ∨ F.fresh ≤ x ∧ x < (a.drawn F).fresh at h
  change x = F.source ∨ x = F.target ∨ (a.drawn F).fresh ≤ x ∧ _ at h'
  omega

end Frame

/-! ### The levels of an outline -/

namespace Query

variable {q : Query} {F : Frame} {x i : Nat}

/-- The points of an outline that stand at a level. -/
def At : Query → Frame → Nat → Nat → Prop
  | identity, F, x, i => x = F.source ∧ i = 0
  | label _, F, x, i => x = F.source ∧ i = 0 ∨ x = F.target ∧ i = 1
  | concat first second, F, x, i => first.At F.first x i ∨
      ∃ j, second.At (F.second first) x j ∧ i = first.diameter + j
  | intersect left right, F, x, i => left.At F x i ∨ right.At (F.beside left) x i

/-- Only the points of the outline stand at levels. -/
theorem has_of_at (h : q.At F x i) : F.Has q x := by
  induction q generalizing F i with
  | identity => exact .inl h.1
  | label l => exact h.elim (fun h => .inl h.1) fun h => .inr (.inl h.1)
  | concat first second ihf ihs =>
      rcases h with h | ⟨j, h, _⟩
      · exact Frame.has_concat.2 (.inl (ihf h))
      · exact Frame.has_concat.2 (.inr (ihs h))
  | intersect left right ihl ihr => exact Frame.has_intersect.2 (h.imp ihl ihr)

/-- The outline of a uniform query has as many levels as the query is long. -/
theorem Uniform.leveled (hq : q.Uniform) (F : Frame) :
    Leveled (q.drawn F).edges (q.At F) F.source F.target q.diameter := by
  induction q generalizing F with
  | identity => exact hq.elim
  | label l =>
      have hlabel := PatternEdge.Between.ofLabel l F.source F.target
      constructor
      case source => exact .inl ⟨rfl, rfl⟩
      case target => exact .inr ⟨rfl, rfl⟩
      case eq_source =>
        rintro x (⟨hx, _⟩ | ⟨_, hi⟩)
        · exact hx
        · cases hi
      case eq_target =>
        rintro x (⟨_, hi⟩ | ⟨hx, _⟩)
        · cases hi
        · exact hx
      case unique =>
        rintro x i j (⟨rfl, rfl⟩ | ⟨rfl, rfl⟩) (⟨hx, rfl⟩ | ⟨hx, rfl⟩)
        · rfl
        · exact absurd hx F.ne
        · exact absurd hx.symm F.ne
        · rfl
      case le =>
        rintro x i (⟨_, rfl⟩ | ⟨_, rfl⟩)
        · exact Nat.zero_le 1
        · exact Nat.le_refl 1
      case up =>
        rintro x i (⟨rfl, rfl⟩ | ⟨_, rfl⟩) hlt
        · exact ⟨_, .inr ⟨rfl, rfl⟩, _, List.mem_singleton_self _, hlabel⟩
        · exact absurd hlt (Nat.lt_irrefl 1)
      case down =>
        rintro y i (⟨_, hi⟩ | ⟨rfl, hi⟩)
        · cases hi
        · exact ⟨_, .inl ⟨rfl, Nat.succ.inj hi⟩, _, List.mem_singleton_self _, hlabel⟩
      case edge =>
        intro e he
        rw [List.mem_singleton.1 he]
        exact ⟨_, _, 0, .inl ⟨rfl, rfl⟩, .inr ⟨rfl, rfl⟩, hlabel⟩
  | concat first second ihf ihs =>
      exact (ihf hq.1 F.first).concat (ihs hq.2 (F.second first)) fun x i j hx hx' =>
        Frame.eq_of_has_concat (has_of_at hx) (has_of_at hx')
  | intersect left right ihl ihr =>
      obtain ⟨hl, hr, hlen⟩ := hq
      rw [diameter, ← hlen, Nat.max_self]
      exact (ihl hl F).intersect (hlen ▸ ihr hr (F.beside left)) fun x i j hx hx' =>
        Frame.eq_of_has_intersect (has_of_at hx) (has_of_at hx')

/-- All points of the outline of a uniform query stand at levels. -/
theorem Uniform.exists_at (hq : q.Uniform) (hx : F.Has q x) : ∃ i, q.At F x i := by
  induction q generalizing F with
  | identity => exact hq.elim
  | label l =>
      rcases hx with hx | hx | ⟨hle, hlt⟩
      · exact ⟨0, .inl ⟨hx, rfl⟩⟩
      · exact ⟨1, .inr ⟨hx, rfl⟩⟩
      · exact absurd hlt (Nat.not_lt.2 hle)
  | concat first second ihf ihs =>
      rcases Frame.has_concat.1 hx with hx | hx
      · obtain ⟨i, hi⟩ := ihf hq.1 hx
        exact ⟨i, .inl hi⟩
      · obtain ⟨i, hi⟩ := ihs hq.2 hx
        exact ⟨_, .inr ⟨i, hi, rfl⟩⟩
  | intersect left right ihl ihr =>
      rcases Frame.has_intersect.1 hx with hx | hx
      · obtain ⟨i, hi⟩ := ihl hq.1 hx
        exact ⟨i, .inl hi⟩
      · obtain ⟨i, hi⟩ := ihr hq.2.1 hx
        exact ⟨i, .inr hi⟩

end Query

end PathQueryIndex
