/-
Module: PathQueryIndex.Proofs.Pattern.Branches
Layer: Proofs
Purpose: Queries of one length do not fold in part. The steps of a uniform intersection are branches that meet at
  the source and the target only. A map that keeps edges and ends leaves all points at their levels, and what
  begins in the middle of a branch cannot get out of it except through the ends; so every branch is sent into a
  single branch. If no branch can be sent into another one, each is sent into itself, and if it is rigid, all
  its points are hit. In a concatenation the two parts are sent into themselves, as the point between them is
  the only one at its level.
Imports: PathQueryIndex.Proofs.Pattern.Levels, PathQueryIndex.Proofs.Pattern.Meaning,
  PathQueryIndex.Proofs.Pattern.Core
Main exports: Query.Sends, Query.Steady, Query.Steady.concat, Query.Sends.intersect_cases,
  Query.steady_of_branches, Pattern.exists_sends_iff, Pattern.rigid_ofQuery_iff, Pattern.rigid_concat,
  Pattern.rigid_of_branches
-/
import PathQueryIndex.Proofs.Pattern.Levels
import PathQueryIndex.Proofs.Pattern.Meaning
import PathQueryIndex.Proofs.Pattern.Core

namespace PathQueryIndex

/-! ### Maps of outlines -/

namespace Query

variable {a b q first second left right : Query} {F G H : Frame} {f h : Nat → Nat} {x : Nat}

/-- A map of points sends the outline of a query into that of another: ends to ends, and edges to edges. -/
structure Sends (a : Query) (F : Frame) (b : Query) (G : Frame) (f : Nat → Nat) : Prop where
  source : f F.source = G.source
  target : f F.target = G.target
  edge : ∀ e ∈ (a.drawn F).edges, e.map f ∈ (b.drawn G).edges

/-- Every map of the outline to itself hits all its points. -/
def Steady (q : Query) (F : Frame) : Prop :=
  ∀ f, q.Sends F q F f → ∀ x, F.Has q x → ∃ y, F.Has q y ∧ f y = x

namespace Sends

theorem comp (hf : a.Sends F b G f) (hh : b.Sends G q H h) : a.Sends F q H (h ∘ f) where
  source := (congrArg h hf.source).trans hh.source
  target := (congrArg h hf.target).trans hh.target
  edge := fun e he => hh.edge _ (hf.edge e he)

/-- The points of a uniform query are sent to points. -/
theorem has (hf : a.Sends F b G f) (ha : a.Uniform) (hb : b.Uniform) (hx : F.Has a x) : G.Has b (f x) := by
  obtain ⟨i, hi⟩ := ha.exists_at hx
  have hlevels := ha.leveled F
  rcases Nat.lt_or_eq_of_le (hlevels.le x i hi) with hlt | rfl
  · obtain ⟨y, _, e, he, hxy⟩ := hlevels.up x i hi hlt
    obtain ⟨j, hj⟩ := (hb.leveled G).exists_level (hf.edge e he) (hxy.map f)
    exact has_of_at hj
  · rw [hlevels.eq_target x hi, hf.target]
    exact .inr (.inl rfl)

end Sends

/-! ### Drawing a query in another frame -/

end Query

namespace Frame

variable {F G : Frame} {q : Query} {x : Nat}

/-- The point of another frame that takes the place of a point. -/
def shift (F G : Frame) (x : Nat) : Nat :=
  if x = F.source then G.source else if x = F.target then G.target else x - F.fresh + G.fresh

theorem shift_source : F.shift G F.source = G.source := if_pos rfl

theorem shift_target : F.shift G F.target = G.target := by
  rw [shift, if_neg F.ne.symm, if_pos rfl]

theorem shift_fresh (k : Nat) : F.shift G (F.fresh + k) = G.fresh + k := by
  have hs := F.source_lt
  have ht := F.target_lt
  rw [shift, if_neg (by omega), if_neg (by omega)]
  omega

/-- The outline of a query in another frame is the same but for the names of its points. -/
theorem drawn_eq {f : Nat → Nat} (hs : f F.source = G.source) (ht : f F.target = G.target)
    (hfresh : ∀ k, f (F.fresh + k) = G.fresh + k) :
    (q.drawn G).edges = (q.drawn F).edges.map (·.map f) ∧
      ∃ k, (q.drawn F).fresh = F.fresh + k ∧ (q.drawn G).fresh = G.fresh + k := by
  induction q generalizing F G with
  | identity => exact ⟨rfl, 0, rfl, rfl⟩
  | label l =>
      refine ⟨?_, 0, rfl, rfl⟩
      change [PatternEdge.ofLabel l G.source G.target] = [(PatternEdge.ofLabel l F.source F.target).map f]
      rw [← hs, ← ht]
      unfold PatternEdge.ofLabel
      split <;> rfl
  | concat first second ihf ihs =>
      obtain ⟨hfirst, k, hF, hG⟩ := ihf (F := F.first) (G := G.first) hs (hfresh 0) fun k => by
        change f (F.fresh + 1 + k) = G.fresh + 1 + k
        rw [Nat.add_assoc, hfresh, Nat.add_assoc]
      have hfresh' : ∀ j, f ((F.second first).fresh + j) = (G.second first).fresh + j := fun j => by
        change f ((first.drawn F.first).fresh + j) = (first.drawn G.first).fresh + j
        rw [hF, hG]
        change f (F.fresh + 1 + k + j) = G.fresh + 1 + k + j
        rw [Nat.add_assoc, Nat.add_assoc, hfresh, Nat.add_assoc, Nat.add_assoc]
      obtain ⟨hsecond, j, hF', hG'⟩ := ihs (F := F.second first) (G := G.second first) (hfresh 0) ht hfresh'
      refine ⟨?_, 1 + k + j, ?_, ?_⟩
      · change (first.drawn G.first).edges ++ (second.drawn (G.second first)).edges =
          ((first.drawn F.first).edges ++ (second.drawn (F.second first)).edges).map _
        rw [hfirst, hsecond, List.map_append]
      · change (second.drawn (F.second first)).fresh = _
        rw [hF']
        change (first.drawn F.first).fresh + j = _
        rw [hF]
        change F.fresh + 1 + k + j = _
        omega
      · change (second.drawn (G.second first)).fresh = _
        rw [hG']
        change (first.drawn G.first).fresh + j = _
        rw [hG]
        change G.fresh + 1 + k + j = _
        omega
  | intersect left right ihl ihr =>
      obtain ⟨hleft, k, hF, hG⟩ := ihl (F := F) (G := G) hs ht hfresh
      have hfresh' : ∀ j, f ((F.beside left).fresh + j) = (G.beside left).fresh + j := fun j => by
        change f ((left.drawn F).fresh + j) = (left.drawn G).fresh + j
        rw [hF, hG, Nat.add_assoc, hfresh, Nat.add_assoc]
      obtain ⟨hright, j, hF', hG'⟩ := ihr (F := F.beside left) (G := G.beside left) hs ht hfresh'
      refine ⟨?_, k + j, ?_, ?_⟩
      · change (left.drawn G).edges ++ (right.drawn (G.beside left)).edges =
          ((left.drawn F).edges ++ (right.drawn (F.beside left)).edges).map _
        rw [hleft, hright, List.map_append]
      · change (right.drawn (F.beside left)).fresh = _
        rw [hF']
        change (left.drawn F).fresh + j = _
        rw [hF, Nat.add_assoc]
      · change (right.drawn (G.beside left)).fresh = _
        rw [hG']
        change (left.drawn G).fresh + j = _
        rw [hG, Nat.add_assoc]

theorem sends_shift (q : Query) (F G : Frame) : q.Sends F q G (F.shift G) where
  source := shift_source
  target := shift_target
  edge := fun e he => by
    rw [(drawn_eq (q := q) shift_source shift_target shift_fresh).1]
    exact List.mem_map_of_mem he

theorem has_shift (hx : F.Has q x) : G.Has q (F.shift G x) := by
  obtain ⟨_, k, hF, hG⟩ := drawn_eq (F := F) (G := G) (q := q) shift_source shift_target shift_fresh
  rcases hx with rfl | rfl | ⟨hle, hlt⟩
  · exact .inl shift_source
  · exact .inr (.inl shift_target)
  · obtain ⟨j, rfl⟩ := Nat.exists_eq_add_of_le hle
    refine .inr (.inr ?_)
    rw [shift_fresh]
    omega

/-- Going to another frame and back changes nothing. -/
theorem shift_shift (hx : F.Has q x) : G.shift F (F.shift G x) = x := by
  rcases hx with rfl | rfl | ⟨hle, _⟩
  · rw [shift_source, shift_source]
  · rw [shift_target, shift_target]
  · obtain ⟨j, rfl⟩ := Nat.exists_eq_add_of_le hle
    rw [shift_fresh, shift_fresh]

end Frame

namespace Query

variable {a b q first second left right : Query} {F G H : Frame} {f h : Nat → Nat} {x : Nat}

/-- Whether a query is steady does not depend on the frame. -/
theorem Steady.shift (h : q.Steady F) (hq : q.Uniform) (G : Frame) : q.Steady G := by
  intro f hf x hx
  have hback : q.Sends F q F (G.shift F ∘ f ∘ F.shift G) :=
    ((Frame.sends_shift q F G).comp hf).comp (Frame.sends_shift q G F)
  obtain ⟨y, hy, heq⟩ := h _ hback _ (Frame.has_shift hx)
  have hpoint := hf.has hq hq (Frame.has_shift (G := G) hy)
  refine ⟨F.shift G y, Frame.has_shift hy, ?_⟩
  rw [← Frame.shift_shift (G := F) hpoint, ← Frame.shift_shift (G := F) hx]
  exact congrArg (F.shift G) heq

/-! ### Concatenations -/

theorem steady_label (l : Label) : (label l).Steady F := by
  intro f hf x hx
  refine ⟨x, hx, ?_⟩
  rcases hx with rfl | rfl | ⟨hle, hlt⟩
  · exact hf.source
  · exact hf.target
  · exact absurd hlt (Nat.not_lt.2 hle)

section Concat

variable (hq : (concat first second).Uniform) (hf : (concat first second).Sends F (concat first second) F f)

include hq hf

/-- The point between the parts is the only one at its level. -/
theorem map_middle : f F.fresh = F.fresh := by
  have hlevels := hq.leveled F
  have hfirst := hq.1.leveled F.first
  rcases hlevels.at_map hlevels hf.source hf.target hf.edge (.inl hfirst.target) with hmid | ⟨j, hmid, hj⟩
  · exact hfirst.eq_target _ hmid
  · obtain rfl : j = 0 := by omega
    exact (hq.2.leveled (F.second first)).eq_source _ hmid

/-- The first part is sent into itself: its edges do not lead above the point between the parts. -/
theorem sends_first : first.Sends F.first first F.first f where
  source := hf.source
  target := map_middle hq hf
  edge := by
    have hlevels := hq.leveled F
    intro e he
    obtain ⟨x, y, i, hx, hy, hxy⟩ := (hq.1.leveled F.first).edge e he
    have hle := (hq.1.leveled F.first).le _ _ hy
    have hfx := hlevels.at_map hlevels hf.source hf.target hf.edge (.inl hx)
    rcases List.mem_append.1 (hf.edge e (List.mem_append_left _ he)) with hmem | hmem
    · exact hmem
    · obtain ⟨j, hj⟩ := (hq.2.leveled (F.second first)).exists_level hmem (hxy.map f)
      have hsame := hlevels.unique _ _ _ hfx (.inr ⟨j, hj, rfl⟩)
      omega

/-- The second part is sent into itself: its edges do not lead below the point between the parts. -/
theorem sends_second : second.Sends (F.second first) second (F.second first) f where
  source := map_middle hq hf
  target := hf.target
  edge := by
    have hlevels := hq.leveled F
    intro e he
    obtain ⟨x, y, i, hx, hy, hxy⟩ := (hq.2.leveled (F.second first)).edge e he
    have hfy := hlevels.at_map hlevels hf.source hf.target hf.edge (.inr ⟨_, hy, rfl⟩)
    rcases List.mem_append.1 (hf.edge e (List.mem_append_right _ he)) with hmem | hmem
    · obtain ⟨j, hj⟩ := (hq.1.leveled F.first).exists_level hmem (hxy.map f).symm
      have hle := (hq.1.leveled F.first).le _ _ hj
      have hsame := hlevels.unique _ _ _ hfy (.inl hj)
      omega
    · exact hmem

end Concat

/-- A concatenation is steady if its parts are. -/
theorem Steady.concat (hq : (Query.concat first second).Uniform) (hfirst : first.Steady F.first)
    (hsecond : second.Steady (F.second first)) : (Query.concat first second).Steady F := by
  intro f hf x hx
  rcases Frame.has_concat.1 hx with hx | hx
  · obtain ⟨y, hy, heq⟩ := hfirst f (sends_first hq hf) x hx
    exact ⟨y, Frame.has_concat.2 (.inl hy), heq⟩
  · obtain ⟨y, hy, heq⟩ := hsecond f (sends_second hq hf) x hx
    exact ⟨y, Frame.has_concat.2 (.inr hy), heq⟩

end Query

/-! ### Two sides -/

namespace Leveled

variable {E E' El Er : List PatternEdge} {At At' Atl Atr : Nat → Nat → Prop} {s s' t t' m d d' : Nat}
  {f : Nat → Nat}

/-- Two parts behind each other are sent to one side of two if the point between them is. From there on, every
    point is sent to an inner point of this side, all of whose edges are on this side. -/
theorem mem_of_middle (h : Leveled E At s m d) (h' : Leveled E' At' m t d') (hpos : 0 < d) (hpos' : 0 < d')
    (hl : Leveled El Atl s' t' (d + d')) (hr : Leveled Er Atr s' t' (d + d'))
    (hmeet : ∀ x i j, Atl x i → Atr x j → x = s' ∨ x = t')
    (hlevel : ∀ x i, (At x i ∨ ∃ j, At' x j ∧ i = d + j) → Atl (f x) i ∨ Atr (f x) i)
    (hf : ∀ e ∈ E ++ E', e.map f ∈ El ∨ e.map f ∈ Er) (hmid : Atl (f m) d) :
    ∀ e ∈ E ++ E', e.map f ∈ El := by
  have hunique := (hl.intersect hr hmeet).unique
  have hside : ∀ x i j, (At x i ∨ ∃ j, At' x j ∧ i = d + j) → Atl (f x) j → Atl (f x) i := by
    intro x i j hx hj
    rcases hlevel x i hx with hi | hi
    · exact hi
    · exact hunique _ _ _ (.inl hj) (.inr hi) ▸ hj
  -- an edge is on this side if one of its ends is sent to an inner point of this side
  have hinner : ∀ e ∈ E ++ E', ∀ x y i, e.Between x y → 0 < i → i < d + d' → Atl (f x) i →
      e.map f ∈ El ∧ ∃ j, Atl (f y) j := by
    intro e he x y i hxy hi hlt hx
    have hmem : e.map f ∈ El := by
      refine (hf e he).resolve_right fun hmem => ?_
      obtain ⟨j, hj⟩ := hr.exists_level hmem (hxy.map f)
      rcases hmeet _ _ _ hx hj with heq | heq
      · have hzero := hl.unique _ _ _ hx (heq ▸ hl.source)
        omega
      · have hlast := hl.unique _ _ _ hx (heq ▸ hl.target)
        omega
    obtain ⟨j, hj, _⟩ := hl.neighbours hmem (hxy.map f) hx
    exact ⟨hmem, j, hj⟩
  have hdown : ∀ n x i, d - i = n → At x i → Atl (f x) i := by
    intro n
    induction n with
    | zero =>
        intro x i hn hx
        have hle := h.le x i hx
        obtain rfl : i = d := by omega
        exact h.eq_target x hx ▸ hmid
    | succ n ih =>
        intro x i hn hx
        obtain ⟨y, hy, e, he, hxy⟩ := h.up x i hx (by omega)
        obtain ⟨_, j, hj⟩ := hinner e (List.mem_append_left _ he) y x (i + 1) hxy.symm (by omega) (by omega)
          (ih y (i + 1) (by omega) hy)
        exact hside x i j (.inl hx) hj
  have hup : ∀ i y, At' y i → Atl (f y) (d + i) := by
    intro i
    induction i with
    | zero =>
        intro y hy
        exact h'.eq_source y hy ▸ hmid
    | succ i ih =>
        intro y hy
        have hle := h'.le y _ hy
        obtain ⟨x, hx, e, he, hxy⟩ := h'.down y i hy
        obtain ⟨_, j, hj⟩ := hinner e (List.mem_append_right _ he) x y (d + i) hxy (by omega) (by omega) (ih x hx)
        exact hside y _ j (.inr ⟨_, hy, rfl⟩) hj
  intro e he
  rcases List.mem_append.1 he with hfirst | hsecond
  · obtain ⟨x, y, i, _, hy, hxy⟩ := h.edge e hfirst
    have hle := h.le y _ hy
    exact (hinner e he y x (i + 1) hxy.symm (by omega) (by omega) (hdown _ y _ rfl hy)).1
  · obtain ⟨x, y, i, hx, hy, hxy⟩ := h'.edge e hsecond
    have hle := h'.le y _ hy
    exact (hinner e he x y (d + i) hxy (by omega) (by omega) (hup i x hx)).1

end Leveled

namespace Query

variable {a b q first second left right : Query} {F G H : Frame} {f h : Nat → Nat} {x : Nat}

/-- A step is sent to one side of an intersection of its length. -/
theorem Sends.intersect_cases (hf : a.Sends F (intersect left right) G f) (hstep : a.IsStep) (ha : a.Uniform)
    (hq : (intersect left right).Uniform) (hlen : a.diameter = (intersect left right).diameter) :
    a.Sends F left G f ∨ a.Sends F right (G.beside left) f := by
  have hedge : ∀ e ∈ (a.drawn F).edges,
      e.map f ∈ (left.drawn G).edges ∨ e.map f ∈ (right.drawn (G.beside left)).edges := fun e he =>
    List.mem_append.1 (hf.edge e he)
  suffices hside : (∀ e ∈ (a.drawn F).edges, e.map f ∈ (left.drawn G).edges) ∨
      ∀ e ∈ (a.drawn F).edges, e.map f ∈ (right.drawn (G.beside left)).edges by
    exact hside.imp (fun hmem => ⟨hf.source, hf.target, hmem⟩) fun hmem => ⟨hf.source, hf.target, hmem⟩
  cases a with
  | identity => exact hstep.elim
  | label l =>
      refine (hedge _ (List.mem_singleton_self _)).imp (fun hmem e he => ?_) fun hmem e he => ?_
      · exact List.mem_singleton.1 he ▸ hmem
      · exact List.mem_singleton.1 he ▸ hmem
  | concat first second =>
      have hlevel := fun x i hx => (ha.leveled F).at_map (i := i) (x := x) (hlen ▸ hq.leveled G)
        hf.source hf.target hf.edge hx
      obtain ⟨hl, hr, hsame⟩ := hq
      rw [diameter, diameter, ← hsame, Nat.max_self] at hlen
      have hfirst := ha.1.leveled F.first
      have hsecond := ha.2.leveled (F.second first)
      have hleft := hlen ▸ hl.leveled G
      have hright := hlen ▸ hsame ▸ hr.leveled (G.beside left)
      have hmeet : ∀ x i j, left.At G x i → right.At (G.beside left) x j → x = G.source ∨ x = G.target :=
        fun x i j hx hx' => Frame.eq_of_has_intersect (has_of_at hx) (has_of_at hx')
      rcases hlevel F.fresh _ (.inl hfirst.target) with hmid | hmid
      · exact .inl (hfirst.mem_of_middle hsecond ha.1.one_le_diameter ha.2.one_le_diameter hleft hright
          hmeet hlevel hedge hmid)
      · exact .inr (hfirst.mem_of_middle hsecond ha.1.one_le_diameter ha.2.one_le_diameter hright hleft
          (fun x i j hx hx' => hmeet x j i hx' hx) (fun x i hx => (hlevel x i hx).symm)
          (fun e he => (hedge e he).symm) hmid)
  | intersect _ _ => exact hstep.elim

/-- A step that is sent into a uniform query of its length is sent into one of the branches. -/
theorem exists_branch (hstep : a.IsStep) (ha : a.Uniform) (hq : q.Uniform) (hlen : a.diameter = q.diameter)
    (hf : a.Sends F q G f) : ∃ b ∈ q.branches, ∃ f, a.Sends .standard b .standard f := by
  induction q generalizing G with
  | identity => exact hq.elim
  | label l =>
      exact ⟨_, List.mem_singleton_self _, _,
        ((Frame.sends_shift a .standard F).comp hf).comp (Frame.sends_shift _ G .standard)⟩
  | concat first second _ _ =>
      exact ⟨_, List.mem_singleton_self _, _,
        ((Frame.sends_shift a .standard F).comp hf).comp (Frame.sends_shift _ G .standard)⟩
  | intersect left right ihl ihr =>
      have hsides := hf.intersect_cases hstep ha hq hlen
      obtain ⟨hl, hr, hsame⟩ := hq
      rw [diameter, ← hsame, Nat.max_self] at hlen
      rcases hsides with hf | hf
      · obtain ⟨b, hb, hsends⟩ := ihl hl hlen hf
        exact ⟨b, List.mem_append_left _ hb, hsends⟩
      · obtain ⟨b, hb, hsends⟩ := ihr hr (hlen.trans hsame) hf
        exact ⟨b, List.mem_append_right _ hb, hsends⟩

/-- What sends all branches of a query into another one sends the query there. -/
theorem Sends.of_branches {c d : Query} (hq : q.Uniform) (hf : q.Sends F c G f) (hends : G.source = H.source)
    (hends' : G.target = H.target)
    (hbranch : ∀ b ∈ q.branches, ∀ F, b.Sends F c G f → b.Sends F d H f) : q.Sends F d H f := by
  induction q generalizing F with
  | identity => exact hq.elim
  | label l => exact hbranch _ (List.mem_singleton_self _) F hf
  | concat first second _ _ => exact hbranch _ (List.mem_singleton_self _) F hf
  | intersect left right ihl ihr =>
      have hleft := ihl (F := F) hq.1 ⟨hf.source, hf.target, fun e he => hf.edge e (List.mem_append_left _ he)⟩
        fun b hb => hbranch b (List.mem_append_left _ hb)
      have hright := ihr (F := F.beside left) hq.2.1
        ⟨hf.source, hf.target, fun e he => hf.edge e (List.mem_append_right _ he)⟩
        fun b hb => hbranch b (List.mem_append_right _ hb)
      refine ⟨hf.source.trans hends, hf.target.trans hends', fun e he => ?_⟩
      rcases List.mem_append.1 he with he | he
      · exact hleft.edge e he
      · exact hright.edge e he

/-- A uniform query is steady if its branches are and none of them can be sent into another one. -/
theorem steady_of_branches (hq : q.Uniform) (hsteady : ∀ b ∈ q.branches, b.Steady .standard)
    (hapart : q.branches.Pairwise fun a b => (¬ ∃ f, a.Sends .standard b .standard f) ∧
      ¬ ∃ f, b.Sends .standard a .standard f) (F : Frame) : q.Steady F := by
  induction q generalizing F with
  | identity => exact hq.elim
  | label l => exact (hsteady _ (List.mem_singleton_self _)).shift hq F
  | concat first second _ _ => exact (hsteady _ (List.mem_singleton_self _)).shift hq F
  | intersect left right ihl ihr =>
      obtain ⟨hleft, hright, hcross⟩ := List.pairwise_append.1 hapart
      obtain ⟨hl, hr, hsame⟩ := id hq
      have hdiameter : (intersect left right).diameter = left.diameter := by
        rw [diameter, ← hsame, Nat.max_self]
      intro f hf x hx
      have hfleft : left.Sends F left F f := by
        refine Sends.of_branches hl ⟨hf.source, hf.target, fun e he => hf.edge e (List.mem_append_left _ he)⟩
          rfl rfl fun a ha F' hfa => ?_
        obtain ⟨hau, hstep, hlen⟩ := hl.of_mem_branches ha
        refine (hfa.intersect_cases hstep hau hq (hlen.trans hdiameter.symm)).resolve_right fun hother => ?_
        obtain ⟨b, hb, hsends⟩ := exists_branch hstep hau hr (hlen.trans hsame) hother
        exact (hcross a ha b hb).1 hsends
      have hfright : right.Sends (F.beside left) right (F.beside left) f := by
        refine Sends.of_branches hr ⟨hf.source, hf.target, fun e he => hf.edge e (List.mem_append_right _ he)⟩
          rfl rfl fun b hb F' hfb => ?_
        obtain ⟨hbu, hstep, hlen⟩ := hr.of_mem_branches hb
        refine (hfb.intersect_cases hstep hbu hq
          (hlen.trans (hsame.symm.trans hdiameter.symm))).resolve_left fun hother => ?_
        obtain ⟨a, ha, hsends⟩ := exists_branch hstep hbu hl (hlen.trans hsame.symm) hother
        exact (hcross a ha b hb).2 hsends
      rcases Frame.has_intersect.1 hx with hx | hx
      · obtain ⟨y, hy, heq⟩ := ihl hl (fun b hb => hsteady b (List.mem_append_left _ hb)) hleft F f hfleft x hx
        exact ⟨y, Frame.has_intersect.2 (.inl hy), heq⟩
      · obtain ⟨y, hy, heq⟩ := ihr hr (fun b hb => hsteady b (List.mem_append_right _ hb)) hright
          (F.beside left) f hfright x hx
        exact ⟨y, Frame.has_intersect.2 (.inr hy), heq⟩

end Query

/-! ### Patterns of uniform queries -/

namespace Pattern

open Query

variable {a b q first second : Query} {f : Nat → Nat} {x v : Nat}

theorem equalities_eq_nil_of_uniform (hq : q.Uniform) (s t n : Nat) : (q.outline s t n).equalities = [] := by
  induction q generalizing s t n with
  | identity => exact hq.elim
  | label l => rfl
  | concat first second ihf ihs =>
      rw [outline, ihf hq.1, ihs hq.2]
      rfl
  | intersect left right ihl ihr =>
      rw [outline, ihl hq.1, ihr hq.2.1]
      rfl

/-- The points of the pattern of a uniform query, before they are numbered. -/
def pointsOf (q : Query) : List Nat := 0 :: 1 :: List.range (q.drawn .standard).fresh

theorem mem_pointsOf : x ∈ pointsOf q ↔ Frame.standard.Has q x := by
  change x ∈ 0 :: 1 :: List.range (q.drawn .standard).fresh ↔ x = 0 ∨ x = 1 ∨ 2 ≤ x ∧ _
  rw [List.mem_cons, List.mem_cons, List.mem_range]
  omega

/-- Without the identity no points are equal. -/
theorem ofQuery_of_uniform (hq : q.Uniform) :
    ofQuery q = numbered (pointsOf q) 0 1 (q.drawn .standard).edges := by
  have hrepresent : represent q = id :=
    funext (represent_of_equalities_eq_nil (equalities_eq_nil_of_uniform hq 0 1 2))
  rw [ofQuery_eq, representatives, hrepresent, List.map_id]
  exact congrArg _ (List.map_id _)

theorem source_ofQuery_of_uniform (hq : q.Uniform) : pointOf (pointsOf q) (ofQuery q).source = 0 := by
  rw [ofQuery_of_uniform hq]
  exact pointOf_numberOf (List.mem_cons_self ..)

theorem target_ofQuery_of_uniform (hq : q.Uniform) : pointOf (pointsOf q) (ofQuery q).target = 1 := by
  rw [ofQuery_of_uniform hq]
  exact pointOf_numberOf (List.mem_cons_of_mem _ (List.mem_cons_self ..))

/-- The ends of the edges of the outline of a uniform query are points. -/
theorem ends_mem_pointsOf (hq : q.Uniform) : ∀ e ∈ (q.drawn .standard).edges,
    e.source ∈ pointsOf q ∧ e.target ∈ pointsOf q := by
  intro e he
  have hlevels := hq.leveled .standard
  obtain ⟨i, hi⟩ := hlevels.exists_level he (.inl ⟨rfl, rfl⟩)
  obtain ⟨j, hj⟩ := hlevels.exists_level he (.inr ⟨rfl, rfl⟩)
  exact ⟨mem_pointsOf.2 (has_of_at hi), mem_pointsOf.2 (has_of_at hj)⟩

/-- A map of outlines is a map of patterns, up to the numbers of the points. -/
theorem homomorphism_of_sends (ha : a.Uniform) (hb : b.Uniform) (h : a.Sends .standard b .standard f) :
    Homomorphism (ofQuery a) (ofQuery b) (numberOf (pointsOf b) ∘ f ∘ pointOf (pointsOf a)) := by
  rw [ofQuery_of_uniform ha, ofQuery_of_uniform hb]
  refine Homomorphism.out_of_numbered (f := numberOf (pointsOf b) ∘ f) (List.mem_cons_self ..)
    (List.mem_cons_of_mem _ (List.mem_cons_self ..)) (ends_mem_pointsOf ha)
    (congrArg (numberOf (pointsOf b)) h.source) (congrArg (numberOf (pointsOf b)) h.target)
    (fun e he => mem_edges_numbered.2 ⟨_, h.edge e he, rfl⟩) fun x hx => ?_
  exact numberOf_lt (mem_pointsOf.2 (h.has ha hb (mem_pointsOf.1 hx)))

/-- A map of patterns is a map of outlines, up to the numbers of the points. -/
theorem sends_of_homomorphism (ha : a.Uniform) (hb : b.Uniform) (h : Homomorphism (ofQuery a) (ofQuery b) f) :
    a.Sends .standard b .standard (pointOf (pointsOf b) ∘ f ∘ numberOf (pointsOf a)) where
  source := by
    have hsource := h.source
    rw [ofQuery_of_uniform ha] at hsource
    exact (congrArg (pointOf (pointsOf b)) hsource).trans (source_ofQuery_of_uniform hb)
  target := by
    have htarget := h.target
    rw [ofQuery_of_uniform ha] at htarget
    exact (congrArg (pointOf (pointsOf b)) htarget).trans (target_ofQuery_of_uniform hb)
  edge := by
    intro e he
    have hmem := h.edge (e.map (numberOf (pointsOf a))) <| by
      rw [ofQuery_of_uniform ha]
      exact mem_edges_numbered.2 ⟨e, he, rfl⟩
    rw [ofQuery_of_uniform hb] at hmem
    obtain ⟨d, hd, heq⟩ := mem_edges_numbered.1 hmem
    obtain ⟨hsource, htarget⟩ := ends_mem_pointsOf hb d hd
    have hback : (e.map (pointOf (pointsOf b) ∘ f ∘ numberOf (pointsOf a))) = d := by
      have hmap := congrArg (PatternEdge.map (pointOf (pointsOf b))) heq
      simp only [PatternEdge.map, pointOf_numberOf hsource, pointOf_numberOf htarget] at hmap
      exact hmap.symm
    exact hback ▸ hd

theorem exists_sends_iff (ha : a.Uniform) (hb : b.Uniform) :
    (∃ f, a.Sends .standard b .standard f) ↔ ∃ f, Homomorphism (ofQuery a) (ofQuery b) f := by
  constructor
  · rintro ⟨f, hf⟩
    exact ⟨_, homomorphism_of_sends ha hb hf⟩
  · rintro ⟨f, hf⟩
    exact ⟨_, sends_of_homomorphism ha hb hf⟩

/-- The pattern of a uniform query is rigid if and only if its outline is steady. -/
theorem rigid_ofQuery_iff (hq : q.Uniform) : (ofQuery q).Rigid ↔ q.Steady .standard := by
  constructor
  · intro h f hf x hx
    have hmem := mem_pointsOf.2 hx
    have hlt : numberOf (pointsOf q) x < (ofQuery q).vertexCount := by
      rw [ofQuery_of_uniform hq]
      exact numberOf_lt hmem
    obtain ⟨v, hv, heq⟩ := h _ (homomorphism_of_sends hq hq hf) _ hlt
    rw [ofQuery_of_uniform hq] at hv
    have hpoint := mem_pointsOf.1 (pointOf_mem hv)
    have hback := congrArg (pointOf (pointsOf q)) heq
    rw [pointOf_numberOf hmem] at hback
    exact ⟨_, hpoint, (pointOf_numberOf (mem_pointsOf.2 (hf.has hq hq hpoint))).symm.trans hback⟩
  · intro h f hf x hx
    have hsends := sends_of_homomorphism hq hq hf
    rw [ofQuery_of_uniform hq] at hx
    obtain ⟨y, hy, heq⟩ := h _ hsends _ (mem_pointsOf.1 (pointOf_mem hx))
    have hlt : numberOf (pointsOf q) y < (ofQuery q).vertexCount := by
      rw [ofQuery_of_uniform hq]
      exact numberOf_lt (mem_pointsOf.2 hy)
    have hfy := hf.inRange _ hlt
    rw [ofQuery_of_uniform hq] at hfy
    have hback := congrArg (numberOf (pointsOf q)) heq
    rw [numberOf_pointOf hx] at hback
    exact ⟨_, hlt, (numberOf_pointOf hfy).symm.trans hback⟩

/-- A uniform concatenation is rigid if its parts are. -/
theorem rigid_concat (hq : (concat first second).Uniform) (hfirst : (ofQuery first).Rigid)
    (hsecond : (ofQuery second).Rigid) : (ofQuery (concat first second)).Rigid :=
  (rigid_ofQuery_iff hq).2 (.concat hq (((rigid_ofQuery_iff hq.1).1 hfirst).shift hq.1 _)
    (((rigid_ofQuery_iff hq.2).1 hsecond).shift hq.2 _))

/-- A uniform intersection of rigid steps is rigid if none of them maps into another one. -/
theorem rigid_of_branches (hq : q.Uniform) (hrigid : ∀ b ∈ q.branches, (ofQuery b).Rigid)
    (hapart : q.branches.Pairwise fun a b => (¬ ∃ f, Homomorphism (ofQuery a) (ofQuery b) f) ∧
      ¬ ∃ f, Homomorphism (ofQuery b) (ofQuery a) f) : (ofQuery q).Rigid := by
  refine (rigid_ofQuery_iff hq).2 (steady_of_branches hq (fun b hb => ?_) ?_ _)
  · exact (rigid_ofQuery_iff (hq.of_mem_branches hb).1).1 (hrigid b hb)
  · refine hapart.imp_of_mem fun {a b} ha hb hnone => ?_
    have hau := (hq.of_mem_branches ha).1
    have hbu := (hq.of_mem_branches hb).1
    exact ⟨mt (exists_sends_iff hau hbu).1 hnone.1, mt (exists_sends_iff hbu hau).1 hnone.2⟩

end Pattern

end PathQueryIndex
