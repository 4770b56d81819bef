/-
Module: PathQueryIndex.Proofs.Pattern.Outline
Layer: Proofs
Purpose: The outline of a query means the query. A map of the points of an outline to vertices fits if it
  sends edges to edges and equal points to one vertex. Along the query, a fitting map shows that the query
  holds between the vertices of source and target, and if the query holds there, the vertices that it
  passes extend to a fitting map. No point stands alone: up to equal points, each is the source, the
  target, or the end of an edge.
Imports: PathQueryIndex.Query.Answer, PathQueryIndex.Pattern
Main exports: Outline.Fits, Query.lt_fresh_of_mem, Query.holds_of_fits, Query.exists_fits,
  Outline.Touches, Query.touches_of_lt_fresh
-/
import PathQueryIndex.Query.Answer
import PathQueryIndex.Pattern

namespace PathQueryIndex

variable {g : Graph} {q first second left right : Query} {s t n : Nat} {u v : Vertex} {l : Label}
  {f f' : Nat → Vertex}

/-- A query holds between vertices of the graph only. -/
theorem Query.lt_vertexCount_of_holds (h : q.Holds g u v) : u < g.vertexCount ∧ v < g.vertexCount := by
  induction q generalizing u v with
  | identity =>
      obtain ⟨rfl, hu⟩ := h
      exact ⟨hu, hu⟩
  | label l =>
      obtain ⟨id, inverse⟩ := l
      cases inverse with
      | false => exact (g.inBounds _ h).1
      | true => exact (g.inBounds _ h).1.symm
  | concat first second ihf ihs =>
      obtain ⟨w, hfirst, hsecond⟩ := h
      exact ⟨(ihf hfirst).1, (ihs hsecond).2⟩
  | intersect left right ihl _ => exact ihl h.1

/-! ### Maps that fit an outline -/

/-- A map of points fits if it sends edges to edges, and points that are equal to one vertex. -/
structure Outline.Fits (o : Outline) (g : Graph) (f : Nat → Vertex) : Prop where
  edge : ∀ e ∈ o.edges, (⟨f e.source, f e.target, e.label⟩ : Edge) ∈ g.edges
  equal : ∀ x ∈ o.equalities, f x.1 = f x.2

namespace Query

theorem fits_identity : (identity.outline s t n).Fits g f ↔ f s = f t := by
  constructor
  · intro h
    exact h.equal (s, t) (List.mem_cons_self ..)
  · intro h
    refine ⟨fun e he => (nomatch he), fun x hx => ?_⟩
    rw [List.mem_singleton.1 hx]
    exact h

theorem edge_ofLabel : (⟨f (PatternEdge.ofLabel l s t).source, f (PatternEdge.ofLabel l s t).target,
    (PatternEdge.ofLabel l s t).label⟩ : Edge) ∈ g.edges ↔ g.Step l (f s) (f t) := by
  obtain ⟨id, inverse⟩ := l
  cases inverse with
  | false => exact Iff.rfl
  | true => exact Iff.rfl

theorem fits_label : ((label l).outline s t n).Fits g f ↔ g.Step l (f s) (f t) := by
  constructor
  · intro h
    exact edge_ofLabel.1 (h.edge _ (List.mem_cons_self ..))
  · intro h
    refine ⟨fun e he => ?_, fun x hx => (nomatch hx)⟩
    rw [List.mem_singleton.1 he]
    exact edge_ofLabel.2 h

theorem fits_append {a b : Outline} {fresh : Nat} :
    (⟨fresh, a.edges ++ b.edges, a.equalities ++ b.equalities⟩ : Outline).Fits g f ↔
      a.Fits g f ∧ b.Fits g f := by
  constructor
  · intro h
    exact ⟨⟨fun e he => h.edge e (List.mem_append_left _ he),
      fun x hx => h.equal x (List.mem_append_left _ hx)⟩,
      ⟨fun e he => h.edge e (List.mem_append_right _ he),
        fun x hx => h.equal x (List.mem_append_right _ hx)⟩⟩
  · intro h
    refine ⟨fun e he => ?_, fun x hx => ?_⟩
    · rcases List.mem_append.1 he with he | he
      · exact h.1.edge e he
      · exact h.2.edge e he
    · rcases List.mem_append.1 hx with hx | hx
      · exact h.1.equal x hx
      · exact h.2.equal x hx

theorem fits_concat : ((concat first second).outline s t n).Fits g f ↔
    (first.outline s n (n + 1)).Fits g f ∧
      (second.outline n t (first.outline s n (n + 1)).fresh).Fits g f :=
  fits_append

theorem fits_intersect : ((intersect left right).outline s t n).Fits g f ↔
    (left.outline s t n).Fits g f ∧ (right.outline s t (left.outline s t n).fresh).Fits g f :=
  fits_append

/-- Numbers in use stay in use. -/
theorem le_fresh (q : Query) (s t n : Nat) : n ≤ (q.outline s t n).fresh := by
  induction q generalizing s t n with
  | identity => exact Nat.le_refl n
  | label l => exact Nat.le_refl n
  | concat first second ihf ihs =>
      calc
        n ≤ n + 1 := Nat.le_succ n
        _ ≤ (first.outline s n (n + 1)).fresh := ihf s n (n + 1)
        _ ≤ _ := ihs n t _
  | intersect left right ihl ihr => exact Nat.le_trans (ihl s t n) (ihr s t _)

/-- The points of an outline are those in use. -/
theorem lt_fresh_of_mem (hs : s < n) (ht : t < n) :
    (∀ e ∈ (q.outline s t n).edges,
      e.source < (q.outline s t n).fresh ∧ e.target < (q.outline s t n).fresh) ∧
    ∀ x ∈ (q.outline s t n).equalities,
      x.1 < (q.outline s t n).fresh ∧ x.2 < (q.outline s t n).fresh := by
  -- both operators put the points of the first part below the fresh number of the second
  have happend : ∀ {a b : Outline}, a.fresh ≤ b.fresh →
      ((∀ e ∈ a.edges, e.source < a.fresh ∧ e.target < a.fresh) ∧
        ∀ x ∈ a.equalities, x.1 < a.fresh ∧ x.2 < a.fresh) →
      ((∀ e ∈ b.edges, e.source < b.fresh ∧ e.target < b.fresh) ∧
        ∀ x ∈ b.equalities, x.1 < b.fresh ∧ x.2 < b.fresh) →
      (∀ e ∈ a.edges ++ b.edges, e.source < b.fresh ∧ e.target < b.fresh) ∧
        ∀ x ∈ a.equalities ++ b.equalities, x.1 < b.fresh ∧ x.2 < b.fresh := by
    intro a b hle ha hb
    constructor
    · intro e he
      rcases List.mem_append.1 he with he | he
      · exact (ha.1 e he).imp (Nat.lt_of_lt_of_le · hle) (Nat.lt_of_lt_of_le · hle)
      · exact hb.1 e he
    · intro x hx
      rcases List.mem_append.1 hx with hx | hx
      · exact (ha.2 x hx).imp (Nat.lt_of_lt_of_le · hle) (Nat.lt_of_lt_of_le · hle)
      · exact hb.2 x hx
  induction q generalizing s t n with
  | identity =>
      refine ⟨fun e he => (nomatch he), fun x hx => ?_⟩
      rw [List.mem_singleton.1 hx]
      exact ⟨hs, ht⟩
  | label l =>
      refine ⟨fun e he => ?_, fun x hx => (nomatch hx)⟩
      rw [List.mem_singleton.1 he]
      obtain ⟨id, inverse⟩ := l
      cases inverse with
      | false => exact ⟨hs, ht⟩
      | true => exact ⟨ht, hs⟩
  | concat first second ihf ihs =>
      have hn := le_fresh first s n (n + 1)
      exact happend (le_fresh second n t _) (ihf (Nat.lt_succ_of_lt hs) (Nat.lt_succ_self n))
        (ihs hn (Nat.lt_trans ht hn))
  | intersect left right ihl ihr =>
      have hn := le_fresh left s t n
      exact happend (le_fresh right s t _) (ihl hs ht)
        (ihr (Nat.lt_of_lt_of_le hs hn) (Nat.lt_of_lt_of_le ht hn))

/-- Whether a map fits depends on the points in use only. -/
theorem fits_congr (hs : s < n) (ht : t < n) (hf : ∀ x < (q.outline s t n).fresh, f' x = f x)
    (h : (q.outline s t n).Fits g f) : (q.outline s t n).Fits g f' := by
  obtain ⟨hedges, hequal⟩ := lt_fresh_of_mem (q := q) hs ht
  constructor
  · intro e he
    rw [hf _ (hedges e he).1, hf _ (hedges e he).2]
    exact h.edge e he
  · intro x hx
    rw [hf _ (hequal x hx).1, hf _ (hequal x hx).2]
    exact h.equal x hx

/-- A fitting map shows that the query holds. -/
theorem holds_of_fits (hs : s < n) (ht : t < n) (h : (q.outline s t n).Fits g f)
    (hrange : ∀ x < (q.outline s t n).fresh, f x < g.vertexCount) : q.Holds g (f s) (f t) := by
  induction q generalizing s t n with
  | identity => exact ⟨fits_identity.1 h, hrange s hs⟩
  | label l => exact fits_label.1 h
  | concat first second ihf ihs =>
      obtain ⟨hfirst, hsecond⟩ := fits_concat.1 h
      have hn := le_fresh first s n (n + 1)
      have hle := le_fresh second n t (first.outline s n (n + 1)).fresh
      refine ⟨f n, ihf (Nat.lt_succ_of_lt hs) (Nat.lt_succ_self n) hfirst fun x hx => ?_,
        ihs hn (Nat.lt_trans ht hn) hsecond hrange⟩
      exact hrange x (Nat.lt_of_lt_of_le hx hle)
  | intersect left right ihl ihr =>
      obtain ⟨hleft, hright⟩ := fits_intersect.1 h
      have hn := le_fresh left s t n
      have hle := le_fresh right s t (left.outline s t n).fresh
      refine ⟨ihl hs ht hleft fun x hx => ?_,
        ihr (Nat.lt_of_lt_of_le hs hn) (Nat.lt_of_lt_of_le ht hn) hright hrange⟩
      exact hrange x (Nat.lt_of_lt_of_le hx hle)

/-- If the query holds, the fresh points of its outline have vertices such that the map fits. -/
theorem exists_fits (hs : s < n) (ht : t < n) (h : q.Holds g (f s) (f t)) :
    ∃ f', (∀ x < n, f' x = f x) ∧
      (∀ x, n ≤ x → x < (q.outline s t n).fresh → f' x < g.vertexCount) ∧
      (q.outline s t n).Fits g f' := by
  induction q generalizing s t n f with
  | identity =>
      refine ⟨f, fun _ _ => rfl, fun x hx hlt => ?_, fits_identity.2 h.1⟩
      exact absurd hlt (Nat.not_lt.2 hx)
  | label l =>
      refine ⟨f, fun _ _ => rfl, fun x hx hlt => ?_, fits_label.2 h⟩
      exact absurd hlt (Nat.not_lt.2 hx)
  | concat first second ihf ihs =>
      obtain ⟨w, hfirst, hsecond⟩ := h
      have hn := le_fresh first s n (n + 1)
      -- the middle point is the first fresh one
      let f₁ : Nat → Vertex := fun x => if x = n then w else f x
      have hmid : f₁ n = w := if_pos rfl
      have hold : ∀ x < n, f₁ x = f x := fun x hx => if_neg (Nat.ne_of_lt hx)
      rw [← hold s hs, ← hmid] at hfirst
      obtain ⟨f₂, hkeep₂, hrange₂, hfits₂⟩ :=
        ihf (Nat.lt_succ_of_lt hs) (Nat.lt_succ_self n) hfirst
      rw [← hmid, ← hold t ht, ← hkeep₂ n (Nat.lt_succ_self n), ← hkeep₂ t (Nat.lt_succ_of_lt ht)]
        at hsecond
      obtain ⟨f₃, hkeep₃, hrange₃, hfits₃⟩ := ihs hn (Nat.lt_trans ht hn) hsecond
      refine ⟨f₃, fun x hx => ?_, fun x hx hlt => ?_, fits_concat.2 ⟨?_, hfits₃⟩⟩
      · rw [hkeep₃ x (Nat.lt_trans hx hn), hkeep₂ x (Nat.lt_succ_of_lt hx), hold x hx]
      · rcases Nat.lt_or_ge x (first.outline s n (n + 1)).fresh with hx₂ | hx₂
        · rw [hkeep₃ x hx₂]
          rcases Nat.eq_or_lt_of_le hx with rfl | hx
          · exact (lt_vertexCount_of_holds hsecond).1
          · exact hrange₂ x hx hx₂
        · exact hrange₃ x hx₂ hlt
      · exact fits_congr (Nat.lt_succ_of_lt hs) (Nat.lt_succ_self n) hkeep₃ hfits₂
  | intersect left right ihl ihr =>
      obtain ⟨hleft, hright⟩ := h
      have hn := le_fresh left s t n
      obtain ⟨f₂, hkeep₂, hrange₂, hfits₂⟩ := ihl hs ht hleft
      rw [← hkeep₂ s hs, ← hkeep₂ t ht] at hright
      obtain ⟨f₃, hkeep₃, hrange₃, hfits₃⟩ :=
        ihr (Nat.lt_of_lt_of_le hs hn) (Nat.lt_of_lt_of_le ht hn) hright
      refine ⟨f₃, fun x hx => ?_, fun x hx hlt => ?_, fits_intersect.2 ⟨?_, hfits₃⟩⟩
      · rw [hkeep₃ x (Nat.lt_of_lt_of_le hx hn), hkeep₂ x hx]
      · rcases Nat.lt_or_ge x (left.outline s t n).fresh with hx₂ | hx₂
        · rw [hkeep₃ x hx₂]
          exact hrange₂ x hx hx₂
        · exact hrange₃ x hx₂ hlt
      · exact fits_congr hs ht hkeep₃ hfits₂

end Query

/-! ### Points and edges -/

/-- Some edge ends at a point, up to points with the same representative. -/
def Outline.Touches (o : Outline) (rep : Nat → Nat) (x : Nat) : Prop :=
  ∃ e ∈ o.edges, rep x = rep e.source ∨ rep x = rep e.target

namespace Outline.Touches

variable {o a b : Outline} {rep : Nat → Nat} {x y fresh : Nat} {equalities : List (Nat × Nat)}

theorem of_eq (h : o.Touches rep x) (hxy : rep y = rep x) : o.Touches rep y := by
  obtain ⟨e, he, hx⟩ := h
  rw [← hxy] at hx
  exact ⟨e, he, hx⟩

theorem append_left (h : a.Touches rep x) :
    (⟨fresh, a.edges ++ b.edges, equalities⟩ : Outline).Touches rep x := by
  obtain ⟨e, he, hx⟩ := h
  exact ⟨e, List.mem_append_left _ he, hx⟩

theorem append_right (h : b.Touches rep x) :
    (⟨fresh, a.edges ++ b.edges, equalities⟩ : Outline).Touches rep x := by
  obtain ⟨e, he, hx⟩ := h
  exact ⟨e, List.mem_append_right _ he, hx⟩

end Outline.Touches

namespace Query

variable {rep : Nat → Nat} {o : Outline} {x y : Nat}

/-- What represents a point, or the edge that ends there, serves every point with its representative. -/
theorem ends_or_touches_of_eq (heq : rep x = rep y)
    (hy : rep y = rep s ∨ rep y = rep t ∨ o.Touches rep y) :
    rep x = rep s ∨ rep x = rep t ∨ o.Touches rep x := by
  rcases hy with hs | ht | htouch
  · exact .inl (heq.trans hs)
  · exact .inr (.inl (heq.trans ht))
  · exact .inr (.inr (htouch.of_eq heq))

/-- If equal points have the same representative, source and target have the same one or both are ends of
    edges, and every fresh point is represented by source or target or is the end of an edge. -/
theorem touches_of_lt_fresh (h : ∀ x ∈ (q.outline s t n).equalities, rep x.1 = rep x.2) :
    (rep s = rep t ∨ (q.outline s t n).Touches rep s ∧ (q.outline s t n).Touches rep t) ∧
    ∀ x, n ≤ x → x < (q.outline s t n).fresh →
      rep x = rep s ∨ rep x = rep t ∨ (q.outline s t n).Touches rep x := by
  induction q generalizing s t n with
  | identity =>
      refine ⟨.inl (h (s, t) (List.mem_cons_self ..)), fun x hx hlt => ?_⟩
      exact absurd hlt (Nat.not_lt.2 hx)
  | label l =>
      refine ⟨.inr ⟨⟨_, List.mem_cons_self .., ?_⟩, ⟨_, List.mem_cons_self .., ?_⟩⟩,
        fun x hx hlt => absurd hlt (Nat.not_lt.2 hx)⟩
      · obtain ⟨id, inverse⟩ := l
        cases inverse with
        | false => exact .inl rfl
        | true => exact .inr rfl
      · obtain ⟨id, inverse⟩ := l
        cases inverse with
        | false => exact .inr rfl
        | true => exact .inl rfl
  | concat first second ihf ihs =>
      obtain ⟨hends, hfresh⟩ := ihf fun x hx => h x (List.mem_append_left _ hx)
      obtain ⟨hends', hfresh'⟩ := ihs fun x hx => h x (List.mem_append_right _ hx)
      have hmid : rep n = rep s ∨ rep n = rep t ∨
          ((concat first second).outline s t n).Touches rep n := by
        rcases hends with heq | ⟨_, hn⟩
        · exact .inl heq.symm
        · exact .inr (.inr hn.append_left)
      constructor
      · rcases hends with heq | ⟨hs, hn⟩
        · rcases hends' with heq' | ⟨hn', ht'⟩
          · exact .inl (heq.trans heq')
          · exact .inr ⟨(hn'.of_eq heq).append_right, ht'.append_right⟩
        · rcases hends' with heq' | ⟨_, ht'⟩
          · exact .inr ⟨hs.append_left, (hn.of_eq heq'.symm).append_left⟩
          · exact .inr ⟨hs.append_left, ht'.append_right⟩
      · intro x hx hlt
        rcases Nat.eq_or_lt_of_le hx with rfl | hx
        · exact hmid
        · rcases Nat.lt_or_ge x (first.outline s n (n + 1)).fresh with hx₁ | hx₁
          · rcases hfresh x hx hx₁ with heq | heq | htouch
            · exact .inl heq
            · exact ends_or_touches_of_eq heq hmid
            · exact .inr (.inr htouch.append_left)
          · rcases hfresh' x hx₁ hlt with heq | heq | htouch
            · exact ends_or_touches_of_eq heq hmid
            · exact .inr (.inl heq)
            · exact .inr (.inr htouch.append_right)
  | intersect left right ihl ihr =>
      obtain ⟨hends, hfresh⟩ := ihl fun x hx => h x (List.mem_append_left _ hx)
      obtain ⟨_, hfresh'⟩ := ihr fun x hx => h x (List.mem_append_right _ hx)
      constructor
      · rcases hends with heq | ⟨hs, ht⟩
        · exact .inl heq
        · exact .inr ⟨hs.append_left, ht.append_left⟩
      · intro x hx hlt
        rcases Nat.lt_or_ge x (left.outline s t n).fresh with hx₁ | hx₁
        · rcases hfresh x hx hx₁ with heq | heq | htouch
          · exact .inl heq
          · exact .inr (.inl heq)
          · exact .inr (.inr htouch.append_left)
        · rcases hfresh' x hx₁ hlt with heq | heq | htouch
          · exact .inl heq
          · exact .inr (.inl heq)
          · exact .inr (.inr htouch.append_right)

end Query

end PathQueryIndex
