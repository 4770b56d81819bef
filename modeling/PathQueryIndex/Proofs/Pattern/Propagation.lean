/-
Module: PathQueryIndex.Proofs.Pattern.Propagation
Layer: Proofs
Purpose: Dropping images without support loses no homomorphism. Domains admit a map if they have the image
  of every point. A revision of an edge keeps what they admit, so propagation succeeds wherever a
  homomorphism is admitted; and where it stops, every image of one end of an edge is supported by an
  image of the other end.
Imports: PathQueryIndex.Pattern.Homomorphism
Main exports: Domains.Admits, Domains.Within, Domains.Filled, Matching.Supports,
  Matching.exists_propagate, Matching.within_of_propagate, Matching.supports_of_propagate
-/
import PathQueryIndex.Pattern.Homomorphism

namespace PathQueryIndex

/-! ### Domains -/

namespace Domains

variable {d next : Domains} {f : Nat → Nat} {u v : Nat} {images : List Nat}

/-- The image of every point is one of its choices. -/
def Admits (d : Domains) (f : Nat → Nat) : Prop := ∀ v < d.size, f v ∈ d.choices v

/-- The same points, each with some of its choices. -/
structure Within (next d : Domains) : Prop where
  size_eq : next.size = d.size
  mem : ∀ v, ∀ w ∈ next.choices v, w ∈ d.choices v

/-- Every point has a choice. -/
def Filled (d : Domains) : Prop := ∀ v < d.size, d.choices v ≠ []

theorem Within.refl (d : Domains) : Within d d := ⟨rfl, fun _ _ h => h⟩

theorem Within.trans {c : Domains} (h : Within c next) (h' : Within next d) : Within c d :=
  ⟨h.size_eq.trans h'.size_eq, fun v w hw => h'.mem v w (h.mem v w hw)⟩

theorem Admits.filled (h : d.Admits f) : d.Filled := fun v hv => List.ne_nil_of_mem (h v hv)

theorem lt_size_of_mem (h : u ∈ d.choices v) : v < d.size := by
  apply Nat.lt_of_not_le
  intro hle
  rw [choices, Array.getD_eq_getD_getElem?, Array.getElem?_eq_none hle] at h
  cases h

theorem size_assign : (d.assign v images).size = d.size := Array.size_setIfInBounds

theorem choices_assign_self (hv : v < d.size) : (d.assign v images).choices v = images := by
  rw [choices, assign, Array.getD_eq_getD_getElem?, Array.getElem?_setIfInBounds, if_pos rfl,
    if_pos hv]
  rfl

theorem choices_assign_ne (h : u ≠ v) : (d.assign v images).choices u = d.choices u := by
  rw [choices, choices, assign, Array.getD_eq_getD_getElem?, Array.getD_eq_getD_getElem?,
    Array.getElem?_setIfInBounds, if_neg h.symm]

theorem within_assign (h : ∀ w ∈ images, w ∈ d.choices v) : Within (d.assign v images) d := by
  refine ⟨size_assign, fun u w hw => ?_⟩
  by_cases huv : u = v
  · subst huv
    have hlt := lt_size_of_mem hw
    rw [size_assign] at hlt
    rw [choices_assign_self hlt] at hw
    exact h w hw
  · rw [choices_assign_ne huv] at hw
    exact hw

theorem Admits.assign (h : d.Admits f) (hv : f v ∈ images) : (d.assign v images).Admits f := by
  intro u hu
  rw [size_assign] at hu
  by_cases huv : u = v
  · subst huv
    rw [choices_assign_self hu]
    exact hv
  · rw [choices_assign_ne huv]
    exact h u hu

theorem Filled.assign (h : d.Filled) (himages : images ≠ []) : (d.assign v images).Filled := by
  intro u hu
  rw [size_assign] at hu
  by_cases huv : u = v
  · subst huv
    rw [choices_assign_self hu]
    exact himages
  · rw [choices_assign_ne huv]
    exact h u hu

end Domains

/-! ### Links -/

section Links

variable {p : Pattern} {v x : Nat} {l : UInt32} {links : Links} {other images : List Nat}

theorem getD_toArray_map_range {β : Type} (f : Nat → List β) (n : Nat) :
    ((List.range n).map f).toArray.getD v [] = if v < n then f v else [] := by
  rw [Array.getD_eq_getD_getElem?, List.getElem?_toArray, List.getElem?_map]
  by_cases hv : v < n
  · rw [List.getElem?_range hv, if_pos hv]
    rfl
  · rw [List.getElem?_eq_none (by rw [List.length_range]; exact Nat.le_of_not_lt hv), if_neg hv]
    rfl

theorem mem_outgoing : (l, x) ∈ p.outgoing.getD v [] ↔
    v < p.vertexCount ∧ (⟨v, x, l⟩ : PatternEdge) ∈ p.edges := by
  rw [Pattern.outgoing, getD_toArray_map_range]
  split
  · rename_i hv
    rw [List.mem_map]
    constructor
    · intro h
      obtain ⟨⟨s, t, l'⟩, hmem, heq⟩ := h
      obtain ⟨hedge, hs⟩ := List.mem_filter.1 hmem
      cases heq
      obtain rfl : s = v := beq_iff_eq.1 hs
      exact ⟨hv, hedge⟩
    · intro h
      exact ⟨_, List.mem_filter.2 ⟨h.2, beq_self_eq_true v⟩, rfl⟩
  · rename_i hv
    constructor
    · intro h
      cases h
    · intro h
      exact absurd h.1 hv

theorem mem_incoming : (l, x) ∈ p.incoming.getD v [] ↔
    v < p.vertexCount ∧ (⟨x, v, l⟩ : PatternEdge) ∈ p.edges := by
  rw [Pattern.incoming, getD_toArray_map_range]
  split
  · rename_i hv
    rw [List.mem_map]
    constructor
    · intro h
      obtain ⟨⟨s, t, l'⟩, hmem, heq⟩ := h
      obtain ⟨hedge, ht⟩ := List.mem_filter.1 hmem
      cases heq
      obtain rfl : t = v := beq_iff_eq.1 ht
      exact ⟨hv, hedge⟩
    · intro h
      exact ⟨_, List.mem_filter.2 ⟨h.2, beq_self_eq_true v⟩, rfl⟩
  · rename_i hv
    constructor
    · intro h
      cases h
    · intro h
      exact absurd h.1 hv

/-- The images with support are those with a link of the label to one of the other images. -/
theorem mem_supported {w : Nat} : w ∈ supported links l other images ↔
    w ∈ images ∧ ∃ y ∈ other, (l, y) ∈ links.getD w [] := by
  rw [supported, List.mem_filter, List.any_eq_true]
  constructor
  · intro h
    obtain ⟨hw, ⟨l', y⟩, hlink, hboth⟩ := h
    obtain ⟨hl, hy⟩ := Bool.and_eq_true_iff.1 hboth
    obtain rfl : l' = l := beq_iff_eq.1 hl
    exact ⟨hw, y, List.contains_iff_mem.1 hy, hlink⟩
  · intro h
    obtain ⟨hw, y, hy, hlink⟩ := h
    exact ⟨hw, (l, y), hlink, Bool.and_eq_true_iff.2 ⟨beq_self_eq_true l, List.contains_iff_mem.2 hy⟩⟩

end Links

/-! ### Revisions -/

namespace Matching

variable {p q : Pattern} {b : Bool} {d next : Domains} {f : Nat → Nat} {v : Nat}
  {images : List Nat} {e : PatternEdge}

/-- The images that an edge of a homomorphism has are supported by each other. -/
theorem mem_supported_outgoing {other : List Nat} (hf : Homomorphism p q f) (hp : ∀ e ∈ p.edges,
    e.source < p.vertexCount ∧ e.target < p.vertexCount) (he : e ∈ p.edges)
    (hother : f e.target ∈ other) (himages : f e.source ∈ images) :
    f e.source ∈ supported q.outgoing e.label other images :=
  mem_supported.2 ⟨himages, _, hother, mem_outgoing.2 ⟨hf.inRange _ (hp e he).1, hf.edge e he⟩⟩

theorem mem_supported_incoming {other : List Nat} (hf : Homomorphism p q f) (hp : ∀ e ∈ p.edges,
    e.source < p.vertexCount ∧ e.target < p.vertexCount) (he : e ∈ p.edges)
    (hother : f e.source ∈ other) (himages : f e.target ∈ images) :
    f e.target ∈ supported q.incoming e.label other images :=
  mem_supported.2 ⟨himages, _, hother, mem_incoming.2 ⟨hf.inRange _ (hp e he).2, hf.edge e he⟩⟩

theorem exists_restrict (h : d.Admits f) (himage : f v ∈ images) :
    ∃ next, restrict d v images = some next ∧ next.Admits f := by
  unfold restrict
  split
  · exact ⟨d, rfl, h⟩
  · rw [if_neg (fun hempty => List.ne_nil_of_mem himage (List.isEmpty_iff.1 hempty))]
    exact ⟨_, rfl, h.assign himage⟩

theorem within_of_restrict (hsub : ∀ w ∈ images, w ∈ d.choices v)
    (h : restrict d v images = some next) : next.Within d := by
  unfold restrict at h
  split at h
  · cases h
    exact .refl d
  · split at h
    · cases h
    · cases h
      exact Domains.within_assign hsub

theorem filled_of_restrict (hd : d.Filled) (h : restrict d v images = some next) : next.Filled := by
  unfold restrict at h
  split at h
  · cases h
    exact hd
  · split at h
    · cases h
    · rename_i hne
      cases h
      exact hd.assign fun hnil => hne (List.isEmpty_iff.2 hnil)

/-- A restriction drops an image, or there was none to drop. -/
theorem restrict_cases (hlen : images.length ≤ (d.choices v).length)
    (h : restrict d v images = some next) :
    next.total < d.total ∨ next = d ∧ images.length = (d.choices v).length := by
  unfold restrict at h
  split at h
  · rename_i heq
    cases h
    exact .inr ⟨rfl, heq⟩
  · rename_i hne
    split at h
    · cases h
    · cases h
      have hv : v < d.size := by
        have hpos : 0 < (d.choices v).length := by omega
        exact Domains.lt_size_of_mem (List.getElem_mem hpos)
      have htotal := @Domains.total_assign d v images hv
      exact .inl (by omega)

/-- Every image of an end of the edge is supported by an image of the other end. -/
structure Supports (m : Matching) (d : Domains) (e : PatternEdge) : Prop where
  source : ∀ w ∈ d.choices e.source, ∃ y ∈ d.choices e.target, (e.label, y) ∈ m.outOfTarget.getD w []
  target : ∀ w ∈ d.choices e.target, ∃ y ∈ d.choices e.source, (e.label, y) ∈ m.intoTarget.getD w []

/-- Restricting to supported images drops nothing only if all are supported. -/
theorem supported_of_length_eq {links : Links} {l : UInt32} {other : List Nat}
    (h : (supported links l other images).length = images.length) :
    ∀ w ∈ images, ∃ y ∈ other, (l, y) ∈ links.getD w [] := by
  intro w hw
  have hall : supported links l other images = images :=
    List.Sublist.eq_of_length List.filter_sublist h
  rw [← hall] at hw
  exact (mem_supported.1 hw).2

variable (m : Matching)

theorem within_of_revise (h : m.revise d e = some next) : next.Within d := by
  unfold revise at h
  split at h
  · cases h
    exact .refl d
  · simp only [Option.bind_eq_bind, Option.bind_eq_some_iff] at h
    obtain ⟨d₁, h₁, h₂⟩ := h
    have hfirst := within_of_restrict (fun w hw => (mem_supported.1 hw).1) h₁
    exact (within_of_restrict (fun w hw => (mem_supported.1 hw).1) h₂).trans hfirst

theorem filled_of_revise (hd : d.Filled) (h : m.revise d e = some next) : next.Filled := by
  unfold revise at h
  split at h
  · cases h
    exact hd
  · simp only [Option.bind_eq_bind, Option.bind_eq_some_iff] at h
    obtain ⟨d₁, h₁, h₂⟩ := h
    exact filled_of_restrict (filled_of_restrict hd h₁) h₂

/-- A revision drops an image, or all images were supported. -/
theorem revise_cases (h : m.revise d e = some next) :
    next.total < d.total ∨ next = d ∧ (e.source ≠ e.target → m.Supports d e) := by
  unfold revise at h
  split at h
  · rename_i heq
    cases h
    exact .inr ⟨rfl, fun hne => absurd heq hne⟩
  · simp only [Option.bind_eq_bind, Option.bind_eq_some_iff] at h
    obtain ⟨d₁, h₁, h₂⟩ := h
    rcases restrict_cases (length_supported_le ..) h₂ with hlt | ⟨rfl, hlen₂⟩
    · have hle := total_restrict_le (length_supported_le ..) h₁
      exact .inl (Nat.lt_of_lt_of_le hlt hle)
    · rcases restrict_cases (length_supported_le ..) h₁ with hlt | ⟨rfl, hlen₁⟩
      · exact .inl hlt
      · exact .inr ⟨rfl, fun _ => ⟨supported_of_length_eq hlen₁, supported_of_length_eq hlen₂⟩⟩

/-- What a revision keeps, revisions along many edges keep. -/
theorem foldlM_revise_keeps {motive : Domains → Prop} {edges : List PatternEdge}
    (step : ∀ d next, ∀ e ∈ edges, m.revise d e = some next → motive d → motive next)
    (h : edges.foldlM m.revise d = some next) (hd : motive d) : motive next := by
  induction edges generalizing d with
  | nil =>
      cases h
      exact hd
  | cons e edges ih =>
      simp only [List.foldlM_cons, Option.bind_eq_bind, Option.bind_eq_some_iff] at h
      obtain ⟨d₁, h₁, h₂⟩ := h
      exact ih (fun d next e he => step d next e (List.mem_cons_of_mem _ he)) h₂
        (step d d₁ e (List.mem_cons_self ..) h₁ hd)

theorem within_of_reviseAll (h : m.reviseAll d = some next) : next.Within d :=
  m.foldlM_revise_keeps (motive := fun c => c.Within d)
    (fun _ _ _ _ hstep hc => (m.within_of_revise hstep).trans hc) h (.refl d)

theorem filled_of_reviseAll (hd : d.Filled) (h : m.reviseAll d = some next) : next.Filled :=
  m.foldlM_revise_keeps (fun _ _ _ _ hstep hc => m.filled_of_revise hc hstep) h hd

/-- Revising along all edges drops an image, or all images were supported along all edges. -/
theorem reviseAll_cases (h : m.reviseAll d = some next) :
    next.total < d.total ∨
      next = d ∧ ∀ e ∈ m.source.edges, e.source ≠ e.target → m.Supports d e := by
  have hfold : ∀ (edges : List PatternEdge) (d : Domains), edges.foldlM m.revise d = some next →
      next.total < d.total ∨ next = d ∧ ∀ e ∈ edges, e.source ≠ e.target → m.Supports d e := by
    intro edges
    induction edges with
    | nil =>
        intro d h
        cases h
        exact .inr ⟨rfl, fun e he => (nomatch he)⟩
    | cons e edges ih =>
        intro d h
        simp only [List.foldlM_cons, Option.bind_eq_bind, Option.bind_eq_some_iff] at h
        obtain ⟨d₁, h₁, h₂⟩ := h
        rcases m.revise_cases h₁ with hlt | ⟨rfl, hsupports⟩
        · rcases ih d₁ h₂ with hlt' | ⟨rfl, _⟩
          · exact .inl (Nat.lt_trans hlt' hlt)
          · exact .inl hlt
        · rcases ih d₁ h₂ with hlt' | ⟨rfl, hrest⟩
          · exact .inl hlt'
          · refine .inr ⟨rfl, fun e' he' => ?_⟩
            rcases List.mem_cons.1 he' with rfl | he'
            · exact hsupports
            · exact hrest e' he'
  exact hfold m.source.edges.toList d h

/-! ### Propagation -/

theorem within_of_propagate (h : m.propagate d = some next) : next.Within d := by
  fun_induction propagate with
  | case1 => cases h
  | case2 d d₁ h₁ hlt ih => exact (ih h).trans (m.within_of_reviseAll h₁)
  | case3 d d₁ h₁ hlt =>
      cases h
      exact m.within_of_reviseAll h₁

theorem filled_of_propagate (hd : d.Filled) (h : m.propagate d = some next) : next.Filled := by
  fun_induction propagate with
  | case1 => cases h
  | case2 d d₁ h₁ hlt ih => exact ih (m.filled_of_reviseAll hd h₁) h
  | case3 d d₁ h₁ hlt =>
      cases h
      exact m.filled_of_reviseAll hd h₁

/-- Where propagation stops, all images are supported along all edges. -/
theorem supports_of_propagate (h : m.propagate d = some next) :
    ∀ e ∈ m.source.edges, e.source ≠ e.target → m.Supports next e := by
  fun_induction propagate with
  | case1 => cases h
  | case2 d d₁ h₁ hlt ih => exact ih h
  | case3 d d₁ h₁ hlt =>
      cases h
      rcases m.reviseAll_cases h₁ with hless | ⟨rfl, hsupports⟩
      · exact absurd hless hlt
      · exact hsupports

section Admitted

variable (hf : Homomorphism p q f)
  (hp : ∀ e ∈ p.edges, e.source < p.vertexCount ∧ e.target < p.vertexCount)

include hf hp

/-- A revision keeps every homomorphism. -/
theorem exists_revise (hd : d.Admits f) (hsize : d.size = p.vertexCount) (he : e ∈ p.edges) :
    ∃ next, (between p q b).revise d e = some next ∧ next.Admits f := by
  unfold revise
  split
  · exact ⟨d, rfl, hd⟩
  · obtain ⟨hs, ht⟩ := hp e he
    rw [← hsize] at hs ht
    obtain ⟨d₁, h₁, hd₁⟩ := exists_restrict hd
      (mem_supported_outgoing hf hp he (hd _ ht) (hd _ hs))
    have hsize₁ := (within_of_restrict (fun w hw => (mem_supported.1 hw).1) h₁).size_eq
    rw [← hsize₁] at hs ht
    obtain ⟨d₂, h₂, hd₂⟩ := exists_restrict hd₁
      (mem_supported_incoming hf hp he (hd₁ _ hs) (hd₁ _ ht))
    refine ⟨d₂, ?_, hd₂⟩
    rw [Option.bind_eq_bind, Option.bind_eq_some_iff]
    exact ⟨d₁, h₁, h₂⟩

theorem exists_reviseAll (hd : d.Admits f) (hsize : d.size = p.vertexCount) :
    ∃ next, (between p q b).reviseAll d = some next ∧ next.Admits f := by
  have hfold : ∀ (edges : List PatternEdge) (d : Domains), (∀ e ∈ edges, e ∈ p.edges) →
      d.Admits f → d.size = p.vertexCount →
      ∃ next, edges.foldlM (between p q b).revise d = some next ∧ next.Admits f := by
    intro edges
    induction edges with
    | nil =>
        intro d _ hd _
        exact ⟨d, rfl, hd⟩
    | cons e edges ih =>
        intro d hedges hd hsize
        obtain ⟨d₁, h₁, hd₁⟩ := exists_revise hf hp hd hsize (hedges e (List.mem_cons_self ..))
        have hsize₁ := ((between p q b).within_of_revise h₁).size_eq.trans hsize
        obtain ⟨d₂, h₂, hd₂⟩ := ih d₁ (fun e he => hedges e (List.mem_cons_of_mem _ he)) hd₁ hsize₁
        refine ⟨d₂, ?_, hd₂⟩
        rw [List.foldlM_cons, Option.bind_eq_bind, Option.bind_eq_some_iff]
        exact ⟨d₁, h₁, h₂⟩
  exact hfold p.edges.toList d (fun e he => he) hd hsize

/-- Propagation keeps every homomorphism. -/
theorem exists_propagate (hd : d.Admits f) (hsize : d.size = p.vertexCount) :
    ∃ next, (between p q b).propagate d = some next ∧ next.Admits f := by
  fun_induction propagate with
  | case1 d hnone =>
      obtain ⟨d₁, h₁, _⟩ := exists_reviseAll (b := b) hf hp hd hsize
      rw [hnone] at h₁
      cases h₁
  | case2 d d₁ h₁ hlt ih =>
      obtain ⟨d₂, h₂, hd₂⟩ := exists_reviseAll (b := b) hf hp hd hsize
      rw [h₁] at h₂
      cases h₂
      exact ih hd₂ (((between p q b).within_of_reviseAll h₁).size_eq.trans hsize)
  | case3 d d₁ h₁ hlt =>
      obtain ⟨d₂, h₂, hd₂⟩ := exists_reviseAll (b := b) hf hp hd hsize
      rw [h₁] at h₂
      cases h₂
      exact ⟨d₁, rfl, hd₂⟩

end Admitted

end Matching

end PathQueryIndex
