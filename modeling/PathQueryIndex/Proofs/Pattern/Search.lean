/-
Module: PathQueryIndex.Proofs.Pattern.Search
Layer: Proofs
Purpose: The search for a homomorphism finds one if and only if there is one. What a branch settles on is a
  homomorphism, because its domains have one supported image for every point; and a branch that admits a
  homomorphism is never given up, because the image of the branching point is among its choices. A
  pattern is folded if and only if some map to itself misses a point.
Imports: PathQueryIndex.Proofs.Pattern.Propagation, PathQueryIndex.Proofs.Pattern.Numbering
Main exports: Matching.homomorphism_of_search, Matching.exists_search, Matching.isSome_search_iff,
  Pattern.search_is_exact, Pattern.homomorphism_of_folding, Pattern.exists_folding
-/
import PathQueryIndex.Proofs.Pattern.Propagation
import PathQueryIndex.Proofs.Pattern.Numbering

namespace PathQueryIndex

/-! ### Domains with one choice for each point -/

namespace Domains

variable {d : Domains} {f : Nat → Nat} {v : Nat} {images : List Nat}

theorem length_le_one_of_foldl_prefer {vs : List Nat} {best : Option Nat}
    (h : vs.foldl d.prefer best = none) :
    best = none ∧ ∀ v ∈ vs, (d.choices v).length ≤ 1 := by
  induction vs generalizing best with
  | nil => exact ⟨h, fun v hv => nomatch hv⟩
  | cons v vs ih =>
      obtain ⟨hbest, hvs⟩ := ih h
      unfold prefer at hbest
      split at hbest
      · rename_i hlen
        refine ⟨hbest, fun w hw => ?_⟩
        rcases List.mem_cons.1 hw with rfl | hw
        · exact hlen
        · exact hvs w hw
      · split at hbest
        · cases hbest
        · split at hbest
          · cases hbest
          · cases hbest

/-- If no point is open, every point has one choice at most. -/
theorem length_le_one_of_open? (h : d.open? = none) (hv : v < d.size) :
    (d.choices v).length ≤ 1 :=
  (length_le_one_of_foldl_prefer h).2 v (List.mem_range.2 hv)

theorem getElem?_toList (hv : v < d.size) : d.toList[v]? = some (d.choices v) := by
  rw [Array.getElem?_toList, choices, Array.getD_eq_getD_getElem?, Array.getElem?_eq_getElem hv]
  rfl

/-- A domain of the list is that of a point. -/
theorem exists_choices_of_mem {x : List Nat} (hx : x ∈ d.toList) :
    ∃ v < d.size, d.choices v = x := by
  obtain ⟨v, hv⟩ := List.mem_iff_getElem?.1 hx
  have hlt : v < d.size := by
    have hlt := (List.getElem?_eq_some_iff.1 hv).1
    rw [Array.length_toList] at hlt
    exact hlt
  rw [getElem?_toList hlt] at hv
  exact ⟨v, hlt, Option.some.inj hv⟩

/-- The first choices of all points, one after the other. -/
theorem mapM_head?_eq_some {xs : List (List Nat)} (h : xs.mapM List.head? = some images) :
    images.length = xs.length ∧
      ∀ (i : Nat) (x : List Nat), xs[i]? = some x → x.head? = images[i]? := by
  induction xs generalizing images with
  | nil =>
      cases h
      exact ⟨rfl, fun i x hx => nomatch hx⟩
  | cons x xs ih =>
      simp only [List.mapM_cons, Option.bind_eq_bind, Option.bind_eq_some_iff] at h
      obtain ⟨y, hy, ys, hys, heq⟩ := h
      cases heq
      obtain ⟨hlen, hget⟩ := ih hys
      refine ⟨congrArg (· + 1) hlen, fun i z hz => ?_⟩
      cases i with
      | zero =>
          cases hz
          exact hy
      | succ i => exact hget i z hz

theorem exists_mapM_head? {xs : List (List Nat)} (h : ∀ x ∈ xs, x ≠ []) :
    ∃ images, xs.mapM List.head? = some images := by
  induction xs with
  | nil => exact ⟨[], rfl⟩
  | cons x xs ih =>
      obtain ⟨ys, hys⟩ := ih fun z hz => h z (List.mem_cons_of_mem _ hz)
      obtain ⟨y, rest, rfl⟩ := List.exists_cons_of_ne_nil (h x (List.mem_cons_self ..))
      refine ⟨y :: ys, ?_⟩
      rw [List.mapM_cons, hys]
      rfl

end Domains

namespace Matching

variable {p q : Pattern} {b : Bool} {d next : Domains} {f : Nat → Nat} {v : Nat}
  {images : List Nat} {e : PatternEdge}

/-! ### What the domains of a search keep -/

/-- The domains have a choice for every point, and every choice of a point is an image that its edges
    allow: that of the source for the source, that of the target for the target, and one with the loops
    of the point. -/
structure Sound (p q : Pattern) (d : Domains) : Prop where
  size_eq : d.size = p.vertexCount
  filled : d.Filled
  source : ∀ w ∈ d.choices p.source, w = q.source
  target : ∀ w ∈ d.choices p.target, w = q.target
  lt : ∀ v, ∀ w ∈ d.choices v, w < q.vertexCount
  loop : ∀ v l, (⟨v, v, l⟩ : PatternEdge) ∈ p.edges → ∀ w ∈ d.choices v,
    (⟨w, w, l⟩ : PatternEdge) ∈ q.edges

theorem Sound.within (hd : Sound p q d) (h : next.Within d) (hfilled : next.Filled) :
    Sound p q next where
  size_eq := h.size_eq.trans hd.size_eq
  filled := hfilled
  source := fun w hw => hd.source w (h.mem _ w hw)
  target := fun w hw => hd.target w (h.mem _ w hw)
  lt := fun v w hw => hd.lt v w (h.mem _ w hw)
  loop := fun v l hl w hw => hd.loop v l hl w (h.mem _ w hw)

/-- Every image is supported along every edge between two points. -/
def Supported (p q : Pattern) (b : Bool) (d : Domains) : Prop :=
  ∀ e ∈ p.edges, e.source ≠ e.target → (between p q b).Supports d e

/-- Propagation after a choice keeps sound domains sound. -/
theorem Sound.propagate (hd : Sound p q d) (h : (between p q b).propagate d = some next) :
    Sound p q next :=
  hd.within ((between p q b).within_of_propagate h)
    ((between p q b).filled_of_propagate hd.filled h)

theorem mem_attempts {m : Matching} {w : Nat} : w ∈ m.attempts v images ↔ w ∈ images := by
  unfold attempts
  split
  · rename_i hown
    have hv := List.contains_iff_mem.1 (Bool.and_eq_true_iff.1 hown).2
    rw [List.mem_cons, List.mem_filter, bne_iff_ne]
    constructor
    · intro h
      rcases h with rfl | h
      · exact hv
      · exact h.1
    · intro h
      by_cases hw : w = v
      · exact .inl hw
      · exact .inr ⟨h, hw⟩
  · exact Iff.rfl

/-! ### What the search settles on -/

/-- If every point has one image, and the images are supported, they are a homomorphism. -/
theorem homomorphism_of_open? (hp : p.InBounds) (hd : Sound p q d)
    (hsupported : Supported p q b d) (hopen : d.open? = none)
    (h : d.toList.mapM List.head? = some images) :
    images.length = p.vertexCount ∧ Homomorphism p q (fun v => images.getD v v) ∧
      ∀ v < p.vertexCount, images.getD v v ∈ d.choices v := by
  obtain ⟨hlen, hget⟩ := Domains.mapM_head?_eq_some h
  have hchoice : ∀ v < p.vertexCount, d.choices v = [images.getD v v] := by
    intro v hv
    rw [← hd.size_eq] at hv
    have hhead := hget v _ (Domains.getElem?_toList hv)
    obtain ⟨w, rest, hw⟩ := List.exists_cons_of_ne_nil (hd.filled v hv)
    have hone := Domains.length_le_one_of_open? hopen hv
    rw [hw] at hhead hone ⊢
    obtain rfl : rest = [] := List.length_eq_zero_iff.1 (Nat.le_zero.1 (Nat.le_of_succ_le_succ hone))
    rw [List.getD_eq_getElem?_getD, ← hhead]
    rfl
  have hmem : ∀ v < p.vertexCount, images.getD v v ∈ d.choices v := by
    intro v hv
    rw [hchoice v hv]
    exact List.mem_singleton_self _
  refine ⟨?_, ⟨?_, ?_, ?_, fun v hv => hd.lt v _ (hmem v hv)⟩, hmem⟩
  · rw [hlen, Array.length_toList, hd.size_eq]
  · exact hd.source _ (hmem _ hp.source_lt)
  · exact hd.target _ (hmem _ hp.target_lt)
  · intro e he
    obtain ⟨hs, ht⟩ := hp.edge_lt e he
    by_cases hloop : e.source = e.target
    · obtain ⟨s, t, l⟩ := e
      obtain rfl : s = t := hloop
      exact hd.loop s l he _ (hmem s hs)
    · obtain ⟨y, hy, hlink⟩ := (hsupported e he hloop).source _ (hmem _ hs)
      rw [hchoice _ ht] at hy
      rw [List.mem_singleton.1 hy] at hlink
      exact (mem_outgoing.1 hlink).2

/-- What the search settles on is a homomorphism within the domains. -/
theorem homomorphism_of_solve (hp : p.InBounds) (hd : Sound p q d)
    (hsupported : Supported p q b d) (h : (between p q b).solve d = some images) :
    images.length = p.vertexCount ∧ Homomorphism p q (fun v => images.getD v v) ∧
      ∀ v < p.vertexCount, images.getD v v ∈ d.choices v := by
  fun_induction solve with
  | case1 d hopen => exact homomorphism_of_open? hp hd hsupported hopen h
  | case2 d v hopen ih =>
      obtain ⟨w, hw, h⟩ := List.exists_of_findSome?_eq_some h
      have hw := mem_attempts.1 hw
      have hwithin : (d.assign v [w]).Within d := Domains.within_assign fun x hx => by
        rw [List.mem_singleton.1 hx]
        exact hw
      have hchosen := hd.within hwithin (hd.filled.assign (List.cons_ne_nil _ _))
      split at h
      · cases h
      · rename_i next hnext
        obtain ⟨hlen, hhom, hmem⟩ := ih w next hnext (hchosen.propagate hnext)
          ((between p q b).supports_of_propagate hnext) h
        refine ⟨hlen, hhom, fun v hv => ?_⟩
        exact hwithin.mem _ _ (((between p q b).within_of_propagate hnext).mem _ _ (hmem v hv))

/-! ### What the search does not miss -/

/-- A branch that admits a homomorphism is not given up. -/
theorem exists_solve (hp : p.InBounds) (hf : Homomorphism p q f) (hd : d.Admits f)
    (hsize : d.size = p.vertexCount) : ∃ images, (between p q b).solve d = some images := by
  fun_induction solve with
  | case1 d hopen =>
      apply Domains.exists_mapM_head?
      intro x hx
      obtain ⟨v, hlt, rfl⟩ := Domains.exists_choices_of_mem hx
      exact hd.filled v hlt
  | case2 d v hopen ih =>
      have hlt := (Domains.lt_of_open? hopen).1
      have hassign : (d.assign v [f v]).Admits f := hd.assign (List.mem_singleton_self _)
      obtain ⟨next, hnext, hadmits⟩ := exists_propagate (b := b) hf hp.edge_lt hassign
        (Domains.size_assign.trans hsize)
      have hnextSize := ((between p q b).within_of_propagate hnext).size_eq.trans
        (Domains.size_assign.trans hsize)
      obtain ⟨images, himages⟩ := ih (f v) next hnext hadmits hnextSize
      apply Option.isSome_iff_exists.1
      apply List.findSome?_isSome_iff.2
      refine ⟨f v, mem_attempts.2 (hd v hlt), ?_⟩
      split
      · rename_i hnone
        rw [hnext] at hnone
        cases hnone
      · rename_i next' hnext'
        rw [hnext] at hnext'
        cases hnext'
        rw [himages]
        rfl

/-! ### The domains at the start -/

/-- The images that a point may have, as far as source and target are concerned. -/
def startImages (p q : Pattern) (v : Nat) : List Nat :=
  if v = p.source then [q.source]
  else if v = p.target then [q.target]
  else List.range q.vertexCount

/-- The domains before any image without support is dropped. -/
def startDomains (p q : Pattern) (b : Bool) : Domains :=
  ((List.range p.vertexCount).map fun v =>
    (startImages p q v).filter ((between p q b).compatible v)).toArray

theorem initial?_eq (p q : Pattern) (b : Bool) : (between p q b).initial? =
    if p.isLoop && !q.isLoop then none
    else if (startDomains p q b).toList.any List.isEmpty then none
    else (between p q b).propagate (startDomains p q b) := by
  unfold initial?
  change (if p.isLoop && !q.isLoop then none else _) = _
  split
  · rfl
  · change (if _ then none else _) = _
    rfl

theorem size_startDomains : (startDomains p q b).size = p.vertexCount := by
  rw [startDomains, List.size_toArray, List.length_map, List.length_range]

theorem mem_startDomains {w : Nat} : w ∈ (startDomains p q b).choices v ↔
    v < p.vertexCount ∧ w ∈ startImages p q v ∧ (between p q b).compatible v w = true := by
  rw [Domains.choices, startDomains, getD_toArray_map_range]
  split
  · rename_i hv
    rw [List.mem_filter]
    constructor
    · intro h
      exact ⟨hv, h⟩
    · intro h
      exact h.2
  · rename_i hv
    constructor
    · intro h
      cases h
    · intro h
      exact absurd h.1 hv

/-- An image of a point has all its loops. -/
theorem loop_of_compatible {w : Nat} {l : UInt32} (h : (between p q b).compatible v w = true)
    (hv : v < p.vertexCount) (he : (⟨v, v, l⟩ : PatternEdge) ∈ p.edges) :
    (⟨w, w, l⟩ : PatternEdge) ∈ q.edges := by
  have hall := List.all_eq_true.1 (Bool.and_eq_true_iff.1 h).1 (l, v) (mem_outgoing.2 ⟨hv, he⟩)
  dsimp only at hall
  rw [if_pos (beq_self_eq_true v)] at hall
  exact OrderedSet.contains_iff.1 hall

/-- The image of a point under a homomorphism is compatible with the point. -/
theorem compatible_of_homomorphism (hf : Homomorphism p q f) (hv : v < p.vertexCount) :
    (between p q b).compatible v (f v) = true := by
  apply Bool.and_eq_true_iff.2
  constructor
  · apply List.all_eq_true.2
    intro x hx
    obtain ⟨l, u⟩ := x
    have hedge := hf.edge _ (mem_outgoing.1 hx).2
    dsimp only
    by_cases huv : u = v
    · subst huv
      rw [if_pos (beq_self_eq_true u)]
      exact OrderedSet.contains_iff.2 hedge
    · rw [if_neg (fun heq => huv (beq_iff_eq.1 heq))]
      apply List.any_eq_true.2
      exact ⟨_, mem_outgoing.2 ⟨hf.inRange v hv, hedge⟩, beq_self_eq_true l⟩
  · apply List.all_eq_true.2
    intro x hx
    obtain ⟨l, u⟩ := x
    have hedge := hf.edge _ (mem_incoming.1 hx).2
    apply List.any_eq_true.2
    exact ⟨_, mem_incoming.2 ⟨hf.inRange v hv, hedge⟩, beq_self_eq_true l⟩

theorem mem_startImages (hf : Homomorphism p q f) (hv : v < p.vertexCount) :
    f v ∈ startImages p q v := by
  unfold startImages
  split
  · rename_i hs
    rw [hs, hf.source]
    exact List.mem_singleton_self _
  · split
    · rename_i ht
      rw [ht, hf.target]
      exact List.mem_singleton_self _
    · exact List.mem_range.2 (hf.inRange v hv)

/-- The domains at the start admit every homomorphism. -/
theorem admits_startDomains (hf : Homomorphism p q f) : (startDomains p q b).Admits f := by
  intro v hv
  rw [size_startDomains] at hv
  exact mem_startDomains.2 ⟨hv, mem_startImages hf hv, compatible_of_homomorphism hf hv⟩

/-- The domains at the start are sound, unless a point has no image at all or the target of a loop would
    need two images. -/
theorem sound_startDomains (hq : q.InBounds)
    (hloop : (p.isLoop && !q.isLoop) = false) (hfilled : (startDomains p q b).Filled) :
    Sound p q (startDomains p q b) where
  size_eq := size_startDomains
  filled := hfilled
  source := fun w hw => by
    have himage := (mem_startDomains.1 hw).2.1
    rw [startImages, if_pos rfl] at himage
    exact List.mem_singleton.1 himage
  target := fun w hw => by
    have himage := (mem_startDomains.1 hw).2.1
    unfold startImages at himage
    by_cases heq : p.target = p.source
    · rw [if_pos heq] at himage
      have hp : p.isLoop = true := beq_iff_eq.2 heq.symm
      rw [hp] at hloop
      have hq : q.isLoop = true := by
        cases hq : q.isLoop with
        | true => rfl
        | false =>
            rw [hq] at hloop
            cases hloop
      rw [List.mem_singleton.1 himage]
      exact beq_iff_eq.1 hq
    · rw [if_neg heq, if_pos rfl] at himage
      exact List.mem_singleton.1 himage
  lt := fun v w hw => by
    have himage := (mem_startDomains.1 hw).2.1
    unfold startImages at himage
    split at himage
    · rw [List.mem_singleton.1 himage]
      exact hq.source_lt
    · split at himage
      · rw [List.mem_singleton.1 himage]
        exact hq.target_lt
      · exact List.mem_range.1 himage
  loop := fun v l hl w hw => by
    obtain ⟨hv, _, hcompatible⟩ := mem_startDomains.1 hw
    exact loop_of_compatible hcompatible hv hl

theorem filled_of_any_isEmpty (h : ¬ d.toList.any List.isEmpty = true) : d.Filled := by
  intro v hv hnil
  apply h
  apply List.any_eq_true.2
  refine ⟨d.choices v, List.mem_of_getElem? (Domains.getElem?_toList hv), ?_⟩
  rw [hnil]
  rfl

theorem not_any_isEmpty_of_filled (h : d.Filled) : ¬ d.toList.any List.isEmpty = true := by
  intro hany
  obtain ⟨x, hx, hempty⟩ := List.any_eq_true.1 hany
  obtain ⟨v, hlt, rfl⟩ := Domains.exists_choices_of_mem hx
  exact h v hlt (List.isEmpty_iff.1 hempty)

/-- What the search starts from is sound and supported. -/
theorem sound_of_initial? (hq : q.InBounds) (h : (between p q b).initial? = some d) :
    Sound p q d ∧ Supported p q b d := by
  rw [initial?_eq] at h
  split at h
  · cases h
  · rename_i hloop
    split at h
    · cases h
    · rename_i hany
      have hstart := sound_startDomains (b := b) hq (Bool.eq_false_iff.2 hloop)
        (filled_of_any_isEmpty hany)
      exact ⟨hstart.propagate h, (between p q b).supports_of_propagate h⟩

/-- The search starts from domains that admit every homomorphism. -/
theorem exists_initial? (hp : p.InBounds) (hf : Homomorphism p q f) :
    ∃ d, (between p q b).initial? = some d ∧ d.Admits f := by
  have hstart := admits_startDomains (b := b) hf
  rw [initial?_eq, if_neg, if_neg (not_any_isEmpty_of_filled hstart.filled)]
  · exact exists_propagate hf hp.edge_lt hstart size_startDomains
  · intro hloop
    obtain ⟨hp, hq⟩ := Bool.and_eq_true_iff.1 hloop
    have hsame : p.source = p.target := beq_iff_eq.1 hp
    have hloop : q.isLoop = true := by
      apply beq_iff_eq.2
      rw [← hf.source, ← hf.target, hsame]
    rw [hloop] at hq
    cases hq

/-! ### The whole search -/

/-- The images that the search finds are a homomorphism. -/
theorem homomorphism_of_search (hp : p.InBounds) (hq : q.InBounds)
    (h : (between p q b).search = some images) :
    images.length = p.vertexCount ∧ Homomorphism p q fun v => images.getD v v := by
  obtain ⟨d, hd, hsolve⟩ := Option.bind_eq_some_iff.1 h
  obtain ⟨hsound, hsupported⟩ := sound_of_initial? hq hd
  obtain ⟨hlen, hhom, _⟩ := homomorphism_of_solve hp hsound hsupported hsolve
  exact ⟨hlen, hhom⟩

/-- If there is a homomorphism, the search finds one. -/
theorem exists_search (hp : p.InBounds) (hq : q.InBounds) (hf : Homomorphism p q f) :
    ∃ images, (between p q b).search = some images := by
  obtain ⟨d, hd, hadmits⟩ := exists_initial? (b := b) hp hf
  obtain ⟨images, himages⟩ := exists_solve (b := b) hp hf hadmits (sound_of_initial? hq hd).1.size_eq
  exact ⟨images, Option.bind_eq_some_iff.2 ⟨d, hd, himages⟩⟩

theorem isSome_search_iff (hp : p.InBounds) (hq : q.InBounds) :
    (between p q b).search.isSome = true ↔ ∃ f, Homomorphism p q f := by
  rw [Option.isSome_iff_exists]
  constructor
  · intro h
    obtain ⟨images, himages⟩ := h
    exact ⟨_, (homomorphism_of_search hp hq himages).2⟩
  · intro h
    obtain ⟨f, hf⟩ := h
    exact exists_search hp hq hf

end Matching

namespace Pattern

variable {p q : Pattern} {f : Nat → Nat} {images : List Nat}

theorem mapsInto_eq_true_iff (hp : p.InBounds) (hq : q.InBounds) :
    p.mapsInto q = true ↔ ∃ f, Homomorphism p q f :=
  Matching.isSome_search_iff hp hq

/-- The search is exact: one pattern maps into another if and only if there is a homomorphism, whichever
    images of a point are tried first, and what the search returns is one image for each point, and
    together these are a homomorphism. -/
theorem search_is_exact (hp : p.InBounds) (hq : q.InBounds) :
    (p.mapsInto q = true ↔ ∃ f, Homomorphism p q f) ∧
      ∀ ownFirst : Bool,
        ((Matching.between p q ownFirst).search.isSome = true ↔ ∃ f, Homomorphism p q f) ∧
        ∀ images, (Matching.between p q ownFirst).search = some images →
          images.length = p.vertexCount ∧ Homomorphism p q fun v => images.getD v v := by
  refine ⟨mapsInto_eq_true_iff hp hq, fun ownFirst => ⟨Matching.isSome_search_iff hp hq, ?_⟩⟩
  intro images himages
  exact Matching.homomorphism_of_search hp hq himages

/-- Two labels from the source to another target. -/
def arrows : Pattern where
  vertexCount := 2
  source := 0
  target := 1
  edges := ⟨[⟨0, 1, 0⟩, ⟨0, 1, 1⟩], by decide⟩

/-- Two labels from a vertex to itself, which is both source and target. -/
def loops : Pattern where
  vertexCount := 1
  source := 0
  target := 0
  edges := ⟨[⟨0, 0, 0⟩, ⟨0, 0, 1⟩], by decide⟩

theorem search_is_exact_arrows_loops :
    arrows.mapsInto loops = true ∧ loops.mapsInto arrows = false := by
  have harrows : arrows.InBounds := ⟨by decide, by decide,
    show ∀ e ∈ arrows.edges.toList, e.source < 2 ∧ e.target < 2 by decide⟩
  have hloops : loops.InBounds := ⟨by decide, by decide,
    show ∀ e ∈ loops.edges.toList, e.source < 1 ∧ e.target < 1 by decide⟩
  constructor
  · have hinto : Homomorphism arrows loops fun _ => 0 := ⟨rfl, rfl,
      show ∀ e ∈ arrows.edges.toList, e.map (fun _ => 0) ∈ loops.edges by decide,
      fun _ _ => Nat.zero_lt_one⟩
    exact (search_is_exact harrows hloops).1.2 ⟨_, hinto⟩
  · apply Bool.eq_false_iff.2
    intro hback
    obtain ⟨f, hf⟩ := (search_is_exact hloops harrows).1.1 hback
    -- one vertex would have to go to two
    have hsame : arrows.source = arrows.target := hf.source.symm.trans hf.target
    cases hsame

/-! ### Maps that miss a point -/

/-- The domains without one of the images. -/
def withoutImage (d : Domains) (x : Nat) : Domains := d.map (·.filter (· != x))

theorem mem_withoutImage {d : Domains} {x v w : Nat} :
    w ∈ (withoutImage d x).choices v ↔ w ∈ d.choices v ∧ w ≠ x := by
  have hchoices : (withoutImage d x).choices v = (d.choices v).filter (· != x) := by
    unfold withoutImage Domains.choices
    rw [Array.getD_eq_getD_getElem?, Array.getD_eq_getD_getElem?, Array.getElem?_map]
    cases d[v]? with
    | none => rfl
    | some images => rfl
  rw [hchoices, List.mem_filter, bne_iff_ne]

theorem within_withoutImage (d : Domains) (x : Nat) : (withoutImage d x).Within d where
  size_eq := Array.size_map
  mem := fun _ _ hw => (mem_withoutImage.1 hw).1

/-- The search for a map that misses a point. -/
def foldingWithout? (p : Pattern) (d : Domains) (x : Nat) : Option (List Nat) :=
  if x = p.source ∨ x = p.target ∨ d.choices x = [x] then none
  else if (withoutImage d x).toList.any List.isEmpty then none
  else ((Matching.between p p true).propagate (withoutImage d x)).bind
    (Matching.between p p true).solve

theorem folding?_eq (p : Pattern) : p.folding? = (Matching.between p p true).initial?.bind fun d =>
    (List.range p.vertexCount).findSome? (foldingWithout? p d) := by
  unfold folding? foldingWithout?
  simp only [Option.bind_eq_bind, Array.any_toList]
  rfl

/-- A folding is a map to itself, and it misses a point. -/
theorem homomorphism_of_folding (hp : p.InBounds) (h : p.folding? = some images) :
    Homomorphism p p (fun v => images.getD v v) ∧
      ∃ x < p.vertexCount, ∀ v < p.vertexCount, images.getD v v ≠ x := by
  rw [folding?_eq] at h
  obtain ⟨d, hd, hfind⟩ := Option.bind_eq_some_iff.1 h
  obtain ⟨x, hx, hfold⟩ := List.exists_of_findSome?_eq_some hfind
  unfold foldingWithout? at hfold
  split at hfold
  · cases hfold
  · split at hfold
    · cases hfold
    · rename_i hany
      obtain ⟨next, hnext, hsolve⟩ := Option.bind_eq_some_iff.1 hfold
      have hwithout := (Matching.sound_of_initial? hp hd).1.within (within_withoutImage d x)
        (Matching.filled_of_any_isEmpty hany)
      obtain ⟨_, hhom, hmem⟩ := Matching.homomorphism_of_solve hp (hwithout.propagate hnext)
        ((Matching.between p p true).supports_of_propagate hnext) hsolve
      refine ⟨hhom, x, List.mem_range.1 hx, fun v hv => ?_⟩
      have himage := ((Matching.between p p true).within_of_propagate hnext).mem v _ (hmem v hv)
      exact (mem_withoutImage.1 himage).2

/-- If some map to itself misses a point, there is a folding. -/
theorem exists_folding (hp : p.InBounds) (hf : Homomorphism p p f) {x : Nat}
    (hx : x < p.vertexCount) (hmiss : ∀ v < p.vertexCount, f v ≠ x) :
    ∃ images, p.folding? = some images := by
  obtain ⟨d, hd, hadmits⟩ := Matching.exists_initial? (b := true) hp hf
  have hsize := (Matching.sound_of_initial? hp hd).1.size_eq
  have hwithout : (withoutImage d x).Admits f := by
    intro v hv
    rw [(within_withoutImage d x).size_eq] at hv
    exact mem_withoutImage.2 ⟨hadmits v hv, hmiss v (hsize ▸ hv)⟩
  have hwithoutSize := (within_withoutImage d x).size_eq.trans hsize
  obtain ⟨next, hnext, hnextAdmits⟩ := Matching.exists_propagate (b := true) hf hp.edge_lt hwithout
    hwithoutSize
  obtain ⟨images, hsolve⟩ := Matching.exists_solve (b := true) hp hf hnextAdmits
    (((Matching.between p p true).within_of_propagate hnext).size_eq.trans hwithoutSize)
  have hkept : ¬ (x = p.source ∨ x = p.target ∨ d.choices x = [x]) := by
    intro h
    rcases h with rfl | rfl | hown
    · exact hmiss _ hp.source_lt hf.source
    · exact hmiss _ hp.target_lt hf.target
    · have hmem := hadmits x (hsize ▸ hx)
      rw [hown] at hmem
      exact hmiss x hx (List.mem_singleton.1 hmem)
  rw [folding?_eq, hd]
  apply Option.isSome_iff_exists.1
  apply List.findSome?_isSome_iff.2
  refine ⟨x, List.mem_range.2 hx, ?_⟩
  rw [foldingWithout?, if_neg hkept, if_neg (Matching.not_any_isEmpty_of_filled hwithout.filled),
    hnext, Option.bind_some, hsolve]
  rfl

end Pattern

end PathQueryIndex
