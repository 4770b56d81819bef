/-
Module: PathQueryIndex.Proofs.Canonical.Equivalence
Layer: Proofs
Purpose: Canonical forms decide whether two queries are equivalent. The cores of equivalent queries are
  isomorphic, so their forms are the same; and forms that are the same are read as the same numbered
  graph, from which the cores map into each other. That queries have the same answers on every graph is
  the same thing, since a core, seen as a graph, has a match for exactly the patterns that map into it.
Imports: PathQueryIndex.Proofs.Canonical.Existence, PathQueryIndex.Proofs.Pattern.Meaning, Mathlib
Main exports: Pattern.database, Canonicalizer.fits_of_resolve, Canonicalizer.code_eq_iff_of_rigid,
  Canonicalizer.code_eq_iff_equivalent
-/
import PathQueryIndex.Proofs.Canonical.Existence
import PathQueryIndex.Proofs.Pattern.Meaning
import Mathlib

namespace PathQueryIndex

open CanonicalForm

/-! ### Patterns seen as graphs -/

namespace Pattern

variable {p q : Pattern} {v : Nat}

theorem toNat_ofNat_of_lt (hsize : p.vertexCount < UInt32.size) (hv : v < p.vertexCount) :
    (UInt32.ofNat v).toNat = v := UInt32.toNat_ofNat_of_lt' (Nat.lt_trans hv hsize)

theorem ofNat_lt_ofNat (hsize : p.vertexCount < UInt32.size) (hv : v < p.vertexCount) :
    UInt32.ofNat v < UInt32.ofNat p.vertexCount := by
  rw [UInt32.lt_iff_toNat_lt, toNat_ofNat_of_lt hsize hv, UInt32.toNat_ofNat_of_lt' hsize]
  exact hv

/-- The graph that has the points of a pattern for vertices and its edges for edges. -/
def database (p : Pattern) (hp : p.WellFormed) (hsize : p.vertexCount < UInt32.size)
    (hlabel : ∀ e ∈ p.edges, e.label.toNat ≤ maxCanonicalLabel) : Graph where
  vertexCount := .ofNat p.vertexCount
  labelCount := .ofNat (maxCanonicalLabel + 1)
  edges := .ofList (p.edges.toList.map fun e => ⟨.ofNat e.source, .ofNat e.target, e.label⟩)
  inBounds := by
    intro d hd
    obtain ⟨e, he, rfl⟩ := List.mem_map.1 (OrderedSet.mem_ofList.1 hd)
    obtain ⟨hs, ht⟩ := hp.edge_lt e he
    refine ⟨⟨ofNat_lt_ofNat hsize hs, ofNat_lt_ofNat hsize ht⟩, ?_⟩
    rw [UInt32.lt_iff_toNat_lt]
    exact Nat.lt_succ_of_le (hlabel e he)

section Database

variable (hp : p.WellFormed) (hsize : p.vertexCount < UInt32.size)
  (hlabel : ∀ e ∈ p.edges, e.label.toNat ≤ maxCanonicalLabel)

/-- A pattern matches in its own graph. -/
theorem matchesAt_database : p.MatchesAt (p.database hp hsize hlabel) (.ofNat p.source)
    (.ofNat p.target) := by
  refine ⟨UInt32.ofNat, rfl, rfl, fun e he => ?_, fun v hv => ?_⟩
  · exact OrderedSet.mem_ofList.2 (List.mem_map.2 ⟨e, he, rfl⟩)
  · exact ofNat_lt_ofNat hsize hv

/-- What matches in the graph of a pattern, from its source to its target, maps into the pattern. -/
theorem exists_homomorphism_of_database
    (h : q.MatchesAt (p.database hp hsize hlabel) (.ofNat p.source) (.ofNat p.target)) :
    ∃ f, Homomorphism q p f := by
  obtain ⟨m, hm⟩ := h
  refine ⟨fun x => (m x).toNat, ?_, ?_, fun e he => ?_, fun x hx => ?_⟩
  · rw [hm.source, toNat_ofNat_of_lt hsize hp.source_lt]
  · rw [hm.target, toNat_ofNat_of_lt hsize hp.target_lt]
  · obtain ⟨d, hd, heq⟩ := List.mem_map.1 (OrderedSet.mem_ofList.1 (hm.edge e he))
    obtain ⟨hs, ht⟩ := hp.edge_lt d hd
    injection heq with hsource htarget hlabel
    have hmap : e.map (fun x => (m x).toNat) = d := by
      rw [PatternEdge.map, ← hsource, ← htarget, ← hlabel, toNat_ofNat_of_lt hsize hs,
        toNat_ofNat_of_lt hsize ht]
    rw [hmap]
    exact hd
  · have hlt := UInt32.lt_iff_toNat_lt.1 (hm.inRange x hx)
    change (m x).toNat < (UInt32.ofNat p.vertexCount).toNat at hlt
    rw [UInt32.toNat_ofNat_of_lt' hsize] at hlt
    exact hlt

end Database

/-- If whatever matches one pattern matches another, and the matching one can be seen as a graph, the
    other maps into it. -/
theorem exists_homomorphism_of_matches (hp : p.WellFormed) (hsize : p.vertexCount < UInt32.size)
    (hlabel : ∀ e ∈ p.edges, e.label.toNat ≤ maxCanonicalLabel)
    (h : ∀ g u v, p.MatchesAt g u v → q.MatchesAt g u v) : ∃ f, Homomorphism q p f :=
  exists_homomorphism_of_database hp hsize hlabel
    (h _ _ _ (matchesAt_database hp hsize hlabel))

end Pattern

/-! ### Equal forms -/

namespace Canonicalizer

variable {workers workers' number number' : Nat} {timeout timeout' : Option Nat} {p q : Pattern}
  {form form' : CanonicalForm} {a b : Query}

/-- The form of a pattern is a numbered graph that fits its fields, so the pattern can be seen as a graph. -/
theorem fits_of_resolve (hp : p.WellFormed)
    (h : (ofWorkers workers timeout).resolve number (.ofPattern p) = .ok form) :
    form.toFormParts.Fits ∧ p.vertexCount < UInt32.size ∧
      ∀ e ∈ p.edges, e.label.toNat ≤ maxCanonicalLabel := by
  have hlimits := (exists_resolve_iff hp).1 ⟨form, h⟩
  obtain ⟨order, horder, hparts⟩ := resolve_eq_ok h
  have hperm := (Pattern.ordered_of_canonicalOrder horder).perm
  rw [hparts]
  refine ⟨Pattern.fits_partsOfOrder hperm hp hlimits, ?_, hlimits.label⟩
  exact Nat.lt_of_le_of_lt (Nat.le_trans (Nat.le_add_right ..) hlimits.nodes) (by decide)

/-- Rigid patterns have the same code if and only if they map into each other. -/
theorem code_eq_iff_of_rigid (hp : p.WellFormed) (hq : q.WellFormed) (hpr : p.Rigid) (hqr : q.Rigid)
    (h : (ofWorkers workers timeout).resolve number (.ofPattern p) = .ok form)
    (h' : (ofWorkers workers' timeout').resolve number' (.ofPattern q) = .ok form') :
    form.code = form'.code ↔ p.Equivalent q := by
  obtain ⟨order, horder, hparts⟩ := resolve_eq_ok h
  obtain ⟨order', horder', hparts'⟩ := resolve_eq_ok h'
  have hord := Pattern.ordered_of_canonicalOrder horder
  have hord' := Pattern.ordered_of_canonicalOrder horder'
  constructor
  · intro hcode
    have hsame : form.toFormParts = form'.toFormParts :=
      FormParts.eq_of_encode_eq (fits_of_resolve hp h).1 (fits_of_resolve hq h').1 form.encoded
        (hcode ▸ form'.encoded)
    rw [hparts, hparts'] at hsame
    exact ⟨⟨_, Pattern.homomorphism_of_parts_eq hp hq hord hord' hsame⟩,
      ⟨_, Pattern.homomorphism_of_parts_eq hq hp hord' hord hsame.symm⟩⟩
  · intro hequiv
    obtain ⟨⟨f, hf⟩, f', hf'⟩ := hequiv
    have hiso := hpr.isomorphism hp hq hqr hf hf'
    have hsame := Pattern.parts_eq_of_isomorphism hp hiso horder horder'
    rw [← hparts, ← hparts'] at hsame
    have hencoded := form'.encoded
    rw [hsame, form.encoded] at hencoded
    exact Except.ok.inj hencoded

/-- Patterns of queries map into each other if and only if the queries have the same answers, provided
    that their cores can be seen as graphs. -/
theorem equivalent_iff_holds (ha : (Pattern.ofQuery a).core.vertexCount < UInt32.size ∧
      ∀ e ∈ (Pattern.ofQuery a).core.edges, e.label.toNat ≤ maxCanonicalLabel)
    (hb : (Pattern.ofQuery b).core.vertexCount < UInt32.size ∧
      ∀ e ∈ (Pattern.ofQuery b).core.edges, e.label.toNat ≤ maxCanonicalLabel) :
    (Pattern.ofQuery a).Equivalent (.ofQuery b) ↔ ∀ g u v, a.Holds g u v ↔ b.Holds g u v := by
  -- A core matches wherever its query holds, since it maps to the pattern of the query and back.
  have hcore : ∀ (q : Query) (g : Graph) (u v : Vertex),
      (Pattern.ofQuery q).core.MatchesAt g u v ↔ q.Holds g u v := by
    intro q g u v
    obtain ⟨⟨f, hf⟩, f', hf'⟩ := Pattern.equivalent_core (Pattern.wellFormed_ofQuery q)
    rw [← Pattern.matchesAt_ofQuery]
    constructor
    · exact Pattern.MatchesAt.of_homomorphism hf
    · exact Pattern.MatchesAt.of_homomorphism hf'
  constructor
  · intro hequiv g u v
    obtain ⟨⟨f, hf⟩, f', hf'⟩ := hequiv
    rw [← Pattern.matchesAt_ofQuery, ← Pattern.matchesAt_ofQuery]
    constructor
    · exact Pattern.MatchesAt.of_homomorphism hf'
    · exact Pattern.MatchesAt.of_homomorphism hf
  · intro hholds
    have hwa := Pattern.wellFormed_ofQuery a
    have hwb := Pattern.wellFormed_ofQuery b
    obtain ⟨f, hf⟩ := Pattern.exists_homomorphism_of_matches (q := (Pattern.ofQuery b).core)
      (Pattern.wellFormed_core hwa) ha.1 ha.2
      fun g u v h => (hcore b g u v).2 ((hholds g u v).1 ((hcore a g u v).1 h))
    obtain ⟨f', hf'⟩ := Pattern.exists_homomorphism_of_matches (q := (Pattern.ofQuery a).core)
      (Pattern.wellFormed_core hwb) hb.1 hb.2
      fun g u v h => (hcore a g u v).2 ((hholds g u v).2 ((hcore b g u v).1 h))
    exact (Pattern.equivalent_core hwa).trans (Pattern.Equivalent.trans ⟨⟨f', hf'⟩, ⟨f, hf⟩⟩
      (Pattern.equivalent_core hwb).symm)

/-- Two queries that the searching labeler gives canonical forms have the same code if and only if their
    patterns map into each other, and this is the case if and only if they have the same answers on every
    graph. -/
theorem code_eq_iff_equivalent
    (ha : (ofWorkers workers timeout).resolve number (.ofPattern (canonicalPattern a false)) =
      .ok form)
    (hb : (ofWorkers workers' timeout').resolve number' (.ofPattern (canonicalPattern b false)) =
      .ok form') :
    (form.code = form'.code ↔
      (∃ f, Homomorphism (.ofQuery a) (.ofQuery b) f) ∧
        ∃ f, Homomorphism (.ofQuery b) (.ofQuery a) f) ∧
    (form.code = form'.code ↔ ∀ g u v, a.Holds g u v ↔ b.Holds g u v) := by
  have hwa := Pattern.wellFormed_ofQuery a
  have hwb := Pattern.wellFormed_ofQuery b
  have hcode := code_eq_iff_of_rigid (Pattern.wellFormed_core hwa) (Pattern.wellFormed_core hwb)
    (Pattern.rigid_core hwa) (Pattern.rigid_core hwb) ha hb
  have hequiv : form.code = form'.code ↔ (Pattern.ofQuery a).Equivalent (.ofQuery b) := by
    rw [hcode]
    constructor
    · intro h
      exact (Pattern.equivalent_core hwa).trans (h.trans (Pattern.equivalent_core hwb).symm)
    · intro h
      exact (Pattern.equivalent_core hwa).symm.trans (h.trans (Pattern.equivalent_core hwb))
  constructor
  · rw [hequiv]
    constructor
    · intro h
      exact ⟨h.into, h.back⟩
    · intro h
      exact ⟨h.1, h.2⟩
  · rw [hequiv]
    exact equivalent_iff_holds (fits_of_resolve (Pattern.wellFormed_core hwa) ha).2
      (fits_of_resolve (Pattern.wellFormed_core hwb) hb).2

/-- There is a form if refining the classes leaves no larger cell and the refined order has a code. -/
theorem exists_resolve {g : ColoredGraph} {code : CoreHash} (cells : Cells)
    (hcells : decodeClasses g.nodeCount g.coding = .ok cells)
    (hstray : (request g).strayNeighbour? = none)
    (htarget : ((request g).neighbours.refine cells).target? = none)
    (hlen : ((request g).neighbours.refine cells).flatten.length = g.nodeCount)
    (hcheck : checkOrder g.nodeCount [] ((request g).neighbours.refine cells).flatten = .ok ())
    (hcode : (partsOfOrder g ((request g).neighbours.refine cells).flatten).sortRows.encode =
      .ok code) :
    ∃ form, (ofWorkers workers timeout).resolve number g = .ok form ∧ form.code = code := by
  obtain ⟨form, hform, hcode⟩ := CanonicalForm.exists_ofOrder hlen hcheck hcode
  refine ⟨form, ?_, hcode⟩
  change (canonicalOrder (request g) false >>= _) = _
  rw [canonicalOrder_of_target?_eq_none (r := request g) hcells hstray htarget]
  exact hform

/-- A concatenation that is taken twice folds to the concatenation, has its code, and so its answers. -/
theorem code_eq_iff_equivalent_twice :
    ∃ form form' : CanonicalForm,
      (ofWorkers 1 none).resolve 0 (.ofPattern (canonicalPattern
        (.intersect (.concat (.label ⟨0, false⟩) (.label ⟨1, false⟩))
          (.concat (.label ⟨0, false⟩) (.label ⟨1, false⟩))) false)) = .ok form ∧
      (ofWorkers 1 none).resolve 0 (.ofPattern (canonicalPattern
        (.concat (.label ⟨0, false⟩) (.label ⟨1, false⟩)) false)) = .ok form' ∧
      form.code = form'.code ∧
      ∃ f, Homomorphism (.ofQuery (.intersect (.concat (.label ⟨0, false⟩) (.label ⟨1, false⟩))
        (.concat (.label ⟨0, false⟩) (.label ⟨1, false⟩))))
        (.ofQuery (.concat (.label ⟨0, false⟩) (.label ⟨1, false⟩))) f := by
  have hform : ∀ q : Query, ColoredGraph.ofPattern (canonicalPattern q false) =
      .ofPattern (canonicalPattern (.concat (.label ⟨0, false⟩) (.label ⟨1, false⟩)) false) →
      ∃ form, (ofWorkers 1 none).resolve 0 (.ofPattern (canonicalPattern q false)) = .ok form ∧
        form.code = [1, 65, 16, 8, 73, 64, 194, 75] := by
    intro q hq
    rw [hq]
    exact exists_resolve [[0], [1], [3], [4], [2]] (by cbv) (by cbv) (by cbv) (by cbv)
      (by cbv) (by cbv)
  obtain ⟨form, hform₁, hcode₁⟩ :=
    hform (.intersect (.concat (.label ⟨0, false⟩) (.label ⟨1, false⟩))
      (.concat (.label ⟨0, false⟩) (.label ⟨1, false⟩))) (by cbv)
  obtain ⟨form', hform₂, hcode₂⟩ := hform _ rfl
  have hcode : form.code = form'.code := hcode₁.trans hcode₂.symm
  exact ⟨form, form', hform₁, hform₂, hcode,
    ((code_eq_iff_equivalent hform₁ hform₂).1.1 hcode).1⟩

end Canonicalizer

end PathQueryIndex
