/-
Module: PathQueryIndex.Proofs.Index.Codes
Layer: Proofs
Purpose: Codes of queries, and what sets of cores have. The folded pattern of a query stands for it, and so does
  every rigid pattern that maps into the pattern of the query and back. Patterns that stand for two queries have
  one code if and only if the queries have the same answers, and a query has a code if and only if its core is
  within the limits. So a set whose codes are those of its cores has the query of every core that was put into
  it, up to the answers, and it has the codes of the queries that it absorbs.
Imports: PathQueryIndex.Proofs.Canonical.Equivalence, PathQueryIndex.Proofs.Index.Closure,
  PathQueryIndex.Proofs.Query.Narrow
Main exports: Pattern.StandsFor, Core.Coded, Core.Coded.hash_eq_iff, Query.HasCode, Query.exists_hasCode_iff,
  HasCore, CoreSet.Proper, CoreSet.Proper.hasCore_of_absorb, CoreSet.mem_hashes_of_absorb,
  CoreSet.mem_hashes_of_close, CoreSet.exists_cores, CoreSet.proper_of_hasCode
-/
import PathQueryIndex.Proofs.Canonical.Equivalence
import PathQueryIndex.Proofs.Index.Closure
import PathQueryIndex.Proofs.Query.Narrow

namespace PathQueryIndex

open Std

/-! ### Patterns that stand for queries -/

namespace Pattern

variable {p : Pattern} {q : Query}

/-- A rigid pattern that maps into the pattern of a query and back. -/
structure StandsFor (p : Pattern) (q : Query) : Prop where
  wellFormed : p.WellFormed
  rigid : p.Rigid
  equivalent : p.Equivalent (.ofQuery q)

/-- The folded pattern of a query stands for it. -/
theorem standsFor_canonicalPattern (q : Query) : (canonicalPattern q false).StandsFor q :=
  have hwell := wellFormed_ofQuery q
  ⟨wellFormed_core hwell, rigid_core hwell, (equivalent_core hwell).symm⟩

/-- The pattern of a label has no point but its source and its target, so it need not be folded. -/
theorem standsFor_label (l : Label) : (canonicalPattern (.label l) true).StandsFor (.label l) := by
  refine ⟨wellFormed_ofQuery _, fun f hf x hx => ?_, .refl _⟩
  have hends : x = (ofQuery (.label l)).source ∨ x = (ofQuery (.label l)).target := by
    change x < (ofQuery (.label l)).vertexCount at hx
    rw [ofQuery_label] at hx ⊢
    change x < 2 at hx
    change x = 0 ∨ x = 1
    omega
  rcases hends with rfl | rfl
  · exact ⟨_, hx, hf.source⟩
  · exact ⟨_, hx, hf.target⟩

end Pattern

/-- The code of a core is that of a form of a pattern that stands for its query. -/
def Core.Coded (c : Canonicalizer) (core : Core) : Prop :=
  ∃ p : Pattern, p.StandsFor core.query ∧
    ∃ number form, c.resolve number (.ofPattern p) = .ok form ∧ core.hash = form.code

theorem Canonicalizer.Gives.coded {c : Canonicalizer} {item : Query × Pattern} {core : Core}
    (h : c.Gives item core) (hitem : item.2.StandsFor item.1) : core.Coded c :=
  ⟨item.2, h.query_eq ▸ hitem, h.form⟩

/-- A query whose form has the code of a core has the answers of the query of the core. -/
theorem Core.Coded.holds {workers : Nat} {timeout : Option Nat} {core : Core}
    (h : core.Coded (.ofWorkers workers timeout)) {q : Query} {form : CanonicalForm}
    (hform : canonicalForm q false = .ok form) (hcode : core.hash = form.code) {g : Graph}
    {u v : Vertex} (hholds : core.query.Holds g u v) : q.Holds g u v := by
  obtain ⟨p, hp, number, form', hform', hcode'⟩ := h
  have hq := Pattern.standsFor_canonicalPattern q
  have hform : (Canonicalizer.ofWorkers workers timeout).resolve 0
      (.ofPattern (canonicalPattern q false)) = .ok form := hform
  have hsame : form.code = form'.code := hcode.symm.trans hcode'
  have hequiv := (Canonicalizer.code_eq_iff_of_rigid hq.wellFormed hp.wellFormed hq.rigid hp.rigid
    hform hform').1 hsame
  obtain ⟨f, hf⟩ := (hq.equivalent.symm.trans (hequiv.trans hp.equivalent)).into
  exact Pattern.matchesAt_ofQuery.1
    (Pattern.MatchesAt.of_homomorphism hf (Pattern.matchesAt_ofQuery.2 hholds))

variable {workers : Nat} {timeout limit : Option Nat} {a a' q : Query} {core core' : Core}
  {cores cores' : List Core}

/-! ### Codes and answers -/

/-- Queries whose patterns map into each other have the same answers. -/
theorem Pattern.Equivalent.agrees (h : (Pattern.ofQuery a).Equivalent (.ofQuery a')) : a.Agrees a' := by
  intro g u v
  obtain ⟨⟨f, hf⟩, f', hf'⟩ := h
  rw [← matchesAt_ofQuery, ← matchesAt_ofQuery]
  exact ⟨.of_homomorphism hf', .of_homomorphism hf⟩

/-- A pattern that stands for a query matches where the query holds. -/
theorem Pattern.StandsFor.matchesAt_iff {p : Pattern} (h : p.StandsFor q) {g : Graph} {u v : Vertex} :
    p.MatchesAt g u v ↔ q.Holds g u v := by
  obtain ⟨⟨f, hf⟩, f', hf'⟩ := h.equivalent
  rw [← matchesAt_ofQuery]
  exact ⟨.of_homomorphism hf', .of_homomorphism hf⟩

/-- Patterns that stand for two queries have the same code if and only if the queries have the same
    answers. -/
theorem Pattern.StandsFor.code_eq_iff {p p' : Pattern} {workers' number number' : Nat}
    {timeout' : Option Nat} {form form' : CanonicalForm} (h : p.StandsFor a) (h' : p'.StandsFor a')
    (hform : (Canonicalizer.ofWorkers workers timeout).resolve number (.ofPattern p) = .ok form)
    (hform' : (Canonicalizer.ofWorkers workers' timeout').resolve number' (.ofPattern p') = .ok form') :
    form.code = form'.code ↔ a.Agrees a' := by
  rw [Canonicalizer.code_eq_iff_of_rigid h.wellFormed h'.wellFormed h.rigid h'.rigid hform hform']
  constructor
  · intro hequiv
    exact (h.equivalent.symm.trans (hequiv.trans h'.equivalent)).agrees
  · intro hagrees
    -- both patterns can be seen as graphs, in which the other one matches
    obtain ⟨_, hsize, hlabels⟩ := Canonicalizer.fits_of_resolve h.wellFormed hform
    obtain ⟨_, hsize', hlabels'⟩ := Canonicalizer.fits_of_resolve h'.wellFormed hform'
    have hinto := Pattern.exists_homomorphism_of_matches h.wellFormed hsize hlabels fun g u v hmatch =>
      h'.matchesAt_iff.2 ((hagrees g u v).1 (h.matchesAt_iff.1 hmatch))
    have hback := Pattern.exists_homomorphism_of_matches h'.wellFormed hsize' hlabels'
      fun g u v hmatch => h.matchesAt_iff.2 ((hagrees g u v).2 (h'.matchesAt_iff.1 hmatch))
    exact ⟨hback, hinto⟩

namespace Core.Coded

/-- Cores have the same code if and only if they have the same answers. -/
theorem hash_eq_iff (h : core.Coded (.ofWorkers workers timeout))
    (h' : core'.Coded (.ofWorkers workers timeout)) :
    core.hash = core'.hash ↔ core.query.Agrees core'.query := by
  obtain ⟨p, hp, _, form, hform, hcode⟩ := h
  obtain ⟨p', hp', _, form', hform', hcode'⟩ := h'
  rw [hcode, hcode', hp.code_eq_iff hp' hform hform']

/-- Cores with the same code have the same answers. -/
theorem agrees (h : core.Coded (.ofWorkers workers timeout))
    (h' : core'.Coded (.ofWorkers workers timeout)) (hash : core.hash = core'.hash) :
    core.query.Agrees core'.query := (h.hash_eq_iff h').1 hash

/-- A core with the answers of a query has the code of the query. -/
theorem hash_eq (h : core.Coded (.ofWorkers workers timeout)) {form : CanonicalForm}
    (hform : canonicalForm q false = .ok form) (hagrees : core.query.Agrees q) :
    core.hash = form.code := by
  obtain ⟨p, hp, _, form', hform', hcode⟩ := h
  have hform : (Canonicalizer.ofWorkers workers timeout).resolve 0
      (.ofPattern (canonicalPattern q false)) = .ok form := hform
  rw [hcode]
  exact (hp.code_eq_iff (Pattern.standsFor_canonicalPattern q) hform' hform).2 hagrees

end Core.Coded

/-! ### Codes of queries -/

namespace Query

variable {a b q : Query} {code code' : CoreHash}

/-- The query has a canonical form, and this is its code. -/
def HasCode (q : Query) (code : CoreHash) : Prop :=
  ∃ form, canonicalForm q false = .ok form ∧ form.code = code

namespace HasCode

theorem unique (h : q.HasCode code) (h' : q.HasCode code') : code = code' := by
  obtain ⟨form, hform, rfl⟩ := h
  obtain ⟨form', hform', rfl⟩ := h'
  rw [hform] at hform'
  cases hform'
  rfl

/-- A query with its code is a core. -/
theorem coded (h : q.HasCode code) (workers : Nat) (timeout : Option Nat) :
    Core.Coded (.ofWorkers workers timeout) ⟨q, code⟩ := by
  obtain ⟨form, hform, rfl⟩ := h
  exact ⟨_, Pattern.standsFor_canonicalPattern q, 0, form, hform, rfl⟩

/-- Queries with the same answers have the same code. -/
theorem eq_of_agrees (ha : a.HasCode code) (hb : b.HasCode code') (h : a.Agrees b) : code = code' := by
  obtain ⟨form, hform, rfl⟩ := hb
  exact (ha.coded 1 none).hash_eq hform h

/-- Queries with the same code have the same answers. -/
theorem agrees (ha : a.HasCode code) (hb : b.HasCode code) : a.Agrees b :=
  (ha.coded 1 none).agrees (hb.coded 1 none) rfl

end HasCode

/-- A query has a code if and only if its core is within the limits. -/
theorem exists_hasCode_iff : (∃ code, q.HasCode code) ↔ (Pattern.ofQuery q).core.WithinLimits := by
  rw [← exists_canonicalForm_iff]
  constructor
  · rintro ⟨_, form, hform, _⟩
    exact ⟨form, hform⟩
  · rintro ⟨form, hform⟩
    exact ⟨_, form, hform, rfl⟩

end Query

/-! ### Sets of cores that have a query -/

/-- Some core has the answers of a query. -/
def HasCore (cores : List Core) (q : Query) : Prop := ∃ core ∈ cores, core.query.Agrees q

namespace HasCore

theorem congr (h : HasCore cores a) (hab : a.Agrees a') : HasCore cores a' := by
  obtain ⟨core, hcore, hagrees⟩ := h
  exact ⟨core, hcore, hagrees.trans hab⟩

theorem of_subset (h : HasCore cores q) (hsub : cores ⊆ cores') : HasCore cores' q := by
  obtain ⟨core, hcore, hagrees⟩ := h
  exact ⟨core, hsub hcore, hagrees⟩

theorem of_mem (h : core ∈ cores) : HasCore cores core.query := ⟨core, h, .refl _⟩

end HasCore

namespace CoreSet

variable {c : Canonicalizer} {set set' : CoreSet} {inherited i j : Nat} {code : CoreHash}

/-- A set is filled properly if its codes are those of its cores, and they are all coded. -/
structure Proper (c : Canonicalizer) (set : CoreSet) : Prop where
  coherent : set.Coherent
  coded : ∀ core ∈ set.cores.toList, core.Coded c

/-- A proper set has the query of every coded core whose code it has. -/
theorem Proper.hasCore (hset : set.Proper (.ofWorkers workers timeout))
    (hcore : core.Coded (.ofWorkers workers timeout)) (hmem : core.hash ∈ set.hashes) :
    HasCore set.cores.toList core.query := by
  obtain ⟨other, hother, hash⟩ := (hset.coherent _).1 hmem
  exact ⟨other, hother, (hset.coded other hother).agrees hcore hash⟩

/-- A proper set has the code of every query that it has. -/
theorem Proper.mem_hashes (hset : set.Proper (.ofWorkers workers timeout))
    (h : HasCore set.cores.toList q) (hcode : q.HasCode code) : code ∈ set.hashes := by
  obtain ⟨core, hcore, hagrees⟩ := h
  obtain ⟨form, hform, rfl⟩ := hcode
  exact (hset.coherent _).2 ⟨core, hcore, (hset.coded core hcore).hash_eq hform hagrees⟩

/-- Whatever is absorbed, the set has its query afterwards, also when more has been absorbed. -/
theorem Proper.hasCore_of_absorb {mid : CoreSet} (hset : set'.Proper (.ofWorkers workers timeout))
    {items : List (Query × Pattern)} (h : set.absorb (.ofWorkers workers timeout) items = .ok mid)
    (hkept : ∀ h ∈ mid.hashes, h ∈ set'.hashes) {item : Query × Pattern} (hitem : item ∈ items)
    (hstands : item.2.StandsFor item.1) : HasCore set'.cores.toList item.1 := by
  obtain ⟨cores, hgives, rfl⟩ := absorb_eq_ok h
  obtain ⟨core, hcore, hgive⟩ := exists_of_mem_left hgives hitem
  have hfound := hkept _ ((takes_foldl_insert set cores).found core hcore)
  exact hgive.query_eq ▸ hset.hasCore (hgive.coded hstands) hfound

theorem proper_of_close (h : set.close c limit inherited = .ok set') (hset : set.Proper c) :
    set'.Proper c where
  coherent := by
    obtain ⟨_, htakes⟩ := takes_of_close h
    exact htakes.coherent hset.coherent
  coded := all_of_close (Q := fun _ => True) (fun _ _ _ _ => trivial)
    (fun q _ _ hgives => hgives.coded (Pattern.standsFor_canonicalPattern q)) (fun _ _ => trivial) h
    hset.coded

theorem proper_of_anchor (h : set.anchor c inherited = .ok set') (hset : set.Proper c) :
    set'.Proper c where
  coherent := by
    obtain ⟨_, htakes⟩ := takes_of_absorb h
    exact htakes.coherent hset.coherent
  coded := all_of_anchor (Q := fun _ => True) (fun _ _ => trivial)
    (fun q _ _ hgives => hgives.coded (Pattern.standsFor_canonicalPattern q)) (fun _ _ => trivial) h
    hset.coded

/-- The anchored set has every core that is not inherited at the loops where it holds. -/
theorem hasCore_of_anchor (h : set.anchor (.ofWorkers workers timeout) inherited = .ok set')
    (hset : set.Proper (.ofWorkers workers timeout)) (hi : set.cores.toList[i]? = some core)
    (hinherited : inherited ≤ i) : HasCore set'.cores.toList (.intersect core.query .identity) := by
  have hmem : core ∈ set.cores.toList.drop inherited := by
    refine List.mem_of_getElem? (i := i - inherited) ?_
    rw [List.getElem?_drop, Nat.add_sub_cancel' hinherited]
    exact hi
  exact (proper_of_anchor h hset).hasCore_of_absorb h (fun _ => id)
    (List.mem_map_of_mem hmem) (Pattern.standsFor_canonicalPattern _)

/-! ### Codes of a closed set -/

theorem hasCode_of_gives {core : Core}
    (h : (Canonicalizer.ofWorkers workers timeout).Gives (folded q) core) : q.HasCode core.hash := by
  obtain ⟨_, number, form, hform, hcode⟩ := h
  exact ⟨form, hform, hcode.symm⟩

/-- A set that absorbs some queries has their codes, beside those that it had. -/
theorem mem_hashes_of_absorb {items : List (Query × Pattern)} (hset : set.Coherent)
    (hitems : ∀ item ∈ items, item = folded item.1)
    (h : set.absorb (.ofWorkers workers timeout) items = .ok set') :
    code ∈ set'.hashes ↔ code ∈ set.hashes ∨ ∃ item ∈ items, item.1.HasCode code := by
  obtain ⟨cores, hgives, rfl⟩ := absorb_eq_ok h
  have htakes := (takes_foldl_insert set cores).requests (n := set.requests + items.length)
  constructor
  · intro hcode
    obtain ⟨core, hcore, rfl⟩ := (htakes.coherent hset _).1 hcode
    rcases htakes.origin core hcore with hold | hnew
    · exact .inl ((hset _).2 ⟨core, hold, rfl⟩)
    · obtain ⟨item, hitem, hgive⟩ := exists_of_mem_right hgives hnew
      rw [hitems item hitem] at hgive
      exact .inr ⟨item, hitem, hasCode_of_gives hgive⟩
  · rintro (hcode | ⟨item, hitem, hcode⟩)
    · exact htakes.kept _ hcode
    · obtain ⟨core, hcore, hgive⟩ := exists_of_mem_left hgives hitem
      rw [hitems item hitem] at hgive
      rw [hcode.unique (hasCode_of_gives hgive)]
      exact htakes.found core hcore

theorem pairItems_folded : ∀ item ∈ set.pairItems inherited, item = folded item.1 := fun _ hitem =>
  (of_mem_pairItems (Q := fun _ => True) (fun _ _ => trivial) (fun _ _ _ _ => trivial) hitem).2

theorem largerItems_folded {n : Nat} {conflicts : Conflicts} :
    ∀ item ∈ set.largerItems inherited n conflicts, item = folded item.1 := fun _ hitem =>
  (of_mem_largerItems (Q := fun _ => True) (fun _ _ => trivial) (fun _ _ _ _ => trivial) hitem).2

/-- The codes of a closed set are those before and those of the intersections that are absorbed. -/
theorem mem_hashes_of_close (hset : set.Coherent)
    (h : set.close (.ofWorkers workers timeout) limit inherited = .ok set') :
    code ∈ set'.hashes ↔ code ∈ set.hashes ∨
      (∃ item ∈ set.pairItems inherited, item.1.HasCode code) ∨
      3 ≤ limit.getD set.cores.size ∧
        ∃ item ∈ set.largerItems inherited (limit.getD set.cores.size)
          (set.largerConflicts inherited), item.1.HasCode code := by
  obtain ⟨mid, hmid, hlarger⟩ := close_eq_ok h
  obtain ⟨_, htakes⟩ := takes_of_absorb hmid
  have hpairs : code ∈ mid.hashes ↔ code ∈ set.hashes ∨
      ∃ item ∈ set.pairItems inherited, item.1.HasCode code :=
    mem_hashes_of_absorb hset pairItems_folded hmid
  by_cases hfew : limit.getD set.cores.size < 3
  · rw [if_pos hfew] at hlarger
    simp only [hlarger, hpairs, Nat.not_le_of_lt hfew, false_and, or_false]
  · rw [if_neg hfew] at hlarger
    rw [mem_hashes_of_absorb (htakes.coherent hset) largerItems_folded hlarger, hpairs, or_assoc,
      and_iff_right (Nat.le_of_not_lt hfew)]

/-! ### Sets of queries with codes -/

/-- Queries within the limits can be made cores. -/
theorem exists_cores {qs : List Query} (h : ∀ q ∈ qs, (Pattern.ofQuery q).WithinLimits) :
    ∃ cores : List Core, cores.map Core.query = qs ∧ ∀ core ∈ cores, core.query.HasCode core.hash := by
  induction qs with
  | nil => exact ⟨[], rfl, fun _ hcore => nomatch hcore⟩
  | cons q qs ih =>
      rw [List.forall_mem_cons] at h
      obtain ⟨code, hcode⟩ := Query.exists_hasCode_iff.2 (h.1.core (Pattern.wellFormed_ofQuery q))
      obtain ⟨cores, rfl, hcores⟩ := ih h.2
      exact ⟨⟨q, code⟩ :: cores, rfl, List.forall_mem_cons.2 ⟨hcode, hcores⟩⟩

/-- Some queries with their codes make a proper set. -/
theorem proper_of_hasCode {cores : List Core} (requests : Nat)
    (h : ∀ core ∈ cores, core.query.HasCode core.hash) :
    Proper (.ofWorkers workers timeout) ⟨cores.toArray, .ofList (cores.map Core.hash), requests⟩ where
  coherent := by
    intro code
    rw [OrderedSet.mem_ofList]
    exact List.mem_map
  coded := fun core hcore => (h core hcore).coded workers timeout

end CoreSet

end PathQueryIndex
