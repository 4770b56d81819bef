/-
Module: PathQueryIndex.Proofs.Pattern.Least
Layer: Proofs
Purpose: The core of a pattern is the least pattern that says the same. A rigid pattern lies in every pattern
  that it maps to and back from: the map there takes no value twice. So it has no more points than any of
  these, and those that have as many are rigid themselves. Hence counting points is enough to tell whether
  a pattern is a core already.
Imports: PathQueryIndex.Proofs.Pattern.Core, PathQueryIndex.Proofs.Pattern.Meaning
Main exports: Pattern.Rigid.exists_embedding, Pattern.Rigid.vertexCount_le, Pattern.exists_embedding_core,
  Pattern.vertexCount_core_eq_iff_rigid, Pattern.core_is_least
-/
import PathQueryIndex.Proofs.Pattern.Core
import PathQueryIndex.Proofs.Pattern.Meaning

namespace PathQueryIndex

namespace Pattern

variable {p q : Pattern} {f : Nat → Nat}

/-! ### Rigid patterns and the patterns equivalent to them -/

theorem Rigid.exists_embedding (hp : p.Rigid) (e : p.Equivalent q) : ∃ f, Embedding p q f := by
  obtain ⟨⟨f, hf⟩, h, hh⟩ := e
  exact ⟨f, hp.embedding hf hh⟩

/-- No pattern that is equivalent to a rigid one has fewer points. -/
theorem Rigid.vertexCount_le (hp : p.Rigid) (e : p.Equivalent q) : p.vertexCount ≤ q.vertexCount := by
  obtain ⟨f, hf⟩ := hp.exists_embedding e
  exact hf.vertexCount_le

/-- A pattern that is equivalent to a rigid one and has as many points is rigid. -/
theorem Rigid.of_vertexCount_eq (hp : p.Rigid) (e : p.Equivalent q)
    (h : q.vertexCount = p.vertexCount) : q.Rigid := by
  intro f hf x hx
  obtain ⟨⟨into, hinto⟩, back, hback⟩ := e
  have hcomp := hinto.comp hf
  -- The way into `q` and on along `f` takes no value twice, so it hits all points of `q`.
  have hren : Renaming p.vertexCount (f ∘ into) :=
    ⟨fun v hv => h ▸ hcomp.inRange v hv, (hp.embedding hcomp hback).inj⟩
  obtain ⟨v, hv, heq⟩ := hren.exists_eq (h ▸ hx)
  exact ⟨into v, hinto.inRange v hv, heq⟩

/-- A pattern is rigid if and only if all its maps to itself are isomorphisms. -/
theorem rigid_iff_isomorphism (hp : p.WellFormed) :
    p.Rigid ↔ ∀ f, Homomorphism p p f → Isomorphism p p f := by
  constructor
  · intro h f hf
    exact h.isomorphism hp hp h hf hf
  · intro h f hf x hx
    exact (h f hf).renames.exists_eq hx

/-! ### Cores -/

/-- The core of a pattern is a subgraph of it. -/
theorem exists_embedding_core (hp : p.WellFormed) : ∃ f, Embedding p.core p f :=
  (rigid_core hp).exists_embedding (equivalent_core hp).symm

/-- A pattern is rigid if and only if its core has as many points. -/
theorem vertexCount_core_eq_iff_rigid (hp : p.WellFormed) :
    p.core.vertexCount = p.vertexCount ↔ p.Rigid := by
  have hcore := rigid_core hp
  have e := equivalent_core hp
  constructor
  · intro h
    exact hcore.of_vertexCount_eq e.symm h.symm
  · intro h
    exact Nat.le_antisymm (hcore.vertexCount_le e.symm) (h.vertexCount_le e)

/-- The core of the pattern of a query maps into the pattern and back, it is a subgraph of the pattern with
    source and target, all its maps to itself are isomorphisms, and no equivalent pattern has fewer points.
    The core has as many points as the pattern if and only if all maps of the pattern to itself are
    isomorphisms already. -/
theorem core_is_least (q : Query) :
    (ofQuery q).Equivalent (ofQuery q).core ∧
    (∃ f, Embedding (ofQuery q).core (ofQuery q) f) ∧
    (∀ f, Homomorphism (ofQuery q).core (ofQuery q).core f →
      Isomorphism (ofQuery q).core (ofQuery q).core f) ∧
    (∀ p, (ofQuery q).Equivalent p → (ofQuery q).core.vertexCount ≤ p.vertexCount) ∧
    ((ofQuery q).core.vertexCount = (ofQuery q).vertexCount ↔
      ∀ f, Homomorphism (ofQuery q) (ofQuery q) f → Isomorphism (ofQuery q) (ofQuery q) f) := by
  have hq := wellFormed_ofQuery q
  have hcore := rigid_core hq
  have e := equivalent_core hq
  refine ⟨e, exists_embedding_core hq, ?_, fun p hp => ?_, ?_⟩
  · exact (rigid_iff_isomorphism (wellFormed_core hq)).1 hcore
  · exact hcore.vertexCount_le (e.symm.trans hp)
  · rw [vertexCount_core_eq_iff_rigid hq]
    exact rigid_iff_isomorphism hq

end Pattern

end PathQueryIndex
