/-
Module: PathQueryIndex.Proofs.Index.Representatives
Layer: Proofs
Purpose: One query for each code is enough. Queries with one form have the same answers, and what is composed
  of them, by concatenations and intersections around an open place, has the same answers again. Answers
  decide the form in turn, so it does not matter which of the two a block keeps: whatever it goes on to make
  of it has the form that it would have made of the other.
Imports: PathQueryIndex.Proofs.Index.Codes, PathQueryIndex.Proofs.Canonical.RoundTrip
Main exports: Query.Context, Query.Context.fill, Query.Agrees.fill, Query.SameForm,
  Query.forms_respect_composition, CoreSet.Proper.exists_representative
-/
import PathQueryIndex.Proofs.Index.Codes
import PathQueryIndex.Proofs.Canonical.RoundTrip

namespace PathQueryIndex

open Std

namespace Query

variable {a a' q q' : Query} {form form' : CanonicalForm}

/-! ### Queries with an open place -/

/-- A query with an open place, and the queries that stand before, behind or beside it. -/
inductive Context where
  | hole
  | before (c : Context) (second : Query)
  | behind (first : Query) (c : Context)
  | leftOf (c : Context) (right : Query)
  | rightOf (left : Query) (c : Context)

/-- Put a query into the open place. -/
def Context.fill (q : Query) : Context → Query
  | .hole => q
  | .before c second => .concat (c.fill q) second
  | .behind first c => .concat first (c.fill q)
  | .leftOf c right => .intersect (c.fill q) right
  | .rightOf left c => .intersect left (c.fill q)

/-- Queries with the same answers have the same answers in any place. -/
theorem Agrees.fill (h : a.Agrees a') (c : Context) : (c.fill a).Agrees (c.fill a') := by
  induction c with
  | hole => exact h
  | before c second ih => exact ih.concat (.refl second)
  | behind first c ih => exact (Agrees.refl first).concat ih
  | leftOf c right ih => exact ih.intersect (.refl right)
  | rightOf left c ih => exact (Agrees.refl left).intersect ih

/-! ### Forms -/

/-- If two queries have canonical forms, they have the same one. -/
def SameForm (q q' : Query) : Prop :=
  ∀ form form', canonicalForm q false = .ok form → canonicalForm q' false = .ok form' → form = form'

/-- Queries with canonical forms have the same code if and only if they have the same answers. -/
theorem code_eq_iff_agrees (h : canonicalForm q false = .ok form)
    (h' : canonicalForm q' false = .ok form') : form.code = form'.code ↔ q.Agrees q' := by
  have hq : q.HasCode form.code := ⟨form, h, rfl⟩
  have hq' : q'.HasCode form'.code := ⟨form', h', rfl⟩
  constructor
  · intro hcode
    exact hq.agrees (hcode ▸ hq')
  · exact hq.eq_of_agrees hq'

/-- Canonical forms with the same code are the same: their numbers fit the fields of the code. -/
theorem form_eq_of_code_eq (h : canonicalForm q false = .ok form)
    (h' : canonicalForm q' false = .ok form') (hcode : form.code = form'.code) : form = form' := by
  have hfits : ∀ q form, canonicalForm q false = .ok form → form.toFormParts.Fits := by
    intro q form h
    have h : (Canonicalizer.ofWorkers 1 none).resolve 0 (.ofPattern (canonicalPattern q false)) =
        .ok form := h
    exact (Canonicalizer.fits_of_resolve (Pattern.standsFor_canonicalPattern q).wellFormed h).1
  apply CanonicalForm.eq_of_toFormParts_eq
  exact FormParts.eq_of_encode_eq (hfits q form h) (hfits q' form' h') form.encoded (hcode ▸ form'.encoded)

/-- Queries with the same answers have the same form. -/
theorem Agrees.sameForm (hagrees : q.Agrees q') : q.SameForm q' := fun _ _ h h' =>
  form_eq_of_code_eq h h' ((code_eq_iff_agrees h h').2 hagrees)

/-- A step, and beside it the way there, back and there again. -/
def detour : Query := .intersect (.label ⟨0, false⟩)
  (.concat (.label ⟨0, false⟩) (.concat (.label ⟨0, true⟩) (.label ⟨0, false⟩)))

/-- Of two queries whose forms have the same code, either can stand for the other in whatever is composed:
    before or behind another query, to the left or to the right of one, anchored at a loop, or in any place
    of a larger query, the composed queries have the same form if they have forms. -/
theorem forms_respect_composition (h : canonicalForm a false = .ok form)
    (h' : canonicalForm a' false = .ok form') (hcode : form.code = form'.code) :
    (∀ b, (concat a b).SameForm (concat a' b) ∧ (concat b a).SameForm (concat b a') ∧
        (intersect a b).SameForm (intersect a' b) ∧ (intersect b a).SameForm (intersect b a')) ∧
      (intersect a identity).SameForm (intersect a' identity) ∧
      ∀ c : Context, (c.fill a).SameForm (c.fill a') := by
  have hagrees := (code_eq_iff_agrees h h').1 hcode
  have hfill : ∀ c : Context, (c.fill a).SameForm (c.fill a') := fun c => (hagrees.fill c).sameForm
  exact ⟨fun b => ⟨hfill (.before .hole b), hfill (.behind b .hole), hfill (.leftOf .hole b),
    hfill (.rightOf b .hole)⟩, hfill (.leftOf .hole identity), hfill⟩

/-- The detour has the form of the step, and with another step behind them the two still have one form. -/
theorem forms_respect_composition_detour : ∃ form form' : CanonicalForm,
    canonicalForm (.label ⟨0, false⟩) false = .ok form ∧ canonicalForm detour false = .ok form' ∧
      form.code = form'.code ∧ ∃ composed,
        canonicalForm (.concat (.label ⟨0, false⟩) (.label ⟨1, false⟩)) false = .ok composed ∧
          canonicalForm (.concat detour (.label ⟨1, false⟩)) false = .ok composed := by
  have hform : ∀ q : Query, 2 + q.nodes ≤ maxCanonicalNodes → q.Below 2 →
      ∃ form, canonicalForm q false = .ok form := fun q hnodes hlabels =>
    (exists_canonicalForm_iff q).2
      ((Pattern.withinLimits_ofQuery hnodes hlabels (by decide)).core (Pattern.wellFormed_ofQuery q))
  have hagrees : detour.Agrees (.label ⟨0, false⟩) :=
    Agrees.intersect_of_imp fun _ u v h => ⟨v, h, u, h, h⟩
  obtain ⟨form, h⟩ := hform (.label ⟨0, false⟩) (by decide) (by simp [Below])
  obtain ⟨form', h'⟩ := hform detour (by decide) (by simp [detour, Below])
  obtain ⟨composed, hc⟩ := hform (.concat (.label ⟨0, false⟩) (.label ⟨1, false⟩)) (by decide)
    (by simp [Below])
  obtain ⟨composed', hc'⟩ := hform (.concat detour (.label ⟨1, false⟩)) (by decide)
    (by simp [detour, Below])
  have hcode := (code_eq_iff_agrees h h').2 hagrees.symm
  have hsame := ((forms_respect_composition h h' hcode).1 (.label ⟨1, false⟩)).1 composed composed' hc hc'
  exact ⟨form, form', h, h', hcode, composed, hc, hsame ▸ hc'⟩

end Query

/-! ### Cores that are kept -/

namespace CoreSet

variable {workers : Nat} {timeout : Option Nat} {set : CoreSet} {core : Core}

/-- When a core comes to a proper set, a core with its code is in the set, be it this one or one from
    before; and whatever is composed of the one has the code of what is composed of the other in the same
    way. -/
theorem Proper.exists_representative (hset : set.Proper (.ofWorkers workers timeout))
    (hcore : core.Coded (.ofWorkers workers timeout)) :
    ∃ kept ∈ (set.insert core).cores.toList, kept.hash = core.hash ∧
      ∀ (c : Query.Context) (x x' : Core), x.Coded (.ofWorkers workers timeout) →
        x'.Coded (.ofWorkers workers timeout) → x.query = c.fill kept.query →
        x'.query = c.fill core.query → x.hash = x'.hash := by
  have htakes := takes_insert set core
  obtain ⟨kept, hkept, hash⟩ := (htakes.coherent hset.coherent core.hash).1
    (htakes.found core (List.mem_singleton_self core))
  have hcoded := htakes.all hset.coded (fun other hother => List.mem_singleton.1 hother ▸ hcore) kept hkept
  refine ⟨kept, hkept, hash, fun c x x' hx hx' hquery hquery' => ?_⟩
  rw [hx.hash_eq_iff hx', hquery, hquery']
  exact ((hcoded.hash_eq_iff hcore).1 hash).fill c

end CoreSet

end PathQueryIndex
