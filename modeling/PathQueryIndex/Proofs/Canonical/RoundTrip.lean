/-
Module: PathQueryIndex.Proofs.Canonical.RoundTrip
Layer: Proofs
Purpose: Forms and their codes say the same. The code of a form is read as the form, whichever order of the
  nodes the form comes from. Some bytes that are read as a form may write its rows in another order, or have
  other bits behind its fields than zeros; if they do not, they are the code of the form.
Imports: PathQueryIndex.Proofs.Canonical.Fields, PathQueryIndex.Proofs.Pattern.Meaning, Mathlib
Main exports: CanonicalForm.ofCode_code, CanonicalForm.length_code, CanonicalForm.code_eq_iff,
  CanonicalForm.code_is_faithful
-/
import PathQueryIndex.Proofs.Canonical.Fields
import PathQueryIndex.Proofs.Pattern.Meaning
import Mathlib

namespace PathQueryIndex.CanonicalForm

variable {form form' : CanonicalForm} {p : FormParts} {code : List UInt8} {padding : List Bool}

/-- The numbered graph determines the form. -/
theorem eq_of_toFormParts_eq (h : form.toFormParts = form'.toFormParts) : form = form' := by
  have hcode := form.encoded
  rw [h, form'.encoded] at hcode
  cases form
  cases form'
  cases h
  cases hcode
  rfl

theorem ofCode_eq_ok (h : ofCode code = .ok form) :
    ∃ p, FormParts.decode code = .ok p ∧ form.toFormParts = p.sortRows := by
  obtain ⟨p, hp, hform⟩ := bind_eq_ok.1 h
  exact ⟨p, hp, ofParts_eq_ok hform⟩

/-- The code of a form is read as the form, if its numbers fit. -/
theorem ofCode_code (hform : form.toFormParts = p.sortRows) (hfits : p.sortRows.Fits) :
    ofCode form.code = .ok form := by
  have hencoded := form.encoded
  rw [hform] at hencoded
  have hdecode := FormParts.decode_of_encode hfits hencoded
  -- Rows that are sorted already are sorted again.
  have hsorted : p.sortRows.sortRows = p.sortRows := by
    apply FormParts.sortRows_eq_self_iff.2
    intro row hrow
    obtain ⟨unsorted, _, rfl⟩ := List.mem_map.1 hrow
    exact (pairwise_sorted unsorted).imp fun hle => Nat.isLE_compare.1 hle
  rw [← hsorted] at hencoded
  obtain ⟨read, hread, _⟩ := exists_ofParts hencoded
  have hsame : read = form := by
    apply eq_of_toFormParts_eq
    rw [ofParts_eq_ok hread, hsorted, hform]
  exact bind_eq_ok.2 ⟨p.sortRows, hdecode, hsame ▸ hread⟩

section Read

variable (hform : form.toFormParts = p.sortRows)
  (hbits : bytesBits code = fieldsBits p.fields ++ padding) (hshort : padding.length < 8)

include hform in
/-- The code of a form, as the fields of the graph with sorted rows and zeros behind them. -/
theorem bytesBits_code :
    ∃ k < 8, bytesBits form.code = fieldsBits p.sortRows.fields ++ List.replicate k false := by
  apply FormParts.bytesBits_of_encode
  rw [← hform]
  exact form.encoded

include hform hbits hshort in
/-- The code of the form is as long as the bytes that the form was read from. -/
theorem length_code : form.code.length = code.length := by
  obtain ⟨k, hk, hcode⟩ := bytesBits_code hform
  have hlen := congrArg List.length hbits
  have hlen' := congrArg List.length hcode
  rw [length_bytesBits, List.length_append] at hlen hlen'
  rw [List.length_replicate, FormParts.length_fieldsBits_sortRows] at hlen'
  omega

include hform hbits hshort in
/-- The code of the form is what the form was read from, if rows and padding were as they are written. -/
theorem code_eq_iff (hdecode : FormParts.decode code = .ok p) :
    form.code = code ↔ (∀ row ∈ p.rows, row.Pairwise (· ≤ ·)) ∧ ∀ b ∈ padding, b = false := by
  obtain ⟨k, hk, hcode⟩ := bytesBits_code hform
  have hlen : (bytesBits form.code).length = (bytesBits code).length := by
    rw [length_bytesBits, length_bytesBits, length_code hform hbits hshort]
  rw [hcode, hbits, List.length_append, List.length_append, FormParts.length_fieldsBits_sortRows,
    List.length_replicate] at hlen
  have hpadding : padding.length = k := (Nat.add_left_cancel hlen).symm
  rw [← FormParts.sortRows_eq_self_iff, ← List.eq_replicate_length, hpadding]
  constructor
  · intro heq
    have hencoded := form.encoded
    rw [hform, heq] at hencoded
    have hread := FormParts.decode_of_encode (FormParts.decode_eq_ok hdecode).1.sortRows hencoded
    rw [hdecode] at hread
    have hsorted : p.sortRows = p := (Except.ok.inj hread).symm
    rw [heq, hbits, hsorted] at hcode
    exact ⟨hsorted, List.append_cancel_left hcode⟩
  · intro ⟨hsorted, hzeros⟩
    rw [← bytesBits_inj, hcode, hbits, hsorted, hzeros]

end Read

/-- The code of a form that a pattern within the limits has in some order of its nodes is read as the form.
    Whatever bytes are read as a form, the code of the form is as long, and is read as the form too; and it
    is those bytes if and only if all rows were ascending and the bits behind the fields, which are less than
    a byte, were zeros. -/
theorem code_is_faithful :
    (∀ (p : Pattern) (order : List Nat), p.WellFormed → p.WithinLimits →
      order.Perm (List.range (ColoredGraph.ofPattern p).nodeCount) →
        ∃ form, ofOrder (.ofPattern p) order = .ok form ∧
          form.toFormParts = (partsOfOrder (.ofPattern p) order).sortRows ∧
          ofCode form.code = .ok form) ∧
    ∀ (code : List UInt8) (form : CanonicalForm), ofCode code = .ok form →
      form.code.length = code.length ∧ ofCode form.code = .ok form ∧
      ∃ p padding, FormParts.decode code = .ok p ∧ form.toFormParts = p.sortRows ∧
        bytesBits code = fieldsBits p.fields ++ padding ∧ padding.length < 8 ∧
        (form.code = code ↔
          (∀ row ∈ p.rows, row.Pairwise (· ≤ ·)) ∧ ∀ b ∈ padding, b = false) := by
  constructor
  · intro p order hp hlimits hperm
    obtain ⟨form, hform⟩ := Pattern.exists_ofOrder hlimits hperm
    have hparts := ofOrder_eq_ok hform
    exact ⟨form, hform, hparts, ofCode_code hparts (Pattern.fits_partsOfOrder hperm hp hlimits)⟩
  · intro code form h
    obtain ⟨p, hp, hform⟩ := ofCode_eq_ok h
    obtain ⟨hfits, padding, hbits, hshort⟩ := FormParts.decode_eq_ok hp
    exact ⟨length_code hform hbits hshort, ofCode_code hform hfits.sortRows, p, padding, hp, hform,
      hbits, hshort, code_eq_iff hform hbits hshort hp⟩

/-- A pattern of three points and two edges in an order that is not canonical, and bytes that write the row
    of a node as 2 and 1, with a bit behind the fields that is not zero. -/
theorem code_is_faithful_unsorted :
    (∃ form, ofOrder (.ofPattern (.ofQuery (.concat (.label ⟨0, false⟩) (.label ⟨1, true⟩))))
      [4, 2, 0, 3, 1] = .ok form ∧ ofCode form.code = .ok form) ∧
    ∃ form, ofCode [0, 196, 20, 129] = .ok form ∧ form.rows = [[1, 2], [], []] ∧
      form.code.length = 4 ∧ ofCode form.code = .ok form ∧ form.code ≠ [0, 196, 20, 129] := by
  constructor
  · have hlimits : (Pattern.ofQuery (.concat (.label ⟨0, false⟩) (.label ⟨1, true⟩))).WithinLimits :=
      of_decide_eq_true (by cbv)
    have hcount : (ColoredGraph.ofPattern
        (.ofQuery (.concat (.label ⟨0, false⟩) (.label ⟨1, true⟩)))).nodeCount = 5 := by cbv
    obtain ⟨form, hform, _, hread⟩ := code_is_faithful.1 _ [4, 2, 0, 3, 1]
      (Pattern.wellFormed_ofQuery _) hlimits (by rw [hcount]; decide)
    exact ⟨form, hform, hread⟩
  · have hdecode : FormParts.decode [0, 196, 20, 129] = .ok ⟨0, 1, [], [[2, 1], [], []]⟩ := by cbv
    have hsorted : (FormParts.mk 0 1 [] [[2, 1], [], []]).sortRows = ⟨0, 1, [], [[1, 2], [], []]⟩ := by
      cbv
    have hencode : (FormParts.mk 0 1 [] [[2, 1], [], []]).sortRows.encode = .ok [0, 196, 19, 0] := by
      cbv
    obtain ⟨form, hform, _⟩ := exists_ofParts hencode
    have hread : ofCode [0, 196, 20, 129] = .ok form := bind_eq_ok.2 ⟨_, hdecode, hform⟩
    obtain ⟨hlen, hagain, p, padding, hp, hparts, _, _, hsame⟩ := code_is_faithful.2 _ _ hread
    rw [hdecode] at hp
    cases hp
    rw [hsorted] at hparts
    have hdiffer : form.code ≠ [0, 196, 20, 129] := by
      intro heq
      exact absurd ((hsame.1 heq).1 [2, 1] (List.mem_cons_self ..)) (by decide)
    exact ⟨form, hread, congrArg FormParts.rows hparts, hlen, hagain, hdiffer⟩

end PathQueryIndex.CanonicalForm
