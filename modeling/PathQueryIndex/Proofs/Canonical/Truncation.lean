/-
Module: PathQueryIndex.Proofs.Canonical.Truncation
Layer: Proofs
Purpose: What the code of a form keeps of numbers that are too large for their fields. Only the number of
  nodes, the number of labels and the labels are checked; source, target, the counts of labels, the lengths
  of rows and the nodes in them are written with the low bits that their fields have room for. As long as the
  lengths of rows fit, the code is read as the graph with all other numbers reduced to their fields. So a form
  is read back from its code if and only if all its numbers fit, and only such forms are sure to differ in
  their codes if they differ.
Imports: PathQueryIndex.Proofs.Canonical.RoundTrip
Main exports: FormParts.truncate, FormParts.fieldsBits_truncate, FormParts.fits_truncate_iff,
  CanonicalForm.exists_ofParts_iff, CanonicalForm.read_back_iff_fits
-/
import PathQueryIndex.Proofs.Canonical.RoundTrip

namespace PathQueryIndex

namespace FormParts

variable {p q : FormParts} {code code' : List UInt8}

/-! ### Numbers reduced to their fields -/

/-- The graph that is left when source, target, counts and the nodes of rows are reduced to their fields. -/
def truncate (p : FormParts) : FormParts :=
  let bound := 2 ^ nodeWidth p.rows.length
  { source := p.source % bound
    target := p.target % bound
    labels := p.labels.map fun l => (l.1, l.2 % bound)
    rows := p.rows.map fun row => row.map (· % bound) }

@[simp] theorem length_rows_truncate (p : FormParts) : p.truncate.rows.length = p.rows.length :=
  List.length_map _

@[simp] theorem length_labels_truncate (p : FormParts) : p.truncate.labels.length = p.labels.length :=
  List.length_map _

/-- A graph and the graph with its numbers reduced are written with the same bits. -/
theorem fieldsBits_truncate (p : FormParts) : fieldsBits p.truncate.fields = fieldsBits p.fields := by
  have hlabels : p.truncate.labels.flatMap (labelBits (nodeWidth p.rows.length)) =
      p.labels.flatMap (labelBits (nodeWidth p.rows.length)) := by
    rw [truncate, List.flatMap_map]
    refine List.flatMap_congr fun l _ => ?_
    rw [labelBits, labelBits, fieldBits_mod]
  have hrows : p.truncate.rows.flatMap (rowBits (nodeWidth p.rows.length)) =
      p.rows.flatMap (rowBits (nodeWidth p.rows.length)) := by
    rw [truncate, List.flatMap_map]
    refine List.flatMap_congr fun row _ => ?_
    simp only [rowBits, List.length_map, List.flatMap_map, fieldBits_mod]
  rw [fieldsBits_fields, fieldsBits_fields, length_rows_truncate, length_labels_truncate, hlabels, hrows]
  simp only [truncate, fieldBits_mod]

/-- Reducing numbers to their fields does not touch what is checked. -/
theorem checkLimits_truncate : p.truncate.checkLimits = .ok () ↔ p.checkLimits = .ok () := by
  rw [checkLimits_eq_ok, checkLimits_eq_ok, length_rows_truncate, length_labels_truncate, truncate,
    List.forall_mem_map]

/-- What is reduced fits, if it passes the check and the lengths of its rows fit. -/
theorem fits_truncate_iff : p.truncate.Fits ↔
    p.checkLimits = .ok () ∧ ∀ row ∈ p.rows, row.length < 2 ^ nodeWidth p.rows.length := by
  have hpos : 0 < 2 ^ nodeWidth p.rows.length := Nat.two_pow_pos _
  constructor
  · intro hfits
    refine ⟨checkLimits_truncate.1 hfits.checkLimits, fun row hrow => ?_⟩
    have hlen := (hfits.row _ (List.mem_map_of_mem hrow)).1
    rw [List.length_map, length_rows_truncate] at hlen
    exact hlen
  · rintro ⟨hcheck, hlen⟩
    obtain ⟨hnodes, hlabels, hlabel⟩ := checkLimits_eq_ok.1 hcheck
    constructor
    case nodes => rwa [length_rows_truncate]
    case labelCount => rwa [length_labels_truncate]
    case source =>
      rw [length_rows_truncate]
      exact Nat.mod_lt _ hpos
    case target =>
      rw [length_rows_truncate]
      exact Nat.mod_lt _ hpos
    case label =>
      intro l hl
      obtain ⟨l', hl', rfl⟩ := List.mem_map.1 hl
      rw [length_rows_truncate]
      exact ⟨hlabel l' hl', Nat.mod_lt _ hpos⟩
    case row =>
      intro row hrow
      obtain ⟨row', hrow', rfl⟩ := List.mem_map.1 hrow
      rw [length_rows_truncate, List.length_map, List.forall_mem_map]
      exact ⟨hlen row' hrow', fun v _ => Nat.mod_lt _ hpos⟩

/-! ### Codes -/

/-- Graphs that are written with the same bits have the same code. -/
theorem code_eq_of_fieldsBits_eq (h : p.encode = .ok code) (h' : q.encode = .ok code')
    (hbits : fieldsBits p.fields = fieldsBits q.fields) : code = code' := by
  obtain ⟨k, hk, hcode⟩ := bytesBits_of_encode h
  obtain ⟨k', hk', hcode'⟩ := bytesBits_of_encode h'
  -- both codes are whole bytes, so the same bits have the same padding
  have hlen := congrArg List.length hcode
  have hlen' := congrArg List.length hcode'
  rw [length_bytesBits, List.length_append, List.length_replicate] at hlen hlen'
  rw [hbits] at hlen
  have hpadding : k = k' := by omega
  rw [← bytesBits_inj, hcode, hcode', hbits, hpadding]

/-- The code of a graph is read as the graph with its numbers reduced, if the lengths of its rows fit. -/
theorem decode_eq_truncate (h : p.encode = .ok code)
    (hlen : ∀ row ∈ p.rows, row.length < 2 ^ nodeWidth p.rows.length) :
    decode code = .ok p.truncate := by
  obtain ⟨_, hcheck, _⟩ := bind_eq_ok.1 h
  obtain ⟨code', h'⟩ := exists_encode (checkLimits_truncate.2 hcheck)
  rw [code_eq_of_fieldsBits_eq h h' (fieldsBits_truncate p).symm]
  exact decode_of_encode (fits_truncate_iff.2 ⟨hcheck, hlen⟩) h'

/-! ### Limits -/

/-- A number of the graph is over the limit. -/
def Exceeds (p : FormParts) : EncodingLimit → Prop
  | .nodes count => count = p.rows.length ∧ maxCanonicalNodes < count
  | .labels count => count = p.labels.length ∧ maxCanonicalLabel < count
  | .label label => maxCanonicalLabel < label ∧ ∃ l ∈ p.labels, l.1 = label

/-- What fails the check exceeds the limit that the error names. -/
theorem exceeds_of_checkLimits {e : Error} (h : p.checkLimits = .error e) :
    ∃ limit, e = .encoding limit ∧ p.Exceeds limit := by
  unfold checkLimits at h
  dsimp only at h
  split at h
  · rename_i hnodes
    cases h
    exact ⟨_, rfl, rfl, hnodes⟩
  · split at h
    · rename_i hlabels
      cases h
      exact ⟨_, rfl, rfl, hlabels⟩
    · split at h
      · rename_i label count hfind
        cases h
        have hover := List.find?_some hfind
        exact ⟨_, rfl, of_decide_eq_true hover, _, List.mem_of_find?_eq_some hfind, rfl⟩
      · cases h

/-- Nothing fails but the check. -/
theorem checkLimits_of_encode {e : Error} (h : p.encode = .error e) : p.checkLimits = .error e := by
  cases hcheck : p.checkLimits with
  | ok _ =>
      obtain ⟨code, hcode⟩ := exists_encode hcheck
      rw [hcode] at h
      cases h
  | error e' =>
      rw [encode, hcheck] at h
      cases h
      rfl

end FormParts

namespace CanonicalForm

variable {p q : FormParts} {form form' : CanonicalForm}

/-- There is a form of every graph that passes the check. -/
theorem exists_ofParts_iff : (∃ form, ofParts p = .ok form) ↔ p.checkLimits = .ok () := by
  have hsort : p.sortRows.checkLimits = .ok () ↔ p.checkLimits = .ok () := by
    rw [FormParts.checkLimits_eq_ok, FormParts.checkLimits_eq_ok, FormParts.sortRows, List.length_map]
  rw [← hsort]
  constructor
  · rintro ⟨form, hform⟩
    obtain ⟨_, hcheck, _⟩ := bind_eq_ok.1 form.encoded
    rwa [ofParts_eq_ok hform] at hcheck
  · intro hcheck
    obtain ⟨code, hcode⟩ := FormParts.exists_encode hcheck
    obtain ⟨form, hform, _⟩ := exists_ofParts hcode
    exact ⟨form, hform⟩

/-- A graph that has no form exceeds the limit that the error names. -/
theorem exceeds_of_ofParts {e : Error} (h : ofParts p = .error e) :
    ∃ limit, e = .encoding limit ∧ p.Exceeds limit := by
  unfold ofParts at h
  split at h
  · cases h
  · rename_i hencode
    cases h
    obtain ⟨limit, rfl, hexceeds⟩ :=
      FormParts.exceeds_of_checkLimits (FormParts.checkLimits_of_encode hencode)
    refine ⟨limit, rfl, ?_⟩
    cases limit with
    | nodes count => exact ⟨hexceeds.1.trans (List.length_map _), hexceeds.2⟩
    | labels count => exact hexceeds
    | label label => exact hexceeds

/-- The code of a form is read as the form if and only if its numbers fit. -/
theorem ofCode_code_iff (h : ofParts p = .ok form) : ofCode form.code = .ok form ↔ p.Fits := by
  have hparts := ofParts_eq_ok h
  constructor
  · intro hread
    obtain ⟨q, hq, hsame⟩ := ofCode_eq_ok hread
    rw [← FormParts.fits_sortRows_iff, ← hparts, hsame]
    exact (FormParts.decode_eq_ok hq).1.sortRows
  · intro hfits
    exact ofCode_code hparts hfits.sortRows

/-- A numbered graph has a form if it passes the check of its numbers of nodes and labels and of its labels,
    and otherwise it is refused for one of them. The form has all its numbers. Its code has them if they fit
    their fields: it is read as the form just then, and forms whose numbers fit have the same code just if
    they are the same. If other numbers than the lengths of rows do not fit, they are read back reduced. -/
theorem read_back_iff_fits (p : FormParts) :
    ((∃ form, ofParts p = .ok form) ↔ p.rows.length ≤ maxCanonicalNodes ∧
      p.labels.length ≤ maxCanonicalLabel ∧ ∀ l ∈ p.labels, l.1 ≤ maxCanonicalLabel) ∧
    (∀ e, ofParts p = .error e → ∃ limit, e = .encoding limit ∧ p.Exceeds limit) ∧
    (∀ form, ofParts p = .ok form → form.toFormParts = p.sortRows ∧
      (ofCode form.code = .ok form ↔ p.Fits) ∧
      ((∀ row ∈ p.rows, row.length < 2 ^ nodeWidth p.rows.length) →
        FormParts.decode form.code = .ok p.sortRows.truncate)) ∧
    ∀ q form form', p.Fits → q.Fits → ofParts p = .ok form → ofParts q = .ok form' →
      (form.code = form'.code ↔ p.sortRows = q.sortRows) := by
  refine ⟨?_, fun e => exceeds_of_ofParts, fun form h => ?_, fun q form form' hp hq h h' => ?_⟩
  · rw [exists_ofParts_iff, FormParts.checkLimits_eq_ok]
  · have hparts := ofParts_eq_ok h
    refine ⟨hparts, ofCode_code_iff h, fun hlen => ?_⟩
    have hencoded := form.encoded
    rw [hparts] at hencoded
    refine FormParts.decode_eq_truncate hencoded fun row hrow => ?_
    obtain ⟨unsorted, hmem, rfl⟩ := List.mem_map.1 hrow
    rw [length_sorted, FormParts.sortRows, List.length_map]
    exact hlen unsorted hmem
  · rw [← ofParts_eq_ok h, ← ofParts_eq_ok h']
    constructor
    · intro hcode
      have hfits := ofParts_eq_ok h ▸ hp.sortRows
      have hfits' := ofParts_eq_ok h' ▸ hq.sortRows
      exact FormParts.eq_of_encode_eq hfits hfits' form.encoded (hcode ▸ form'.encoded)
    · intro hsame
      rw [eq_of_toFormParts_eq hsame]

/-- The graph of three nodes that stands for a label is read back. On a single node no bit is left for the
    length of its row, so a loop and no loop have the same code. -/
theorem read_back_iff_fits_loop :
    (∃ form, ofParts ⟨0, 1, [(1, 1)], [[2], [], [1]]⟩ = .ok form ∧ ofCode form.code = .ok form) ∧
    ∃ form form', ofParts ⟨0, 0, [], [[0]]⟩ = .ok form ∧ ofParts ⟨0, 0, [], [[]]⟩ = .ok form' ∧
      form.code = form'.code ∧ form.rows = [[0]] ∧ form'.rows = [[]] ∧
      ofCode form.code ≠ .ok form ∧ ofCode form'.code = .ok form' := by
  constructor
  · obtain ⟨hexists, _, hread, _⟩ := read_back_iff_fits ⟨0, 1, [(1, 1)], [[2], [], [1]]⟩
    obtain ⟨form, hform⟩ := hexists.2 (by decide)
    exact ⟨form, hform, (hread form hform).2.1.2
      ⟨by decide, by decide, by decide, by decide, by decide, by decide⟩⟩
  · have hloop : (FormParts.mk 0 0 [] [[0]]).sortRows.encode = .ok [0, 64] := by cbv
    have hnone : (FormParts.mk 0 0 [] [[]]).sortRows.encode = .ok [0, 64] := by cbv
    obtain ⟨form, hform, hcode⟩ := exists_ofParts hloop
    obtain ⟨form', hform', hcode'⟩ := exists_ofParts hnone
    obtain ⟨_, _, hread, _⟩ := read_back_iff_fits ⟨0, 0, [], [[0]]⟩
    obtain ⟨_, _, hread', _⟩ := read_back_iff_fits ⟨0, 0, [], [[]]⟩
    obtain ⟨hparts, hiff, _⟩ := hread form hform
    obtain ⟨hparts', hiff', _⟩ := hread' form' hform'
    refine ⟨form, form', hform, hform', hcode.trans hcode'.symm, ?_, ?_, fun hsame => ?_, ?_⟩
    · rw [hparts]
      cbv
    · rw [hparts']
      cbv
    · have hlen := ((hiff.1 hsame).row [0] (List.mem_singleton_self _)).1
      exact absurd hlen (by decide)
    · exact hiff'.2 ⟨by decide, by decide, by decide, by decide, by decide, by decide⟩

end CanonicalForm

end PathQueryIndex
