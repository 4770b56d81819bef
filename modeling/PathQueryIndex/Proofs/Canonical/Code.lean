/-
Module: PathQueryIndex.Proofs.Canonical.Code
Layer: Proofs
Purpose: The binary code of a numbered graph loses nothing. A reading is described by the bits that it takes
  from the front and the value that it gives, and descriptions compose as readings do. Every number of a
  graph that fits its field is read back, so the code of such a graph is read as the graph; and a graph
  that is read fits its fields, and was read from their bits.
Imports: PathQueryIndex.CanonicalForm, PathQueryIndex.Proofs.BitField, Mathlib.Data.List.Basic
Main exports: lt_two_pow_nodeWidth, FieldReader.Reads, FieldReader.Takes, FormParts.checkLimits_eq_ok,
  FormParts.Fits, FormParts.reads_parts, FormParts.takes_parts, FormParts.exists_encode,
  FormParts.decode_of_encode, FormParts.decode_eq_ok, FormParts.eq_of_encode_eq,
  FormParts.sortRows_eq_self_iff, FormParts.fits_sortRows_iff
-/
import PathQueryIndex.CanonicalForm
import PathQueryIndex.Proofs.BitField
import Mathlib.Data.List.Basic

namespace PathQueryIndex

variable {v n width value : Nat}

/-! ### Widths -/

/-- Every node has a name of the width for all nodes. -/
theorem lt_two_pow_nodeWidth (h : v < n) : v < 2 ^ nodeWidth n := by
  unfold nodeWidth
  split
  · rw [Nat.pow_zero]
    omega
  · have hlog : n - 1 < 2 ^ ((n - 1).log2 + 1) := Nat.lt_log2_self
    omega

theorem nodeWidth_le (h : n ≤ maxCanonicalNodes) : nodeWidth n ≤ maxFieldWidth := by
  have h : n ≤ 1023 := h
  unfold nodeWidth
  split
  · exact Nat.zero_le _
  · have hlog : (n - 1).log2 < 10 := (Nat.log2_lt (by omega)).2 (by omega)
    have hmax : maxFieldWidth = 32 := rfl
    omega

/-! ### Readings -/

namespace FieldReader

variable {α β : Type} {bits bits' : List Bool} {a : α} {b : β}

/-- Whatever follows them, the reading takes the bits and gives the value. -/
def Reads (m : FieldReader α) (bits : List Bool) (a : α) : Prop :=
  ∀ (r : BitReader) (rest : List Bool), r.unread = bits ++ rest →
    ∃ next : BitReader, m r = .ok (a, next) ∧ next.unread = rest

theorem reads_pure (a : α) : Reads (pure a) [] a :=
  fun r _ hr => ⟨r, rfl, hr⟩

theorem Reads.bind {m : FieldReader α} {f : α → FieldReader β} (hm : Reads m bits a)
    (hf : Reads (f a) bits' b) : Reads (m >>= f) (bits ++ bits') b := by
  intro r rest hr
  rw [List.append_assoc] at hr
  obtain ⟨middle, hmiddle, hunread⟩ := hm r _ hr
  obtain ⟨next, hnext, hrest⟩ := hf middle rest hunread
  refine ⟨next, ?_, hrest⟩
  change (m r >>= fun x => f x.1 x.2) = _
  rw [hmiddle]
  exact hnext

/-- Something is done with the value read. -/
theorem Reads.map {m : FieldReader α} {f : α → FieldReader β} (hm : Reads m bits a)
    (hf : f a = pure b) : Reads (m >>= f) bits b := by
  have hpure : Reads (f a) [] b := hf ▸ reads_pure b
  have hbind := hm.bind hpure
  rw [List.append_nil] at hbind
  exact hbind

/-- A number that fits its field is read from the bits of the field. -/
theorem reads_field (hwidth : width ≤ maxFieldWidth) (hvalue : value < 2 ^ width) :
    Reads (field width) (fieldBits value width) value := by
  intro r rest hr
  have hlen : r.unread.length = width + rest.length := by
    rw [hr, List.length_append, length_fieldBits]
  have hremaining : width ≤ r.remaining := by
    rw [r.remaining_eq, hlen]
    exact Nat.le_add_right ..
  have htake : r.unread.take width = fieldBits value width := by
    rw [hr, List.take_left' (length_fieldBits ..)]
  have hdrop : r.unread.drop width = rest := by
    rw [hr, List.drop_left' (length_fieldBits ..)]
  have hcheck : checkWidth width = .ok () := if_neg (Nat.not_lt.2 hwidth)
  unfold field BitReader.read
  rw [hcheck]
  change ∃ next, (if h : width ≤ r.remaining then _ else _) = _ ∧ _
  rw [dif_pos hremaining, htake, bitsValue_fieldBits hvalue]
  exact ⟨_, rfl, hdrop⟩

/-- The same reading several times over gives the values in order. -/
theorem reads_times {item : FieldReader α} {code : α → List Bool} {xs : List α}
    (h : ∀ x ∈ xs, Reads item (code x) x) : Reads (times xs.length item) (xs.flatMap code) xs := by
  induction xs with
  | nil => exact reads_pure []
  | cons x xs ih =>
      have hrest := ih fun y hy => h y (List.mem_cons_of_mem _ hy)
      exact (h x (List.mem_cons_self ..)).bind (hrest.map rfl)

/-- Whenever the reading gives a value, the value is as described, and what it took from the front is the
    code of the value. -/
def Takes (m : FieldReader α) (code : α → List Bool) (described : α → Prop) : Prop :=
  ∀ (r next : BitReader) (a : α), m r = .ok (a, next) →
    described a ∧ r.unread = code a ++ next.unread

/-- A sequence of readings succeeds if the first does and the second does with what the first leaves. -/
theorem bind_apply_eq_ok {m : FieldReader α} {f : α → FieldReader β} {r next : BitReader} :
    (m >>= f) r = .ok (b, next) ↔ ∃ a middle, m r = .ok (a, middle) ∧ f a middle = .ok (b, next) := by
  have hbind : (m >>= f) r = m r >>= fun x => f x.1 x.2 := rfl
  rw [hbind, bind_eq_ok]
  exact Prod.exists

/-- A number that is read has the width of its field. -/
theorem takes_field (width : Nat) :
    Takes (field width) (fun value => fieldBits value width) fun value => value < 2 ^ width := by
  intro r next value h
  obtain ⟨_, _, h⟩ := bind_eq_ok.1 h
  split at h
  · rename_i hremaining
    cases h
    have hlen : (r.unread.take width).length = width := by
      rw [List.length_take, ← r.remaining_eq]
      exact Nat.min_eq_left hremaining
    have hlt := bitsValue_lt (r.unread.take width)
    have hbits := fieldBits_bitsValue (r.unread.take width)
    rw [hlen] at hlt hbits
    refine ⟨hlt, ?_⟩
    dsimp only
    rw [hbits, List.take_append_drop]
  · cases h

theorem takes_times {item : FieldReader α} {code : α → List Bool} {described : α → Prop}
    (h : Takes item code described) (n : Nat) :
    Takes (times n item) (fun xs => xs.flatMap code) fun xs =>
      xs.length = n ∧ ∀ x ∈ xs, described x := by
  intro r next xs hxs
  induction n generalizing r xs with
  | zero =>
      cases hxs
      simp
  | succ n ih =>
      obtain ⟨x, middle, hx, hxs⟩ := bind_apply_eq_ok.1 hxs
      obtain ⟨xs, last, hrest, hxs⟩ := bind_apply_eq_ok.1 hxs
      cases hxs
      obtain ⟨hdescribed, hfirst⟩ := h _ _ _ hx
      obtain ⟨⟨hlen, hall⟩, hunread⟩ := ih _ _ hrest
      simp [hlen, hdescribed, hfirst, hunread]
      exact hall

end FieldReader

/-! ### Numbered graphs -/

namespace FormParts

open FieldReader

variable {p p' : FormParts} {code : List UInt8}

/-- What is checked before a numbered graph is written. -/
theorem checkLimits_eq_ok : p.checkLimits = .ok () ↔
    p.rows.length ≤ maxCanonicalNodes ∧ p.labels.length ≤ maxCanonicalLabel ∧
      ∀ l ∈ p.labels, l.1 ≤ maxCanonicalLabel := by
  have hfind : p.labels.find? (fun l => decide (maxCanonicalLabel < l.1)) = none ↔
      ∀ l ∈ p.labels, l.1 ≤ maxCanonicalLabel := by simp
  unfold checkLimits
  rw [← hfind]
  dsimp only
  split
  · rename_i hnodes
    exact ⟨fun h => (nomatch h), fun h => absurd h.1 (Nat.not_le_of_lt hnodes)⟩
  · rename_i hnodes
    split
    · rename_i hlabels
      exact ⟨fun h => (nomatch h), fun h => absurd h.2.1 (Nat.not_le_of_lt hlabels)⟩
    · rename_i hlabels
      split
      · rename_i hsome
        rw [hsome]
        exact ⟨fun h => (nomatch h), fun h => (nomatch h.2.2)⟩
      · rename_i hnone
        refine ⟨fun _ => ⟨Nat.le_of_not_lt hnodes, Nat.le_of_not_lt hlabels, ?_⟩, fun _ => rfl⟩
        exact Option.eq_none_iff_forall_ne_some.2 fun l => hnone l.1 l.2

/-- Every number of the graph fits its field. -/
structure Fits (p : FormParts) : Prop where
  nodes : p.rows.length ≤ maxCanonicalNodes
  labelCount : p.labels.length ≤ maxCanonicalLabel
  source : p.source < 2 ^ nodeWidth p.rows.length
  target : p.target < 2 ^ nodeWidth p.rows.length
  label : ∀ l ∈ p.labels, l.1 ≤ maxCanonicalLabel ∧ l.2 < 2 ^ nodeWidth p.rows.length
  row : ∀ row ∈ p.rows, row.length < 2 ^ nodeWidth p.rows.length ∧
    ∀ v ∈ row, v < 2 ^ nodeWidth p.rows.length

/-- The bits of a label and its count. -/
def labelBits (width : Nat) (l : Nat × Nat) : List Bool :=
  fieldBits l.1 labelWidth ++ fieldBits l.2 width

/-- The bits of a row. -/
def rowBits (width : Nat) (row : List Nat) : List Bool :=
  fieldBits row.length width ++ row.flatMap fun v => fieldBits v width

theorem fieldsBits_fields (p : FormParts) : fieldsBits p.fields =
    fieldBits p.rows.length nodeCountWidth ++
      (fieldBits p.source (nodeWidth p.rows.length) ++
        (fieldBits p.target (nodeWidth p.rows.length) ++
          (fieldBits p.labels.length labelWidth ++
            (p.labels.flatMap (labelBits (nodeWidth p.rows.length)) ++
              p.rows.flatMap (rowBits (nodeWidth p.rows.length)))))) := by
  have hlabels : fieldsBits (p.labels.flatMap fun l =>
      [(l.1, labelWidth), (l.2, nodeWidth p.rows.length)]) =
        p.labels.flatMap (labelBits (nodeWidth p.rows.length)) := by
    rw [fieldsBits, List.flatMap_assoc]
    apply List.flatMap_congr
    intro l _
    rw [labelBits, List.flatMap_cons, List.flatMap_cons, List.flatMap_nil, List.append_nil]
  have hrows : fieldsBits (p.rows.flatMap fun row =>
      (row.length, nodeWidth p.rows.length) :: row.map fun v => (v, nodeWidth p.rows.length)) =
        p.rows.flatMap (rowBits (nodeWidth p.rows.length)) := by
    rw [fieldsBits, List.flatMap_assoc]
    apply List.flatMap_congr
    intro row _
    rw [rowBits, List.flatMap_cons, List.flatMap_map]
  rw [← hlabels, ← hrows, fields, fieldsBits, fieldsBits, fieldsBits, List.flatMap_append,
    List.flatMap_append]
  simp only [List.flatMap_cons, List.flatMap_nil, List.append_nil, List.append_assoc]

theorem reads_label {l : Nat × Nat} (hwidth : width ≤ maxFieldWidth) (hl : l.1 ≤ maxCanonicalLabel)
    (hcount : l.2 < 2 ^ width) :
    Reads (do
      let label ← field labelWidth
      let count ← field width
      return (label, count)) (labelBits width l) l := by
  have hl : l.1 < 2 ^ labelWidth := Nat.lt_of_le_of_lt hl (by decide)
  exact (reads_field (by decide) hl).bind ((reads_field hwidth hcount).map rfl)

theorem reads_row {row : List Nat} (hwidth : width ≤ maxFieldWidth) (hlen : row.length < 2 ^ width)
    (hrow : ∀ v ∈ row, v < 2 ^ width) :
    Reads (do
      let degree ← field width
      times degree (field width)) (rowBits width row) row :=
  (reads_field hwidth hlen).bind (reads_times fun v hv => reads_field hwidth (hrow v hv))

/-- A graph whose numbers fit is read from the bits of its fields. -/
theorem reads_parts (hp : p.Fits) : Reads parts (fieldsBits p.fields) p := by
  have hwidth := nodeWidth_le hp.nodes
  have hnodes : p.rows.length < 2 ^ nodeCountWidth := Nat.lt_of_le_of_lt hp.nodes (by decide)
  have hcount : p.labels.length < 2 ^ labelWidth := Nat.lt_of_le_of_lt hp.labelCount (by decide)
  rw [fieldsBits_fields]
  apply (reads_field (by decide) hnodes).bind
  apply (reads_field hwidth hp.source).bind
  apply (reads_field hwidth hp.target).bind
  apply (reads_field (by decide) hcount).bind
  apply (reads_times fun l hl => reads_label hwidth (hp.label l hl).1 (hp.label l hl).2).bind
  exact (reads_times fun row hrow => reads_row hwidth (hp.row row hrow).1 (hp.row row hrow).2).map rfl

theorem takes_label (width : Nat) :
    Takes (do
      let label ← field labelWidth
      let count ← field width
      return (label, count)) (labelBits width) fun l => l.1 < 2 ^ labelWidth ∧ l.2 < 2 ^ width := by
  intro r next l h
  obtain ⟨label, middle, hlabel, h⟩ := bind_apply_eq_ok.1 h
  obtain ⟨count, last, hcount, h⟩ := bind_apply_eq_ok.1 h
  cases h
  have hfirst := takes_field labelWidth _ _ _ hlabel
  have hsecond := takes_field width _ _ _ hcount
  refine ⟨⟨hfirst.1, hsecond.1⟩, ?_⟩
  simp only [labelBits, hfirst.2, hsecond.2, List.append_assoc]

theorem takes_row (width : Nat) :
    Takes (do
      let degree ← field width
      times degree (field width)) (rowBits width) fun row =>
        row.length < 2 ^ width ∧ ∀ v ∈ row, v < 2 ^ width := by
  intro r next row h
  obtain ⟨degree, middle, hdegree, h⟩ := bind_apply_eq_ok.1 h
  have hfirst := takes_field width _ _ _ hdegree
  have hsecond := takes_times (takes_field width) degree _ _ _ h
  simp only [rowBits, hsecond.1.1, hfirst.2, hsecond.2, List.append_assoc]
  exact ⟨⟨hfirst.1, hsecond.1.2⟩, trivial⟩

/-- A graph that is read has only numbers that fit, and is read from the bits of its fields. -/
theorem takes_parts : Takes parts (fun p => fieldsBits p.fields) Fits := by
  intro r next p h
  obtain ⟨nodes, _, hnodes, h⟩ := bind_apply_eq_ok.1 h
  obtain ⟨source, _, hsource, h⟩ := bind_apply_eq_ok.1 h
  obtain ⟨target, _, htarget, h⟩ := bind_apply_eq_ok.1 h
  obtain ⟨classes, _, hclasses, h⟩ := bind_apply_eq_ok.1 h
  obtain ⟨labels, _, hlabels, h⟩ := bind_apply_eq_ok.1 h
  obtain ⟨rows, _, hrows, h⟩ := bind_apply_eq_ok.1 h
  cases h
  have hnodes := takes_field _ _ _ _ hnodes
  have hsource := takes_field _ _ _ _ hsource
  have htarget := takes_field _ _ _ _ htarget
  have hclasses := takes_field _ _ _ _ hclasses
  have hlabels := takes_times (takes_label _) _ _ _ _ hlabels
  have hrows := takes_times (takes_row _) _ _ _ _ hrows
  obtain ⟨⟨hlabelCount, hlabel⟩, hlabelBits⟩ := hlabels
  obtain ⟨⟨hnodeCount, hrow⟩, hrowBits⟩ := hrows
  subst hlabelCount hnodeCount
  constructor
  · refine ⟨Nat.le_of_lt_succ hnodes.1, Nat.le_of_lt_succ hclasses.1, hsource.1, htarget.1, ?_, hrow⟩
    exact fun l hl => ⟨Nat.le_of_lt_succ (hlabel l hl).1, (hlabel l hl).2⟩
  · simp only [fieldsBits_fields, hnodes.2, hsource.2, htarget.2, hclasses.2, hlabelBits, hrowBits,
      List.append_assoc]

/-! ### Codes -/

/-- No field is wider than a field can be. -/
theorem width_le_of_mem_fields (hnodes : p.rows.length ≤ maxCanonicalNodes) :
    ∀ field ∈ p.fields, field.2 ≤ maxFieldWidth := by
  have hwidth := nodeWidth_le hnodes
  have hcount : nodeCountWidth ≤ maxFieldWidth := by decide
  have hlabel : labelWidth ≤ maxFieldWidth := by decide
  intro field hfield
  simp only [fields, List.mem_append, List.mem_cons, List.mem_flatMap, List.mem_map, List.not_mem_nil,
    or_false] at hfield
  rcases hfield with ((rfl | rfl | rfl | rfl) | ⟨l, _, rfl | rfl⟩) | ⟨row, _, rfl | ⟨v, _, rfl⟩⟩ <;>
    assumption

/-- What passes the check is written. -/
theorem exists_encode (h : p.checkLimits = .ok ()) : ∃ code, p.encode = .ok code := by
  have hwidth := width_le_of_mem_fields (checkLimits_eq_ok.1 h).1
  have hroom : 0 + sumOf (p.fields.map Prod.snd) ≤ 8 * ((sumOf (p.fields.map Prod.snd) + 7) / 8) := by
    omega
  obtain ⟨writer, hwriter⟩ := BitWriter.exists_writeAll
    (w := .ofBits (sumOf (p.fields.map Prod.snd))) hwidth hroom
  exact ⟨writer.bytes, bind_eq_ok.2 ⟨(), h, bind_eq_ok.2 ⟨writer, hwriter, rfl⟩⟩⟩

/-- A code has the bits of the fields, and less than a byte of zeros behind them. -/
theorem bytesBits_of_encode (h : p.encode = .ok code) :
    ∃ k < 8, bytesBits code = fieldsBits p.fields ++ List.replicate k false := by
  obtain ⟨_, _, hrest⟩ := bind_eq_ok.1 h
  obtain ⟨writer, hwriter, hbytes⟩ := bind_eq_ok.1 hrest
  rw [← pure_eq_ok.1 hbytes]
  exact BitWriter.bytesBits_of_writeAll hwriter

theorem Fits.checkLimits (hp : p.Fits) : p.checkLimits = .ok () :=
  checkLimits_eq_ok.2 ⟨hp.nodes, hp.labelCount, fun l hl => (hp.label l hl).1⟩

/-- The code of a graph whose numbers fit is read as the graph. -/
theorem decode_of_encode (hp : p.Fits) (h : p.encode = .ok code) : decode code = .ok p := by
  obtain ⟨k, hk, hbits⟩ := bytesBits_of_encode h
  obtain ⟨next, hnext, hunread⟩ := reads_parts hp (BitReader.ofBytes code) _ hbits
  have hremaining : next.remaining = k := by
    rw [next.remaining_eq, hunread, List.length_replicate]
  unfold decode
  rw [hnext]
  change (if 8 ≤ next.remaining then _ else _) = _
  rw [if_neg (by omega)]
  rfl

/-- What is read as a graph has the bits of its fields, whose numbers fit, and less than a byte behind
    them. -/
theorem decode_eq_ok (h : decode code = .ok p) :
    p.Fits ∧ ∃ padding, bytesBits code = fieldsBits p.fields ++ padding ∧ padding.length < 8 := by
  obtain ⟨⟨p, rest⟩, hparts, h⟩ := bind_eq_ok.1 h
  dsimp only at h
  split at h
  · cases h
  · rename_i hshort
    cases h
    obtain ⟨hfits, hbits⟩ := takes_parts _ _ _ hparts
    rw [rest.remaining_eq] at hshort
    exact ⟨hfits, rest.unread, hbits, Nat.lt_of_not_le hshort⟩

/-- Two graphs with the same code are the same, if their numbers fit. -/
theorem eq_of_encode_eq (hp : p.Fits) (hp' : p'.Fits) (h : p.encode = .ok code)
    (h' : p'.encode = .ok code) : p = p' := by
  have hdecode := decode_of_encode hp h
  rw [decode_of_encode hp' h'] at hdecode
  cases hdecode
  rfl

/-! ### Sorted rows -/

theorem sorted_eq_self_iff {row : List Nat} : sorted row = row ↔ row.Pairwise (· ≤ ·) := by
  constructor
  · intro h
    rw [← h]
    exact (pairwise_sorted row).imp fun hle => Nat.isLE_compare.1 hle
  · intro h
    exact List.mergeSort_of_pairwise (h.imp fun hle => Nat.isLE_compare.2 hle)

theorem sortRows_eq_self_iff : p.sortRows = p ↔ ∀ row ∈ p.rows, row.Pairwise (· ≤ ·) := by
  have hrows : p.sortRows = p ↔ p.rows.map sorted = p.rows.map id := by
    rw [List.map_id]
    constructor
    · exact congrArg FormParts.rows
    · intro h
      rw [sortRows, h]
  rw [hrows, List.map_inj_left]
  simp only [id, sorted_eq_self_iff]

/-- Whether the numbers of a graph fit does not depend on the order of its rows. -/
theorem fits_sortRows_iff : p.sortRows.Fits ↔ p.Fits := by
  have hlen : p.sortRows.rows.length = p.rows.length := List.length_map _
  have hrows : ∀ bound, (∀ row ∈ p.sortRows.rows, row.length < bound ∧ ∀ v ∈ row, v < bound) ↔
      ∀ row ∈ p.rows, row.length < bound ∧ ∀ v ∈ row, v < bound := fun bound => by
    simp only [sortRows, List.forall_mem_map, length_sorted, mem_sorted]
  constructor
  · intro h
    exact ⟨hlen ▸ h.nodes, h.labelCount, hlen ▸ h.source, hlen ▸ h.target, hlen ▸ h.label,
      (hrows _).1 (hlen ▸ h.row)⟩
  · intro h
    exact ⟨hlen ▸ h.nodes, h.labelCount, hlen ▸ h.source, hlen ▸ h.target, hlen ▸ h.label,
      hlen.symm ▸ (hrows _).2 h.row⟩

theorem Fits.sortRows (hp : p.Fits) : p.sortRows.Fits := fits_sortRows_iff.2 hp

theorem length_rowBits (width : Nat) (row : List Nat) :
    (rowBits width row).length = width + row.length * width := by
  simp [rowBits, List.length_flatMap]

/-- Sorting the rows takes no bits away and adds none. -/
theorem length_fieldsBits_sortRows (p : FormParts) :
    (fieldsBits p.sortRows.fields).length = (fieldsBits p.fields).length := by
  have hrows : ((p.rows.map sorted).flatMap (rowBits (nodeWidth p.rows.length))).length =
      (p.rows.flatMap (rowBits (nodeWidth p.rows.length))).length := by
    simp [List.length_flatMap, Function.comp_def, length_rowBits]
  simp only [fieldsBits_fields, List.length_append, sortRows, List.length_map, hrows]

end FormParts

end PathQueryIndex
