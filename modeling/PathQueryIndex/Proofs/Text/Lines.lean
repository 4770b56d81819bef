/-
Module: PathQueryIndex.Proofs.Text.Lines
Layer: Proofs
Purpose: Cutting text, against what it is cut into. The lines that are cut from bytes and the words that are
  cut from characters are the ones that are there; a line is decoded to the characters that it encodes, and a
  word is read as the number that it is.
Imports: PathQueryIndex.Graph.Format, PathQueryIndex.Graph.Reader, PathQueryIndex.Proofs.Query.Spelling
Main exports: Text.pieces_append, Text.words_eq_iff, Text.words_eq_nil_iff, Text.word32?_eq_some_iff,
  Text.byteLines_eq_iff, Text.decodeLine_eq_ok_iff
-/
import PathQueryIndex.Graph.Format
import PathQueryIndex.Graph.Reader
import PathQueryIndex.Proofs.Query.Spelling

namespace PathQueryIndex

namespace Text

/-! ### Pieces -/

section Pieces

universe u

variable {α : Type u} {p : α → Bool} {xs w rest : List α} {x : α}

theorem pieces_of_forall (h : ∀ y ∈ w, p y = false) : pieces p w = [w] := by
  induction w with
  | nil => rfl
  | cons y w ih =>
      obtain ⟨hy, hw⟩ := List.forall_mem_cons.1 h
      rw [pieces, if_neg (by rw [hy]; exact Bool.false_ne_true), ih hw]

/-- The first piece ends at the first separator. -/
theorem pieces_append (hw : ∀ y ∈ w, p y = false) (hx : p x = true) (rest : List α) :
    pieces p (w ++ x :: rest) = w :: pieces p rest := by
  induction w with
  | nil => rw [List.nil_append, pieces, if_pos hx]
  | cons y w ih =>
      obtain ⟨hy, hw⟩ := List.forall_mem_cons.1 hw
      rw [List.cons_append, pieces, if_neg (by rw [hy]; exact Bool.false_ne_true), ih hw]

theorem pieces_ne_nil (p : α → Bool) (xs : List α) : pieces p xs ≠ [] := by
  cases xs with
  | nil => exact List.cons_ne_nil _ _
  | cons x xs =>
      rw [pieces]
      split
      · exact List.cons_ne_nil _ _
      · split
        · exact List.cons_ne_nil _ _
        · exact List.cons_ne_nil _ _

/-- A list has no separator, or there is a first one. -/
theorem separator_cases (p : α → Bool) (xs : List α) : (∀ y ∈ xs, p y = false) ∨
    ∃ w x rest, xs = w ++ x :: rest ∧ (∀ y ∈ w, p y = false) ∧ p x = true := by
  induction xs with
  | nil => exact .inl fun _ hy => nomatch hy
  | cons y xs ih =>
      cases hy : p y with
      | true => exact .inr ⟨[], y, xs, rfl, fun _ hz => (nomatch hz), hy⟩
      | false =>
          rcases ih with hxs | ⟨w, x, rest, rfl, hw, hx⟩
          · exact .inl (List.forall_mem_cons.2 ⟨hy, hxs⟩)
          · exact .inr ⟨y :: w, x, rest, rfl, List.forall_mem_cons.2 ⟨hy, hw⟩, hx⟩

end Pieces

/-! ### Words -/

section Words

variable {c : Char} {cs w text : List Char} {ws : List (List Char)}

theorem words_cons_of_blank (hc : isBlank c = true) (cs : List Char) : words (c :: cs) = words cs := by
  rw [words, pieces, if_pos hc]
  rfl

theorem words_append (hne : w ≠ []) (hw : ∀ c ∈ w, isBlank c = false)
    (hcs : ∀ c ∈ cs.head?, isBlank c = true) : words (w ++ cs) = w :: words cs := by
  obtain ⟨a, v, rfl⟩ := List.exists_cons_of_ne_nil hne
  cases cs with
  | nil =>
      rw [List.append_nil, words, pieces_of_forall hw]
      rfl
  | cons c cs =>
      have hc : isBlank c = true := hcs c rfl
      rw [words_cons_of_blank hc, words, pieces_append hw hc]
      rfl

/-- The words that are cut are there. -/
theorem words_spec (text : List Char) : Words text (words text) := by
  rcases separator_cases isBlank text with hall | ⟨w, c, rest, htext, hw, hc⟩
  · by_cases hnil : text = []
    · rw [hnil]
      exact .nil
    · have hhead : ∀ c ∈ ([] : List Char).head?, isBlank c = true := fun _ hc => nomatch hc
      have hword := Words.word hnil hall hhead .nil
      have heq := words_append hnil hall hhead
      rw [List.append_nil] at hword heq
      rw [heq]
      exact hword
  · have hlt : rest.length < text.length := by
      rw [htext, List.length_append, List.length_cons]
      omega
    have hrest := words_spec rest
    rw [htext]
    by_cases hnil : w = []
    · rw [hnil, List.nil_append, words_cons_of_blank hc]
      exact .blank hc hrest
    · have hhead : ∀ d ∈ (c :: rest).head?, isBlank d = true := by
        rintro d ⟨⟩
        exact hc
      rw [words_append hnil hw hhead, words_cons_of_blank hc]
      exact .word hnil hw hhead (.blank hc hrest)
termination_by text.length

theorem words_eq_iff : words text = ws ↔ Words text ws := by
  constructor
  · rintro rfl
    exact words_spec text
  · intro h
    induction h with
    | nil => rfl
    | blank hc _ ih => rw [words_cons_of_blank hc, ih]
    | word hne hw hhead _ ih => rw [words_append hne hw hhead, ih]

theorem Words.isBlank_of_mem (h : Words text ws) (hws : ws = []) : ∀ c ∈ text, isBlank c = true := by
  induction h with
  | nil => exact fun _ hc => nomatch hc
  | blank hc _ ih => exact List.forall_mem_cons.2 ⟨hc, ih hws⟩
  | word => cases hws

/-- Blanks only are no words. -/
theorem words_eq_nil_iff : words text = [] ↔ ∀ c ∈ text, isBlank c = true := by
  constructor
  · intro h
    exact (words_spec text).isBlank_of_mem h
  · intro h
    induction text with
    | nil => rfl
    | cons c cs ih =>
        obtain ⟨hc, hcs⟩ := List.forall_mem_cons.1 h
        rw [words_cons_of_blank hc, ih hcs]

end Words

/-! ### Numbers -/

theorem natural?_eq_some_iff {word : List Char} {n : Nat} : natural? word = some n ↔
    ∃ digits, (word = digits ∨ word = '+' :: digits) ∧ digitsValue? digits = some n := by
  unfold natural?
  split
  · rename_i digits
    constructor
    · intro h
      exact ⟨digits, .inr rfl, h⟩
    · rintro ⟨other, rfl | heq, hother⟩
      · exact absurd ((Token.digitsValue?_eq_some.1 hother).2.1 '+' List.mem_cons_self) (by decide)
      · cases heq
        exact hother
  · rename_i hplus
    constructor
    · intro h
      exact ⟨word, .inl rfl, h⟩
    · rintro ⟨other, rfl | rfl, hother⟩
      · exact hother
      · exact absurd rfl (hplus other)

theorem word32?_eq_some_iff {word : List Char} {n : UInt32} : word32? word = some n ↔ IsWord32 word n := by
  simp only [word32?, naturalBelow?, Option.map_eq_some_iff, Option.filter_eq_some_iff, decide_eq_true_eq,
    natural?_eq_some_iff, IsWord32, Token.digitsValue?_eq_some]
  constructor
  · rintro ⟨k, ⟨⟨digits, hword, hne, hdigits, rfl⟩, hlt⟩, rfl⟩
    exact ⟨digits, hword, hne, hdigits, (UInt32.toNat_ofNat_of_lt' hlt).symm⟩
  · rintro ⟨digits, hword, hne, hdigits, hvalue⟩
    exact ⟨n.toNat, ⟨⟨digits, hword, hne, hdigits, hvalue⟩, n.toNat_lt⟩, UInt32.ofNat_toNat⟩

/-! ### Lines -/

section Lines

variable {line bytes : List UInt8} {lines : List (List UInt8)}

theorem chopReturn_concat (line : List UInt8) : chopReturn (line ++ [0x0D]) = line := by
  rw [chopReturn, if_pos List.getLast?_concat, List.dropLast_concat]

/-- A line feed ends the first line. -/
theorem byteLines_append (h : 0x0A ∉ line) (bytes : List UInt8) :
    byteLines (line ++ 0x0A :: bytes) = chopReturn line :: byteLines bytes := by
  have hparts : pieces (· == 0x0A) (line ++ 0x0A :: bytes) = line :: pieces (· == 0x0A) bytes :=
    pieces_append (fun x hx => beq_eq_false_iff_ne.2 fun (heq : x = 0x0A) => h (heq ▸ hx)) rfl bytes
  simp only [byteLines, hparts, List.dropLast_cons_of_ne_nil (pieces_ne_nil _ bytes), List.map_cons,
    List.getLast?_cons_of_ne_nil (pieces_ne_nil _ bytes)]
  cases (pieces (· == 0x0A) bytes).getLast? with
  | none => rfl
  | some piece =>
      cases piece with
      | nil => rfl
      | cons => rfl

theorem byteLines_of_not_mem (h : 0x0A ∉ line) (hne : line ≠ []) : byteLines line = [line] := by
  obtain ⟨b, rest, rfl⟩ := List.exists_cons_of_ne_nil hne
  have hparts : pieces (· == 0x0A) (b :: rest) = [b :: rest] :=
    pieces_of_forall fun x hx => beq_eq_false_iff_ne.2 fun (heq : x = 0x0A) => h (heq ▸ hx)
  rw [byteLines, hparts]
  rfl

/-- The lines that are cut are there. -/
theorem lines_spec (bytes : List UInt8) : Lines bytes (byteLines bytes) := by
  rcases separator_cases (· == 0x0A) bytes with hall | ⟨line, x, rest, hbytes, hline, hx⟩
  · have hfeed : 0x0A ∉ bytes := fun hmem => absurd (hall _ hmem) (by decide)
    by_cases hnil : bytes = []
    · rw [hnil]
      exact .nil
    · rw [byteLines_of_not_mem hfeed hnil]
      exact .last hnil hfeed
  · have hfeed : 0x0A ∉ line := fun hmem => absurd (hline _ hmem) (by decide)
    have hlt : rest.length < bytes.length := by
      rw [hbytes, List.length_append, List.length_cons]
      omega
    have hrest := lines_spec rest
    obtain rfl : x = 0x0A := beq_iff_eq.1 hx
    rw [hbytes, byteLines_append hfeed]
    by_cases hreturn : line.getLast? = some 0x0D
    · obtain ⟨front, rfl⟩ := List.getLast?_eq_some_iff.1 hreturn
      rw [chopReturn_concat, List.append_assoc]
      exact .returnFeed (fun hmem => hfeed (List.mem_append_left _ hmem)) hrest
    · rw [chopReturn, if_neg hreturn]
      exact .feed hfeed hreturn hrest
termination_by bytes.length

theorem byteLines_eq_iff : byteLines bytes = lines ↔ Lines bytes lines := by
  constructor
  · rintro rfl
    exact lines_spec bytes
  · intro h
    induction h with
    | nil => rfl
    | last hne hfeed => exact byteLines_of_not_mem hfeed hne
    | feed hfeed hreturn _ ih => rw [byteLines_append hfeed, chopReturn, if_neg hreturn, ih]
    | @returnFeed line bytes lines hfeed _ ih =>
        have hline : 0x0A ∉ line ++ [0x0D] := by
          simpa using hfeed
        have hsplit : line ++ 0x0D :: 0x0A :: bytes = (line ++ [0x0D]) ++ 0x0A :: bytes := by
          rw [List.append_assoc]
          rfl
        rw [hsplit, byteLines_append hline, chopReturn_concat, ih]

end Lines

/-! ### Encodings -/

section Encodings

variable {line : List UInt8} {text : List Char}

theorem fromUTF8?_eq_some_iff {bytes : ByteArray} {s : String} :
    String.fromUTF8? bytes = some s ↔ s.toByteArray = bytes := by
  unfold String.fromUTF8?
  constructor
  · intro h
    split at h
    · cases h
      rfl
    · cases h
  · rintro rfl
    rw [dif_pos s.isValidUTF8]
    rfl

theorem encodes_iff : Encodes text line ↔ String.fromUTF8? ⟨line.toArray⟩ = some (String.ofList text) := by
  rw [fromUTF8?_eq_some_iff, String.toByteArray_ofList, List.utf8Encode, Encodes]
  constructor
  · rintro rfl
    exact ByteArray.ext List.data_toByteArray
  · intro h
    rw [← List.toList_data_toByteArray (l := text.flatMap String.utf8EncodeChar), h]

/-- A line is decoded to the characters that it encodes. -/
theorem decodeLine_eq_ok_iff : decodeLine line = .ok text ↔ Encodes text line := by
  rw [encodes_iff, decodeLine]
  constructor
  · intro h
    split at h
    · rename_i s hs
      cases h
      rw [hs, String.ofList_toList]
    · cases h
  · intro h
    rw [h]
    exact congrArg Except.ok String.toList_ofList

theorem decodeLine_eq_error {e : Error} (h : decodeLine line = .error e) :
    (∀ text, ¬ Encodes text line) ∧ e = .io "stream did not contain valid UTF-8" := by
  constructor
  · intro text htext
    rw [decodeLine_eq_ok_iff.2 htext] at h
    cases h
  · rw [decodeLine] at h
    split at h
    · cases h
    · cases h
      rfl

end Encodings

end Text

end PathQueryIndex
