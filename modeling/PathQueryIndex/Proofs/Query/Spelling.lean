/-
Module: PathQueryIndex.Proofs.Query.Spelling
Layer: Proofs
Purpose: Cutting text into tokens, against the ways in which tokens are written. The tokens that are cut
  from a text are always written by it. A text may write other tokens as well, since the digits of a label
  can be told apart into those of two labels; but that is the only way, so tokens among which no label
  follows another are the ones that are cut from every text that writes them.
Imports: PathQueryIndex.Query.Lexer, PathQueryIndex.Query.Grammar, PathQueryIndex.Proofs.Outcome,
  Mathlib.Data.List.Chain
Main exports: Token.isLabel, Token.Apart, Token.next_of_spelling, Token.spells_of_scan,
  Token.scan_of_spells
-/
import PathQueryIndex.Query.Lexer
import PathQueryIndex.Query.Grammar
import PathQueryIndex.Proofs.Outcome
import Mathlib.Data.List.Chain

namespace PathQueryIndex

/-- No digit is a blank. -/
theorem Text.isBlank_of_isDigit {c : Char} (h : c.isDigit = true) : Text.isBlank c = false := by
  simp only [Char.isDigit, Bool.and_eq_true, decide_eq_true_eq, ge_iff_le, UInt32.le_iff_toNat_le] at h
  have low : 48 ≤ c.toNat := h.1
  have high : c.toNat ≤ 57 := h.2
  simp only [Text.isBlank, Bool.or_eq_false_iff, Bool.and_eq_false_iff, decide_eq_false_iff_not,
    beq_eq_false_iff_ne]
  omega

namespace Token

variable {c : Char} {cs rest word mark : List Char} {inverse : Bool} {t : Token} {ts us : List Token}

/-- Whether a token is a label. -/
def isLabel : Token → Bool
  | label _ => true
  | _ => false

/-! ### Marks and labels -/

/-- The ways to write the mark of an inverse label. -/
def IsMark (mark : List Char) : Prop := mark = [Label.inverseMark] ∨ mark = ['^', '-']

/-- What stands behind a label cannot be read as a part of it. -/
def EndsLabel (cs : List Char) : Prop :=
  ∀ c ∈ cs.head?, c.isDigit = false ∧ c ≠ '^' ∧ c ≠ Label.inverseMark

theorem scanMark_eq_ok (h : scanMark cs = .ok (inverse, rest)) :
    (inverse = false ∧ cs = rest) ∨ (inverse = true ∧ ∃ mark, IsMark mark ∧ cs = mark ++ rest) := by
  unfold scanMark at h
  split at h
  · cases h
    exact .inr ⟨rfl, ['^', '-'], .inr rfl, rfl⟩
  · cases h
  · split at h
    · rename_i hmark
      cases h
      exact .inr ⟨rfl, [Label.inverseMark], .inl rfl, by rw [hmark]; rfl⟩
    · cases h
      exact .inl ⟨rfl, rfl⟩
  · cases h
    exact .inl ⟨rfl, rfl⟩

theorem scanMark_of_mark (h : IsMark mark) (cs : List Char) : scanMark (mark ++ cs) = .ok (true, cs) := by
  rcases h with rfl | rfl
  · rfl
  · rfl

theorem scanMark_of_endsLabel (h : EndsLabel cs) : scanMark cs = .ok (false, cs) := by
  cases cs with
  | nil => rfl
  | cons c cs =>
      obtain ⟨_, hcaret, hmark⟩ := h c rfl
      unfold scanMark
      split
      · rename_i heq
        cases heq
        exact absurd rfl hcaret
      · rename_i heq
        cases heq
        exact absurd rfl hcaret
      · rename_i heq
        cases heq
        rw [if_neg hmark]
      · rename_i heq
        cases heq

theorem digitsValue?_eq_some {digits : List Char} {id : Nat} :
    Text.digitsValue? digits = some id ↔
      digits ≠ [] ∧ (∀ c ∈ digits, c.isDigit = true) ∧ Nat.ofDigitChars 10 digits 0 = id := by
  simp [Text.digitsValue?, and_assoc]

/-- A label that is cut from the front of a text is written there. -/
theorem spelling_of_scanLabel (hc : c.isDigit = true) (h : scanLabel (c :: cs) = .ok (t, rest)) :
    ∃ word, Spelling word t ∧ c :: cs = word ++ rest := by
  have hdigits : Text.digitsValue? ((c :: cs).takeWhile Char.isDigit) =
      some (Nat.ofDigitChars 10 ((c :: cs).takeWhile Char.isDigit) 0) := by
    refine digitsValue?_eq_some.2 ⟨?_, List.all_eq_true.1 List.all_takeWhile, rfl⟩
    rw [List.takeWhile_cons_of_pos hc]
    exact List.cons_ne_nil _ _
  have hsplit := (List.takeWhile_append_dropWhile (p := Char.isDigit) (l := c :: cs)).symm
  unfold scanLabel at h
  dsimp only at h
  split at h
  · cases h
  · rename_i hsize
    have hsize := Nat.lt_of_not_le hsize
    rcases hmark : scanMark ((c :: cs).dropWhile Char.isDigit) with fault | ⟨inverse, behind⟩
    · rw [hmark] at h
      cases h
    rw [hmark] at h
    cases h
    rcases scanMark_eq_ok hmark with ⟨rfl, hrest⟩ | ⟨rfl, mark, hmark, hrest⟩
    · exact ⟨_, .forward hdigits hsize, by rw [← hrest]; exact hsplit⟩
    · refine ⟨_, .backward hdigits hsize hmark, ?_⟩
      rw [List.append_assoc, ← hrest]
      exact hsplit

/-- A label is cut from the front of a text if its digits are followed by its mark, or if nothing behind
    them can be read as a part of it. -/
theorem scanLabel_of_digits {digits : List Char} {id : Nat} (h : Text.digitsValue? digits = some id)
    (hsize : id < UInt32.size) (hend : ∀ c ∈ cs.head?, c.isDigit = false)
    (hmark : scanMark cs = .ok (inverse, rest)) :
    scanLabel (digits ++ cs) = .ok (label ⟨UInt32.ofNat id, inverse⟩, rest) := by
  obtain ⟨_, hall, hvalue⟩ := digitsValue?_eq_some.1 h
  have htake : cs.takeWhile Char.isDigit = [] := by
    cases cs with
    | nil => rfl
    | cons c cs => exact List.takeWhile_cons_of_neg (Bool.eq_false_iff.1 (hend c rfl))
  have hdrop : cs.dropWhile Char.isDigit = cs := by
    have hsplit := List.takeWhile_append_dropWhile (p := Char.isDigit) (l := cs)
    rwa [htake] at hsplit
  unfold scanLabel
  rw [List.takeWhile_append_of_pos hall, List.dropWhile_append_of_pos hall, htake, hdrop,
    List.append_nil, hvalue, hmark]
  dsimp only
  rw [if_neg (Nat.not_le.2 hsize)]
  rfl

/-! ### The first token -/

theorem ofChar?_eq_some (h : ofChar? c = some t) : Spelling [c] t ∧ t.isLabel = false := by
  unfold ofChar? at h
  split at h
  · cases h
    exact ⟨.opened, rfl⟩
  · cases h
    exact ⟨.closed, rfl⟩
  · cases h
    exact ⟨.concat (.inl rfl), rfl⟩
  · cases h
    exact ⟨.concat (.inr rfl), rfl⟩
  · cases h
    exact ⟨.intersect (.inl rfl), rfl⟩
  · cases h
    exact ⟨.intersect (.inr rfl), rfl⟩
  · cases h

/-- Nothing is cut from a text but a blank or a token that is written at its front. -/
theorem next_eq_ok {token : Option Token} (h : next c cs = .ok (token, rest)) :
    (token = none ∧ Text.isBlank c = true ∧ rest = cs) ∨
      ∃ t word, token = some t ∧ Spelling word t ∧ c :: cs = word ++ rest := by
  unfold next at h
  split at h
  · rename_i hblank
    cases h
    exact .inl ⟨rfl, hblank, rfl⟩
  · split at h
    · rename_i hdigit
      cases hlabel : scanLabel (c :: cs) with
      | error fault =>
          rw [hlabel] at h
          cases h
      | ok found =>
          rw [hlabel] at h
          cases h
          obtain ⟨word, hword, hsplit⟩ := spelling_of_scanLabel hdigit hlabel
          exact .inr ⟨_, word, rfl, hword, hsplit⟩
    · split at h
      · rename_i hname
        split at h
        · cases h
          exact .inr ⟨_, ['i', 'd'], rfl, .identity, by rw [hname]; rfl⟩
        · cases h
      · split at h
        · rename_i hchar
          cases h
          exact .inr ⟨_, [c], rfl, (ofChar?_eq_some hchar).1, rfl⟩
        · cases h

/-- A token is cut from the front of a text that starts with a way to write it, unless it is a label and
    what stands behind can be read as a part of it. -/
theorem next_of_spelling (h : Spelling word t) (hend : t.isLabel = true → EndsLabel cs) :
    ∃ c w, word = c :: w ∧ next c (w ++ cs) = .ok (some t, cs) := by
  have hlabel : ∀ digits mark : List Char, ∀ id : Nat, Text.digitsValue? digits = some id →
      scanLabel (digits ++ (mark ++ cs)) = .ok (t, cs) →
        ∃ c w, digits ++ mark = c :: w ∧ next c (w ++ cs) = .ok (some t, cs) := by
    intro digits mark id hdigits hscan
    obtain ⟨hne, hall, _⟩ := digitsValue?_eq_some.1 hdigits
    obtain ⟨c, w, rfl⟩ := List.exists_cons_of_ne_nil hne
    have hdigit := hall c (List.mem_cons_self ..)
    refine ⟨c, w ++ mark, rfl, ?_⟩
    unfold next
    rw [Text.isBlank_of_isDigit hdigit, if_neg Bool.false_ne_true, if_pos hdigit, List.append_assoc,
      ← List.cons_append, hscan]
    rfl
  cases h with
  | identity => exact ⟨'i', ['d'], rfl, rfl⟩
  | forward hdigits hsize =>
      have hends := hend rfl
      rw [← List.append_nil word]
      refine hlabel _ [] _ hdigits ?_
      exact scanLabel_of_digits hdigits hsize (fun c hc => (hends c hc).1) (scanMark_of_endsLabel hends)
  | @backward digits mark id hdigits hsize hmark =>
      refine hlabel _ _ _ hdigits (scanLabel_of_digits hdigits hsize ?_ (scanMark_of_mark hmark cs))
      rcases hmark with rfl | rfl
      · rintro c ⟨⟩
        rfl
      · rintro c ⟨⟩
        rfl
  | concat hc =>
      rcases hc with rfl | rfl
      · exact ⟨_, [], rfl, rfl⟩
      · exact ⟨_, [], rfl, rfl⟩
  | intersect hc =>
      rcases hc with rfl | rfl
      · exact ⟨_, [], rfl, rfl⟩
      · exact ⟨_, [], rfl, rfl⟩
  | opened => exact ⟨_, [], rfl, rfl⟩
  | closed => exact ⟨_, [], rfl, rfl⟩

/-! ### All tokens -/

theorem scan_nil : scan [] = .ok [] := by
  unfold scan
  rfl

/-- Tokens are cut one after the other. -/
theorem scan_cons_eq_ok : scan (c :: cs) = .ok ts ↔
    ∃ token rest us, next c cs = .ok (token, rest) ∧ scan rest = .ok us ∧ ts = token.toList ++ us := by
  conv_lhs => unfold scan
  split
  · rename_i fault hnext
    simp [hnext]
  · rename_i token rest hnext
    simp only [hnext, Except.ok.injEq, Prod.mk.injEq]
    cases hscan : scan rest with
    | error fault =>
        constructor
        · rintro ⟨⟩
        · rintro ⟨_, _, us, ⟨rfl, rfl⟩, hus, _⟩
          rw [hscan] at hus
          cases hus
    | ok us =>
        constructor
        · rintro ⟨⟩
          exact ⟨_, _, us, ⟨rfl, rfl⟩, hscan, rfl⟩
        · rintro ⟨_, _, us', ⟨rfl, rfl⟩, hus, rfl⟩
          rw [hscan] at hus
          cases hus
          rfl

/-- The tokens that are cut from a text are written by it. -/
theorem spells_of_scan (h : scan cs = .ok ts) : Spells cs ts := by
  induction hlen : cs.length using Nat.strong_induction_on generalizing cs ts with
  | _ n ih =>
      cases cs with
      | nil =>
          rw [scan_nil] at h
          cases h
          exact .done
      | cons c cs =>
          obtain ⟨token, rest, us, hnext, hscan, rfl⟩ := scan_cons_eq_ok.1 h
          have hshort : rest.length < n := hlen ▸ length_next hnext
          have hrest := ih rest.length hshort hscan rfl
          rcases next_eq_ok hnext with ⟨rfl, hblank, rfl⟩ | ⟨t, word, rfl, hword, hsplit⟩
          · exact .blank hblank hrest
          · rw [hsplit]
            exact .token hword hrest

/-- No label follows another. -/
def Apart (ts : List Token) : Prop := ts.IsChain fun t u => t.isLabel = true → u.isLabel = false

/-- Tokens on both sides of one that is no label are apart if those on each side are. -/
theorem Apart.between (hts : Apart ts) (ht : t.isLabel = false) (hus : Apart us) :
    Apart (ts ++ t :: us) := by
  have hbehind : Apart (t :: us) := by
    refine List.isChain_cons.2 ⟨fun u _ hlabel => ?_, hus⟩
    rw [ht] at hlabel
    cases hlabel
  refine hts.append hbehind fun u _ v hv _ => ?_
  cases hv
  exact ht

/-- What stands behind a label, if no label does, cannot be read as a part of it. -/
theorem endsLabel_of_spells (h : Spells cs ts) (hts : ∀ t ∈ ts.head?, t.isLabel = false) :
    EndsLabel cs := by
  cases h with
  | done => exact fun c hc => nomatch hc
  | blank hblank _ =>
      rintro c ⟨⟩
      refine ⟨Bool.eq_false_iff.2 fun hdigit => ?_, ?_, ?_⟩
      · rw [Text.isBlank_of_isDigit hdigit] at hblank
        cases hblank
      · rintro rfl
        revert hblank
        decide
      · rintro rfl
        revert hblank
        decide
  | token hword _ =>
      have hlabel := hts _ rfl
      cases hword with
      | identity =>
          rintro c ⟨⟩
          decide
      | forward | backward => cases hlabel
      | concat hc | intersect hc =>
          rintro c ⟨⟩
          rcases hc with rfl | rfl
          · decide
          · decide
      | opened | closed =>
          rintro c ⟨⟩
          decide

/-- Tokens among which no label follows another are cut from every text that writes them. -/
theorem scan_of_spells (h : Spells cs ts) (hts : Apart ts) : scan cs = .ok ts := by
  induction h with
  | done => exact scan_nil
  | blank hblank _ ih =>
      refine scan_cons_eq_ok.2 ⟨none, _, _, ?_, ih hts, rfl⟩
      exact if_pos hblank
  | token hword hspells ih =>
      obtain ⟨hhead, htail⟩ := List.isChain_cons.1 hts
      obtain ⟨c, w, rfl, hnext⟩ := next_of_spelling hword fun hlabel =>
        endsLabel_of_spells hspells fun u hu => hhead u hu hlabel
      exact scan_cons_eq_ok.2 ⟨some _, _, _, hnext, ih htail, rfl⟩

end Token

end PathQueryIndex
