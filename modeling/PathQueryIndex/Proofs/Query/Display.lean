/-
Module: PathQueryIndex.Proofs.Query.Display
Layer: Proofs
Purpose: The displayed form of a query is query text that writes just this query. The parentheses around both
  operators make every query an operand of its own, so it does not matter how the grammar groups operands
  or which operator binds tighter; and the number of a label is one that its digits can write.
Imports: PathQueryIndex.Proofs.Query.Derivation
Main exports: Query.tokens, Query.spells_chars, Query.derives_tokens, Query.written_text, Query.parse_text
-/
import PathQueryIndex.Proofs.Query.Derivation

namespace PathQueryIndex

/-- Texts one after the other write their tokens one after the other. -/
theorem Token.Spells.append {cs ds : List Char} {ts us : List Token} (h : Spells cs ts)
    (h' : Spells ds us) : Spells (cs ++ ds) (ts ++ us) := by
  induction h with
  | done => exact h'
  | blank hblank _ ih => exact .blank hblank ih
  | token hword _ ih =>
      rw [List.append_assoc]
      exact .token hword ih

/-- One way to write a token writes it alone. -/
theorem Token.Spelling.spells {word : List Char} {t : Token} (h : Spelling word t) : Spells word [t] := by
  have hword := Spells.token h .done
  rwa [List.append_nil] at hword

/-- Parentheses around a text stand around its tokens. -/
theorem Token.Spells.group {cs : List Char} {ts : List Token} (h : Spells cs ts) :
    Spells ('(' :: cs ++ [')']) (.opened :: ts ++ [.closed]) :=
  (Spelling.opened.spells.append h).append Spelling.closed.spells

/-- The displayed form of a label is a way to write it. -/
theorem Label.spelling_chars (l : Label) : Token.Spelling l.chars (.label l) := by
  have hdigits := Text.digitsValue?_numeral l.id.toNat
  have hsize := l.id.toNat_lt_size
  obtain ⟨id, inverse⟩ := l
  cases inverse with
  | false =>
      have hword := Token.Spelling.forward hdigits hsize
      rw [UInt32.ofNat_toNat] at hword
      simpa [chars, forward] using hword
  | true =>
      have hword := Token.Spelling.backward hdigits hsize (.inl rfl)
      rw [UInt32.ofNat_toNat] at hword
      exact hword

namespace Query

/-- The tokens of the displayed form. -/
def tokens : Query → List Token
  | identity => [.identity]
  | label l => [.label l]
  | concat first second => .opened :: (first.tokens ++ .concat :: second.tokens) ++ [.closed]
  | intersect left right => .opened :: (left.tokens ++ .intersect :: right.tokens) ++ [.closed]

/-- The displayed form writes the tokens, with blanks around a sign of intersection. -/
theorem spells_chars (q : Query) : Token.Spells q.chars q.tokens := by
  induction q with
  | identity => exact Token.Spelling.identity.spells
  | label l => exact l.spelling_chars.spells
  | concat first second ihf ihs =>
      have hsign : Token.Spells ('◦' :: second.chars) (.concat :: second.tokens) :=
        .token (.concat (.inl rfl)) ihs
      exact (ihf.append hsign).group
  | intersect left right ihl ihr =>
      have hsign : Token.Spells (' ' :: '∩' :: ' ' :: right.chars) (.intersect :: right.tokens) :=
        .blank rfl (.token (.intersect (.inl rfl)) (.blank rfl ihr))
      exact (ihl.append hsign).group

/-- The tokens derive the query as an operand, whatever its operators are. -/
theorem derives_tokens (q : Query) : DerivesOperand q.tokens q := by
  induction q with
  | identity => exact .identity
  | label l => exact .label l
  | concat first second ihf ihs => exact .group (.single (.concat (.operand ihf) ihs))
  | intersect left right ihl ihr =>
      exact .group (.intersect (.single (.operand ihl)) (.operand ihr))

theorem written_text (q : Query) : Written q.text q := by
  refine ⟨q.tokens, ?_, .single (.operand q.derives_tokens)⟩
  rw [text, String.toList_ofList]
  exact q.spells_chars

/-- The displayed form of a query is parsed to the query itself, however its operators are nested and whatever
    its labels are. -/
theorem parse_text (q : Query) : parse q.text = .ok q :=
  parse_eq_ok_iff.2 q.written_text

end Query

end PathQueryIndex
