/-
Module: PathQueryIndex.Query.Grammar
Layer: Core
Purpose: The grammar of query text, apart from how it is read. Characters spell tokens, blanks between
  them aside; tokens derive queries: an intersection of concatenations of operands, both from the left,
  an operand being the identity, a label, or an intersection in parentheses.
Imports: PathQueryIndex.Query, PathQueryIndex.Query.Token, PathQueryIndex.Text.Blank
Main exports: Token.Spelling, Token.Spells, Query.DerivesOperand, Query.DerivesConcat,
  Query.DerivesIntersection, Query.Written
-/
import PathQueryIndex.Query
import PathQueryIndex.Query.Token
import PathQueryIndex.Text.Blank

namespace PathQueryIndex

/-- The ways to write one token. A label is the digits of a 32-bit number with the mark of the
    inverse behind them or without one. -/
inductive Token.Spelling : List Char → Token → Prop where
  | identity : Spelling ['i', 'd'] .identity
  | forward {digits : List Char} {id : Nat} :
      Text.digitsValue? digits = some id → id < UInt32.size →
        Spelling digits (.label (.forward (UInt32.ofNat id)))
  | backward {digits mark : List Char} {id : Nat} :
      Text.digitsValue? digits = some id → id < UInt32.size →
        mark = [Label.inverseMark] ∨ mark = ['^', '-'] →
          Spelling (digits ++ mark) (.label (.backward (UInt32.ofNat id)))
  | concat {c : Char} : c = '◦' ∨ c = '.' → Spelling [c] .concat
  | intersect {c : Char} : c = '∩' ∨ c = '&' → Spelling [c] .intersect
  | opened : Spelling ['('] .opened
  | closed : Spelling [')'] .closed

/-- Characters that write tokens one after the other, with any blanks around them. -/
inductive Token.Spells : List Char → List Token → Prop where
  | done : Spells [] []
  | blank {c : Char} {cs : List Char} {ts : List Token} :
      Text.isBlank c = true → Spells cs ts → Spells (c :: cs) ts
  | token {word cs : List Char} {t : Token} {ts : List Token} :
      Spelling word t → Spells cs ts → Spells (word ++ cs) (t :: ts)

namespace Query

mutual

/-- The operands of a concatenation. -/
inductive DerivesOperand : List Token → Query → Prop where
  | identity : DerivesOperand [.identity] .identity
  | label (l : Label) : DerivesOperand [.label l] (.label l)
  | group {ts : List Token} {q : Query} :
      DerivesIntersection ts q → DerivesOperand (.opened :: ts ++ [.closed]) q

/-- Operands with signs of concatenation between them, grouped from the left. -/
inductive DerivesConcat : List Token → Query → Prop where
  | operand {ts : List Token} {q : Query} : DerivesOperand ts q → DerivesConcat ts q
  | concat {ts us : List Token} {p q : Query} :
      DerivesConcat ts p → DerivesOperand us q → DerivesConcat (ts ++ .concat :: us) (.concat p q)

/-- Concatenations with signs of intersection between them, grouped from the left. -/
inductive DerivesIntersection : List Token → Query → Prop where
  | single {ts : List Token} {q : Query} : DerivesConcat ts q → DerivesIntersection ts q
  | intersect {ts us : List Token} {p q : Query} :
      DerivesIntersection ts p → DerivesConcat us q →
        DerivesIntersection (ts ++ .intersect :: us) (.intersect p q)

end

/-- Whether a text writes a query. -/
def Written (text : String) (q : Query) : Prop :=
  ∃ tokens, Token.Spells text.toList tokens ∧ DerivesIntersection tokens q

end Query

end PathQueryIndex
