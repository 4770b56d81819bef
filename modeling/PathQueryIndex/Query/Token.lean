/-
Module: PathQueryIndex.Query.Token
Layer: Core
Purpose: The tokens of query text and the ways in which cutting or reading them can fail.
Imports: PathQueryIndex.Label
Main exports: Token, Token.name, QueryFault, QueryFault.message
-/
import PathQueryIndex.Label

namespace PathQueryIndex

/-- What query text is made of. -/
inductive Token where
  | identity
  | label (l : Label)
  | concat
  | intersect
  | opened
  | closed
deriving DecidableEq, Repr, Inhabited

/-- The word for a token in messages. -/
def Token.name : Token → String
  | .identity => "Identity"
  | .label l => s!"Label({l.text})"
  | .concat => "Concat"
  | .intersect => "Intersect"
  | .opened => "Open"
  | .closed => "Close"

/-- Why a text is no query. The faults found while cutting tokens quote the whole text. -/
inductive QueryFault where
  | identityExpected (text : String)
  | labelTooLarge (text : String)
  | inverseExpected (text : String)
  | character (found : Char) (text : String)
  | unbalanced
  | misplaced (token : Token)
  | ended
  | leftover (position : Nat) (text : String)
deriving DecidableEq, Repr

/-- The wording of a fault. -/
def QueryFault.message : QueryFault → String
  | .identityExpected text => s!"expected 'id' in '{text}'"
  | .labelTooLarge text => s!"label id too large in '{text}'"
  | .inverseExpected text => s!"expected '^-' in '{text}'"
  | .character found text => s!"unexpected character '{found}' in '{text}'"
  | .unbalanced => "unbalanced parentheses"
  | .misplaced token => "unexpected token " ++ token.name
  | .ended => "unexpected end of query"
  | .leftover position text => s!"unexpected input at token {position} in '{text}'"

end PathQueryIndex
