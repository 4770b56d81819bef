/-
Module: PathQueryIndex.Query.Parser
Layer: Core
Purpose: Queries from text. Concatenation binds tighter than intersection and both associate to the
  left. The tokens are read once, from left to right: a level holds the intersection and the
  concatenation that are still open, an opening parenthesis starts a level inside the current one, and
  the closing one hands the finished query to the level around it.
Imports: PathQueryIndex.Query, PathQueryIndex.Query.Lexer
Main exports: Level, Query.ofTokens, Query.parse
-/
import PathQueryIndex.Query
import PathQueryIndex.Query.Lexer

namespace PathQueryIndex

/-- The open operands of one pair of parentheses: what stands left of the last intersection sign, and
    what stands between it and the last concatenation sign. -/
structure Level where
  intersected : Option Query
  concatenated : Option Query
deriving DecidableEq, Repr

namespace Level

/-- Nothing read yet. -/
def start : Level := ⟨none, none⟩

/-- The running concatenation with one more operand. -/
def concatWith (level : Level) (q : Query) : Query :=
  match level.concatenated with
  | none => q
  | some p => p.concat q

/-- The whole level, its last operand being `q`. -/
def close (level : Level) (q : Query) : Query :=
  match level.intersected with
  | none => level.concatWith q
  | some p => p.intersect (level.concatWith q)

/-- Wait for the next operand of the concatenation. -/
def thenConcat (level : Level) (q : Query) : Level := { level with concatenated := level.concatWith q }

/-- Wait for the next operand of the intersection. -/
def thenIntersect (level : Level) (q : Query) : Level := ⟨some (level.close q), none⟩

end Level

/-- Where reading stands: before an operand, or behind the operand `q` of the innermost level. -/
inductive Reading where
  | before
  | behind (q : Query)
deriving DecidableEq, Repr

namespace Query

/-- Read tokens inside the current level and the levels around it, the innermost first. The position
    is that of the first token left. -/
def readTokens (text : String) (position : Nat) (level : Level) (outer : List Level) :
    Reading → List Token → Except QueryFault Query
  | .before, [] => .error .ended
  | .before, token :: tokens =>
    match token with
    | .identity => readTokens text (position + 1) level outer (.behind identity) tokens
    | .label l => readTokens text (position + 1) level outer (.behind (label l)) tokens
    | .opened => readTokens text (position + 1) .start (level :: outer) .before tokens
    | token => .error (.misplaced token)
  | .behind q, [] =>
    match outer with
    | [] => .ok (level.close q)
    | _ :: _ => .error .unbalanced
  | .behind q, token :: tokens =>
    match token, outer with
    | .concat, _ => readTokens text (position + 1) (level.thenConcat q) outer .before tokens
    | .intersect, _ => readTokens text (position + 1) (level.thenIntersect q) outer .before tokens
    | .closed, around :: outer =>
      readTokens text (position + 1) around outer (.behind (level.close q)) tokens
    | _, [] => .error (.leftover position text)
    | _, _ :: _ => .error .unbalanced

/-- The query that some tokens write. -/
def ofTokens (text : String) (tokens : List Token) : Except QueryFault Query :=
  readTokens text 0 .start [] .before tokens

/-- The query that a text writes. -/
def parse (text : String) : Except Error Query :=
  match Token.scan text.toList with
  | .error fault => .error (.argument (.query (fault.inText text)))
  | .ok tokens => (ofTokens text tokens).mapError fun fault => .argument (.query fault)

end Query

end PathQueryIndex
