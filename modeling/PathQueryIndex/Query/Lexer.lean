/-
Module: PathQueryIndex.Query.Lexer
Layer: Core
Purpose: Cutting query text into tokens. Blanks separate tokens and are dropped, but a label keeps its
  digits and its inverse mark together; the mark is `⁻` or `^-`, the operators are `◦` or `.` and
  `∩` or `&`.
Imports: PathQueryIndex.Query.Token, PathQueryIndex.Text.Blank
Main exports: LexFault, Token.scan
-/
import PathQueryIndex.Query.Token
import PathQueryIndex.Text.Blank

namespace PathQueryIndex

/-- Why the next token cannot be cut. -/
inductive LexFault where
  | identityExpected
  | labelTooLarge
  | inverseExpected
  | character (found : Char)
deriving DecidableEq, Repr

/-- The fault together with the text in which it occurs. -/
def LexFault.inText (text : String) : LexFault → QueryFault
  | .identityExpected => .identityExpected text
  | .labelTooLarge => .labelTooLarge text
  | .inverseExpected => .inverseExpected text
  | .character found => .character found text

namespace Token

/-- The token that is written with one character, if there is one. -/
def ofChar? : Char → Option Token
  | '(' => some opened
  | ')' => some closed
  | '◦' | '.' => some concat
  | '∩' | '&' => some intersect
  | _ => none

/-- The inverse mark at the front of a text, and what follows it. -/
def scanMark : List Char → Except LexFault (Bool × List Char)
  | '^' :: '-' :: rest => .ok (true, rest)
  | '^' :: _ => .error .inverseExpected
  | c :: rest => .ok (if c = Label.inverseMark then (true, rest) else (false, c :: rest))
  | [] => .ok (false, [])

/-- The label at the front of a text that starts with a digit, and what follows it. -/
def scanLabel (cs : List Char) : Except LexFault (Token × List Char) := do
  let id := Nat.ofDigitChars 10 (cs.takeWhile Char.isDigit) 0
  if UInt32.size ≤ id then throw .labelTooLarge
  let (inverse, rest) ← scanMark (cs.dropWhile Char.isDigit)
  return (label ⟨UInt32.ofNat id, inverse⟩, rest)

theorem length_dropWhile_le {α : Type} (p : α → Bool) (cs : List α) :
    (cs.dropWhile p).length ≤ cs.length :=
  (List.dropWhile_sublist p).length_le

theorem length_scanMark {cs rest : List Char} {inverse : Bool}
    (h : scanMark cs = .ok (inverse, rest)) : rest.length ≤ cs.length := by
  unfold scanMark at h
  split at h
  · cases h; simp only [List.length_cons]; omega
  · cases h
  · split at h <;> cases h <;> simp
  · cases h; simp

theorem length_scanLabel {c : Char} {cs rest : List Char} {token : Token} (hc : c.isDigit = true)
    (h : scanLabel (c :: cs) = .ok (token, rest)) : rest.length < (c :: cs).length := by
  simp only [scanLabel, bind, Except.bind, pure, Except.pure, throw, throwThe,
    MonadExceptOf.throw] at h
  split at h
  · cases h
  · split at h
    · cases h
    · rename_i mark hmark
      have hle := length_scanMark hmark
      rw [List.dropWhile_cons_of_pos hc] at hle
      have hdrop := length_dropWhile_le Char.isDigit cs
      cases h
      simp only [List.length_cons]
      omega

/-- The first token of a text and what follows it; no token if the text starts with a blank. -/
def next (c : Char) (cs : List Char) : Except LexFault (Option Token × List Char) :=
  if Text.isBlank c then .ok (none, cs)
  else if c.isDigit then (scanLabel (c :: cs)).map fun (token, rest) => (some token, rest)
  else if c = 'i' then
    match cs with
    | 'd' :: rest => .ok (some identity, rest)
    | _ => .error .identityExpected
  else
    match ofChar? c with
    | some token => .ok (some token, cs)
    | none => .error (.character c)

theorem length_next {c : Char} {cs rest : List Char} {token : Option Token}
    (h : next c cs = .ok (token, rest)) : rest.length < (c :: cs).length := by
  unfold next at h
  split at h
  · cases h; simp
  · split at h
    · rename_i hdigit
      cases hlabel : scanLabel (c :: cs) with
      | error fault => rw [hlabel] at h; cases h
      | ok found =>
        rw [hlabel] at h
        cases h
        exact length_scanLabel hdigit hlabel
    · split at h
      · split at h
        · cases h; simp only [List.length_cons]; omega
        · cases h
      · split at h
        · cases h; simp
        · cases h

/-- All tokens of a text. -/
def scan : List Char → Except LexFault (List Token)
  | [] => .ok []
  | c :: cs =>
    match _h : next c cs with
    | .error fault => .error fault
    | .ok (token, rest) => do
      let tokens ← scan rest
      return token.toList ++ tokens
termination_by cs => cs.length
decreasing_by exact length_next _h

end Token

end PathQueryIndex
