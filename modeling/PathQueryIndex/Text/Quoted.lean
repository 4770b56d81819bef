/-
Module: PathQueryIndex.Text.Quoted
Layer: Output
Purpose: Names of files inside a message. A name stands between quotes, and whatever would end the
  quotes or the line, or could not be told from its neighbours by eye, is escaped. An apostrophe does
  none of this and stays as it is.
Imports: PathQueryIndex.Text.Extender, PathQueryIndex.Text.Visible
Main exports: Quoted.escape, quoted
-/
import PathQueryIndex.Text.Extender
import PathQueryIndex.Text.Visible

namespace PathQueryIndex.Text

namespace Quoted

/-- A hexadecimal numeral without zeros at its front. -/
def hexNumeral (n : Nat) : List Char := Nat.toDigits 16 n

/-- Whether a character is clear on its own: it can be seen, and not only as a part of another. -/
def isPlain (c : Char) : Bool := isVisible c && !isExtender c

/-- The code point of a character, marked as such. -/
def codePoint (c : Char) : List Char := ['\\', 'u', '\x7b'] ++ hexNumeral c.toNat ++ ['\x7d']

/-- A character between quotes. -/
def escape (c : Char) : List Char :=
  match c with
  | '"' => ['\\', '"']
  | '\\' => ['\\', '\\']
  | '\n' => ['\\', 'n']
  | '\r' => ['\\', 'r']
  | '\t' => ['\\', 't']
  | '\x00' => ['\\', '0']
  | c => if isPlain c then [c] else codePoint c

end Quoted

/-- A name in quotes. -/
def quoted (s : String) : String :=
  "\"" ++ String.ofList (s.toList.flatMap Quoted.escape) ++ "\""

end PathQueryIndex.Text
