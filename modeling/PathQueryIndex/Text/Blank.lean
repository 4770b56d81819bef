/-
Module: PathQueryIndex.Text.Blank
Layer: Core
Purpose: Cutting text: at a separator, into lines, and into words. Words are separated by the
  characters with the property White_Space, in graph files, in queries and in settings.
Imports: none
Main exports: pieces, isBlank, trimBlanks, words
-/

namespace PathQueryIndex.Text

universe u

/-- The stretches between the elements that satisfy `p`; there is one more of them than separators. -/
def pieces {α : Type u} (p : α → Bool) : List α → List (List α)
  | [] => [[]]
  | x :: xs =>
    if p x then [] :: pieces p xs
    else
      match pieces p xs with
      | [] => [[x]]
      | w :: ws => (x :: w) :: ws

/-- The property White_Space: tabulators and line ends, the spaces of every width, and the separators
    of lines and paragraphs. -/
def isBlank (c : Char) : Bool :=
  let n := c.toNat
  (0x0009 ≤ n && n ≤ 0x000D) || n == 0x0020 || n == 0x0085 || n == 0x00A0 || n == 0x1680 ||
    (0x2000 ≤ n && n ≤ 0x200A) || n == 0x2028 || n == 0x2029 || n == 0x202F || n == 0x205F ||
    n == 0x3000

/-- Drop the blanks at both ends. -/
def trimBlanks (cs : List Char) : List Char :=
  ((cs.dropWhile isBlank).reverse.dropWhile isBlank).reverse

/-- The longest stretches without a blank, in order. -/
def words (cs : List Char) : List (List Char) :=
  (pieces isBlank cs).filter (!·.isEmpty)

end PathQueryIndex.Text
