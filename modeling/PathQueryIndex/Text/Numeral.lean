/-
Module: PathQueryIndex.Text.Numeral
Layer: Core
Purpose: Decimal numerals: digits only, read as a natural number, with an optional plus sign where a
  number stands alone, and a bound where the number has to fit a word.
Imports: none
Main exports: numeral, digitsValue?, natural?, word32?
-/

namespace PathQueryIndex.Text

/-- The shortest decimal numeral of a number. -/
def numeral (n : Nat) : List Char := Nat.toDigits 10 n

/-- The value of a non-empty run of decimal digits. -/
def digitsValue? (cs : List Char) : Option Nat :=
  if !cs.isEmpty && cs.all Char.isDigit then some (Nat.ofDigitChars 10 cs 0) else none

theorem digitsValue?_numeral (n : Nat) : digitsValue? (numeral n) = some n := by
  have hne : (numeral n).isEmpty = false := by
    simp [numeral, List.isEmpty_eq_false_iff, Nat.toDigits_ne_nil]
  have hall : (numeral n).all Char.isDigit = true :=
    List.all_eq_true.2 fun c hc => Nat.isDigit_of_mem_toDigits (by decide) (by decide) hc
  have hval : Nat.ofDigitChars 10 (numeral n) 0 = n :=
    Nat.ofDigitChars_toDigits (by decide) (by decide)
  simp [digitsValue?, hne, hall, hval]

/-- A natural number: digits, after at most one plus sign. -/
def natural? : List Char → Option Nat
  | '+' :: cs => digitsValue? cs
  | cs => digitsValue? cs

/-- A natural number below `bound`. -/
def naturalBelow? (bound : Nat) (cs : List Char) : Option Nat :=
  (natural? cs).filter (· < bound)

/-- A natural number that fits 32 bits. -/
def word32? (cs : List Char) : Option UInt32 :=
  (naturalBelow? UInt32.size cs).map UInt32.ofNat

end PathQueryIndex.Text
