import Abacus.Text.Pad

/-!
# Layout of decimal digits

Digits and the exponent of the leading one can be written with a point at its
place, or with the point behind the first digit and the exponent spelled out.
A `Layout` records the choices an output format makes between the two.
-/

namespace Abacus

/-- The choices of an output format for decimal numbers. -/
structure Layout where
  /-- The least exponent that is written with the point at its place. -/
  least : Int
  /-- The first exponent that is spelled out again. -/
  limit : Int
  /-- Whether a number without a fraction is written with the fraction `.0`. -/
  markWhole : Bool
  /-- The least number of digits in a spelled exponent. -/
  exponentWidth : Nat

namespace Layout

/-- A text without the repetitions of a character that it ends with. -/
def dropLast (c : Char) (text : List Char) : List Char :=
  (text.reverse.dropWhile (· = c)).reverse

/-- The digits without the zeros they end with. -/
def dropZeros (digits : List Char) : List Char := dropLast '0' digits

/-- The digits before and behind the point, with the leading digit at `10 ^ x`. -/
def place (digits : List Char) (x : Int) : List Char × List Char :=
  if x < 0 then (['0'], List.replicate (-x - 1).toNat '0' ++ digits)
  else
    let n := x.toNat + 1
    (digits.take n ++ List.replicate (n - digits.length) '0', digits.drop n)

/-- Digits with a point in front of the fraction, if there is one. -/
def pointed (whole fraction : List Char) : List Char :=
  if fraction = [] then whole else whole ++ '.' :: fraction

/-- An exponent spelled with at least the given number of digits. -/
def spelledExponent (width : Nat) (x : Int) : String :=
  "e" ++ (if x < 0 then "-" else "+") ++ Text.padLeft width '0' (Nat.repr x.natAbs)

/-- Digits written out, the leading one at `10 ^ x`.  Zeros at the end of the
digits are dropped first, and written again only where they hold a place. -/
def write (l : Layout) (digits : List Char) (x : Int) : String :=
  let digits := dropZeros digits
  if l.least ≤ x ∧ x < l.limit then
    let (whole, rest) := place digits x
    let rest := if l.markWhole && rest.isEmpty then ['0'] else rest
    String.ofList (pointed whole rest)
  else
    let mantissa := pointed (digits.take 1) (digits.drop 1)
    String.ofList mantissa ++ spelledExponent l.exponentWidth x

end Layout

end Abacus
