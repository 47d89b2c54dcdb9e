import Abacus.Number.Layout
import Abacus.Number.Ratio

/-!
# Fixed places

A fraction written with a fixed number of decimal places, zeros included, and such a
text with the zeros trimmed that say nothing.
-/

namespace Abacus

/-- The lowest `places` decimal digits of a number. -/
def lastDigits : Nat → Nat → List Char
  | 0, _ => []
  | places + 1, n => lastDigits places (n / 10) ++ [Nat.digitChar (n % 10)]

/-- The number `n / 10 ^ places`, with all its places. -/
def withPlaces (places n : Nat) : List Char :=
  Layout.pointed (Nat.toDigits 10 (n / Nat.pow 10 places)) (lastDigits places n)

/-- A fraction rounded to a number of places behind the point, all of them written. -/
def Ratio.fixed (places : Nat) (r : Ratio) : List Char :=
  withPlaces places (r.scale 10 places).nearest

/-- A text without the zeros at the end of a fraction, and without a point that is left
with nothing behind it. -/
def trimFraction (text : List Char) : List Char :=
  if '.' ∈ text then Layout.dropLast '.' (Layout.dropZeros text) else text

end Abacus
