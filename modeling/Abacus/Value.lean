import Abacus.Number.Fixed
import Abacus.Number.Numeral
import Abacus.Number.Shortest

/-!
# Values

A value is a number in double precision, held as its sixty-four bits.  Two
values are equal when their bits are: the two zeros differ, and an undefined
number equals itself if its payload is the same.  The comparison that the
arithmetic standard prescribes is a separate relation (`Value.same`,
`Value.compare?`), in which the zeros agree and an undefined number is unordered.

A value has two texts.  `Value.text` gives six significant digits, and is what a
program run prints.  `Value.exactText?` gives the shortest digits that read back,
and is what the structured form of a chunk holds.
-/

namespace Abacus

/-- A number in double precision. -/
structure Value where
  /-- The bits of the number. -/
  bits : UInt64
  deriving DecidableEq, Repr, Inhabited

namespace Value

/-- The number as the hardware computes with it. -/
def number (v : Value) : Float := Float.ofBits v.bits

/-- The value of a computed number. -/
def ofNumber (x : Float) : Value := ⟨x.toBits⟩

/-! ## Arithmetic -/

instance : Add Value := ⟨fun a b => ofNumber (a.number + b.number)⟩
instance : Sub Value := ⟨fun a b => ofNumber (a.number - b.number)⟩
instance : Mul Value := ⟨fun a b => ofNumber (a.number * b.number)⟩
instance : Div Value := ⟨fun a b => ofNumber (a.number / b.number)⟩

/-- Negation turns the sign over, of zeros and undefined numbers too. -/
instance : Neg Value := ⟨fun a => ⟨a.bits ^^^ Binary64.signBit⟩⟩

/-- Equality of numbers. -/
def same (a b : Value) : Bool := a.number == b.number

/-- The order of two numbers, unless one of them is undefined. -/
def compare? (a b : Value) : Option Ordering :=
  if a.number < b.number then some .lt
  else if b.number < a.number then some .gt
  else if a.same b then some .eq
  else none

/-- The value that a written number is read as. -/
def read? (text : List Char) : Option Value :=
  (Numeral.read? text).map Value.mk

/-! ## Texts -/

/-- The sign to write before a magnitude. -/
def signText (v : Value) : String :=
  if Binary64.isNegative v.bits then "-" else ""

/-- The text of a positive number.  The number is rounded to six significant digits, a half
going to the even digit, and the exponent of the rounded number decides.  From `0.0001` up to
a million the number is rounded once more, to the place of the sixth digit, and written out;
for all others the exponent is spelled with two digits or more. -/
def positiveText (r : Ratio) : String :=
  let (digits, x) := r.significant 6
  if -4 ≤ x ∧ x < 6 then String.ofList (trimFraction (r.fixed (5 - x).toNat))
  else String.ofList (trimFraction (withPlaces 5 digits)) ++ Layout.spelledExponent 2 x

/-- The number to six significant digits. -/
def text (v : Value) : String :=
  if Binary64.isNaN v.bits then "nan"
  else if Binary64.isInfinite v.bits then v.signText ++ "inf"
  else if Binary64.isZero v.bits then v.signText ++ "0"
  else v.signText ++ positiveText (Binary64.scaled v.bits).ratio

/-- Numbers from `0.00001` up to `10 ^ 16` are written out, with a fraction in
every case. -/
def exactLayout : Layout where
  least := -5
  limit := 16
  markWhole := true
  exponentWidth := 1

/-- The shortest digits that read back as the number; no text for what is not a
finite number. -/
def exactText? (v : Value) : Option String :=
  if Binary64.isNaN v.bits || Binary64.isInfinite v.bits then none
  else if Binary64.isZero v.bits then some (v.signText ++ "0.0")
  else
    let (digits, x) := (Binary64.scaled v.bits).shortest
    some (v.signText ++ exactLayout.write digits x)

end Value

end Abacus
