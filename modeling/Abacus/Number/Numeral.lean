import Abacus.Number.Binary64

/-!
# Written numbers

The grammar of a written number is

    numeral  := sign? (special | digits exponent?)
    special  := "inf" | "infinity" | "nan"          in any mix of cases
    digits   := digit+ ("." digit*)? | "." digit+
    exponent := ("e" | "E") sign? digit+
    sign     := "+" | "-"

and nothing may stand before or after it.  A numeral denotes a decimal fraction
exactly; `Numeral.word` is the nearest number in sixty-four bits.  Exponents far
outside the range of those are settled by counting digits, so that no power of
ten of that size is ever formed.
-/

namespace Abacus

/-- What a numeral denotes, apart from its sign. -/
inductive Numeral where
  | undefined
  | infinite
  /-- The number `digits * 10 ^ exponent`. -/
  | decimal (digits : Nat) (exponent : Int)
  deriving DecidableEq

namespace Numeral

/-- The number that a run of digits stands for. -/
def ofDigits (digits : List Char) : Nat :=
  digits.foldl (fun n c => 10 * n + (c.toNat - '0'.toNat)) 0

/-- A sign, if there is one: whether it is a minus, and the rest. -/
def readSign : List Char → Bool × List Char
  | '-' :: rest => (true, rest)
  | '+' :: rest => (false, rest)
  | text => (false, text)

/-- The number that the digits of an exponent stand for.  Digits behind one of
`0x10000` or more do not count. -/
def ofExponentDigits (digits : List Char) : Nat :=
  digits.foldl (fun n c => if n < 0x10000 then 10 * n + (c.toNat - '0'.toNat) else n) 0

/-- The exponent part, which reaches to the end of the text. -/
def readExponent? : List Char → Option Int
  | [] => some 0
  | mark :: rest =>
      let (negative, digits) := readSign rest
      if (mark = 'e' || mark = 'E') && !digits.isEmpty && digits.all Char.isDigit then
        let n : Int := ofExponentDigits digits
        some (if negative then -n else n)
      else none

/-- Digits with at most one point among them, and the rest: the whole digits,
those behind the point, and what follows. -/
def readDigits (text : List Char) : List Char × List Char × List Char :=
  let whole := text.takeWhile Char.isDigit
  match text.dropWhile Char.isDigit with
  | '.' :: rest => (whole, rest.takeWhile Char.isDigit, rest.dropWhile Char.isDigit)
  | rest => (whole, [], rest)

/-- A numeral without a sign. -/
def readUnsigned? (text : List Char) : Option Numeral :=
  let name := text.map Char.toLower
  if name = "nan".toList then some .undefined
  else if name = "inf".toList || name = "infinity".toList then some .infinite
  else
    let (whole, fraction, rest) := readDigits text
    if whole.isEmpty && fraction.isEmpty then none
    else (readExponent? rest).map fun e =>
      .decimal (ofDigits (whole ++ fraction)) (e - fraction.length)

/-- The magnitude nearest to what a numeral denotes.

A positive decimal whose leading digit stands at `10 ^ 310` or above is past
every finite word, and one that stands below `10 ^ (-330)` is nearest to zero. -/
def word : Numeral → UInt64
  | .undefined => Binary64.undefinedNumber
  | .infinite => Binary64.infinity
  | .decimal digits exponent =>
      let leading : Int := digitCount digits + exponent - 1
      if digits = 0 || leading < -330 then 0
      else if 310 ≤ leading then Binary64.infinity
      else Binary64.ofRatio (Ratio.scale ⟨digits, 1⟩ 10 exponent)

/-- The number in sixty-four bits that a text is read as. -/
def read? (text : List Char) : Option UInt64 :=
  let (negative, rest) := readSign text
  (readUnsigned? rest).map fun n => Binary64.withSign negative n.word

end Numeral

end Abacus
