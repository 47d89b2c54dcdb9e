import Abacus.Number.Ratio

/-!
# Numbers in sixty-four bits

The binary interchange format of double precision: a sign bit, eleven bits of
exponent and fifty-two of fraction.  A finite word stands for a whole number of
units `m * 2 ^ q`.  The smallest unit is `2 ^ (-1074)`, and every finite word
whose exponent field is zero or one counts in it.

`ofRatio` goes the other way.  It picks the unit in which the fraction has
fifty-three bits, or the smallest unit if that is larger, rounds to the nearest
whole number of units, and lays out the word.  No case is needed for a
mantissa that rounds up to the next power of two: the carry moves into the
exponent field, which is what the format intends.
-/

namespace Abacus.Binary64

/-- The bit that holds the sign. -/
def signBit : UInt64 := 0x8000000000000000

/-- The least number of units with fifty-three bits. -/
def fullUnits : Nat := 0x10000000000000

/-- The word of positive infinity. -/
def infinity : UInt64 := 0x7FF0000000000000

/-- The word read for an undefined number. -/
def undefinedNumber : UInt64 := 0x7FF8000000000000

/-- The word without its sign. -/
def magnitude (word : UInt64) : UInt64 :=
  word &&& 0x7FFFFFFFFFFFFFFF

/-- Whether the sign bit is set. -/
def isNegative (word : UInt64) : Bool :=
  word &&& signBit != 0

/-- Whether the word is no number. -/
def isNaN (word : UInt64) : Bool :=
  infinity < magnitude word

/-- Whether the word is one of the two infinities. -/
def isInfinite (word : UInt64) : Bool :=
  magnitude word = infinity

/-- Whether the word is one of the two zeros. -/
def isZero (word : UInt64) : Bool :=
  magnitude word = 0

/-- A magnitude as a whole number of units: `units * 2 ^ power`. -/
structure Scaled where
  units : Nat
  power : Int
  deriving DecidableEq

/-- The magnitude of a finite word. -/
def scaled (word : UInt64) : Scaled :=
  let field := (magnitude word >>> 52).toNat
  let fraction := (word &&& 0xFFFFFFFFFFFFF).toNat
  if field = 0 then ⟨fraction, -1074⟩ else ⟨fullUnits + fraction, field - 1075⟩

/-- The exact magnitude of a finite word. -/
def Scaled.ratio (s : Scaled) : Ratio :=
  Ratio.scale ⟨s.units, 1⟩ 2 s.power

/-- The exponent `x` for which `2 ^ x ≤ r < 2 ^ (x + 1)`. -/
def binaryExponent (r : Ratio) : Int :=
  let x : Int := (r.num.log2 : Int) - r.den.log2
  if (Ratio.scale ⟨1, 1⟩ 2 x).le r then x else x - 1

/-- The word nearest to a fraction; of two equally near ones, the even one. -/
def ofRatio (r : Ratio) : UInt64 :=
  if r.num = 0 then 0
  else
    let power := max (binaryExponent r - 52) (-1074)
    let units := (r.scale 2 (-power)).nearest
    let word := (power + 1074).toNat * fullUnits + units
    if word < infinity.toNat then word.toUInt64 else infinity

/-- A magnitude with a sign put on it. -/
def withSign (negative : Bool) (word : UInt64) : UInt64 :=
  if negative then word ||| signBit else word

end Abacus.Binary64
