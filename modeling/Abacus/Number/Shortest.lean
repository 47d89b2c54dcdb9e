import Abacus.Number.Binary64

/-!
# Shortest digits

Every finite number in sixty-four bits owns the interval of real numbers that
round to it: half a unit to each side, less below a power of two, where the
units get smaller.  The ends belong to the interval when the number is even.
The shortest digits of a number are the fewest that denote a point of its
interval, and of those the nearest to the number.

For a given count of digits it is enough to look at the two decimals next to
the number, one on each side: if any decimal of that many digits lies in the
interval, then so does one of these two.  Seventeen digits always suffice.
-/

namespace Abacus.Binary64

/-- The real numbers that round to a finite magnitude. -/
structure Interval where
  low : Ratio
  high : Ratio
  closed : Bool

/-- The interval of a finite magnitude, measured in quarters of its unit. -/
def Scaled.interval (s : Scaled) : Interval :=
  let quarters (n : Nat) : Ratio := Ratio.scale ⟨n, 1⟩ 2 (s.power - 2)
  let below := if s.units = fullUnits && s.power != -1074 then 1 else 2
  ⟨quarters (4 * s.units - below), quarters (4 * s.units + 2), s.units % 2 = 0⟩

/-- Whether a fraction lies in an interval. -/
def Interval.contains (i : Interval) (r : Ratio) : Bool :=
  if i.closed then i.low.le r && r.le i.high else i.low.lt r && r.lt i.high

/-- The decimal next to a number on a grid of `places` digits, if one of the
two neighbours lies in the interval; the nearer one if both do. -/
def Scaled.onGrid? (s : Scaled) (x : Int) (places : Nat) : Option Nat :=
  let power : Int := x + 1 - places
  let grid := s.ratio.scale 10 (-power)
  let below := grid.num / grid.den
  let inside (n : Nat) : Bool := s.interval.contains (Ratio.scale ⟨n, 1⟩ 10 power)
  match inside below, inside (below + 1) with
  | true, true => some grid.nearest
  | true, false => some below
  | false, true => some (below + 1)
  | false, false => none

/-- The shortest digits of a positive finite magnitude, and the exponent of the
leading one. -/
def Scaled.shortest (s : Scaled) : List Char × Int :=
  let x := s.ratio.exponent
  let found := (List.range 17).findSome? fun i =>
    (s.onGrid? x (i + 1)).map fun n => (Nat.toDigits 10 n, i + 1)
  match found with
  | some (digits, places) => (digits, x + digits.length - places)
  | none => (['0'], 0)

end Abacus.Binary64
