/-!
# Non-negative fractions

Exact arithmetic for reading and writing numbers.  A `Ratio` is a numerator
over a denominator, not reduced: every operation here multiplies one of the two,
so no common factor is ever looked for.  Denominators are positive in all uses.

Two roundings are defined.  `Ratio.nearest` takes a fraction to the nearest
integer, and a half to the even one of its neighbours.  `Ratio.significant`
takes a positive fraction to a given number of significant decimal digits by
the same rule, and gives the digits as one integer together with the exponent
of the leading digit.  That exponent is the one of the rounded number: a
fraction that rounds up to a power of ten has the exponent of that power.
-/

namespace Abacus

/-- The fraction `num / den`. -/
structure Ratio where
  num : Nat
  den : Nat
  deriving DecidableEq

namespace Ratio

/-- The fraction multiplied by `base` to the power `k`, where `k` may be negative. -/
def scale (r : Ratio) (base : Nat) (k : Int) : Ratio :=
  if 0 ≤ k then ⟨r.num * base.pow k.toNat, r.den⟩ else ⟨r.num, r.den * base.pow (-k).toNat⟩

/-- The nearest integer; a half goes to the even neighbour. -/
def nearest (r : Ratio) : Nat :=
  let below := r.num / r.den
  let twice := 2 * (r.num % r.den)
  if twice < r.den then below
  else if r.den < twice then below + 1
  else below + below % 2

/-- Whether one fraction is less than another. -/
def lt (r s : Ratio) : Bool :=
  r.num * s.den < s.num * r.den

/-- Whether one fraction is at most another. -/
def le (r s : Ratio) : Bool :=
  r.num * s.den ≤ s.num * r.den

end Ratio

/-- How many decimal digits a number has; zero has none. -/
def digitCount (n : Nat) : Nat :=
  if n = 0 then 0 else digitCount (n / 10) + 1

@[simp] theorem digitCount_zero : digitCount 0 = 0 := by
  rw [digitCount]; rfl

theorem digitCount_pos {n : Nat} (h : 0 < n) : digitCount n = digitCount (n / 10) + 1 := by
  rw [digitCount, if_neg (by omega)]

/-- A number is below the power of ten that its digit count names. -/
theorem lt_pow_digitCount (n : Nat) : n < Nat.pow 10 (digitCount n) := by
  induction n using Nat.strongRecOn with
  | ind n ih =>
      by_cases h : n = 0
      · rw [h, digitCount_zero]
        exact Nat.zero_lt_one
      · have below := ih (n / 10) (by omega)
        rw [digitCount_pos (by omega)]
        change n < Nat.pow 10 (digitCount (n / 10)) * 10
        omega

/-- A positive number reaches the power of ten one below its digit count. -/
theorem pow_digitCount_le {n : Nat} (h : 0 < n) : Nat.pow 10 (digitCount n - 1) ≤ n := by
  induction n using Nat.strongRecOn with
  | ind n ih =>
      rw [digitCount_pos h, Nat.add_sub_cancel]
      by_cases hn : n / 10 = 0
      · rw [hn, digitCount_zero]
        exact h
      · have reached := ih (n / 10) (by omega) (by omega)
        rw [digitCount_pos (n := n / 10) (by omega)] at reached ⊢
        rw [Nat.add_sub_cancel] at reached
        change Nat.pow 10 (digitCount (n / 10 / 10)) * 10 ≤ n
        omega

namespace Ratio

/-- The exponent `x` for which `10 ^ x ≤ r < 10 ^ (x + 1)`.

Below one, `x` is the negative of the least `k` that brings `r * 10 ^ k` to one
or more, which is the digit count of the largest integer below `1 / r`. -/
def exponent (r : Ratio) : Int :=
  if r.den ≤ r.num then digitCount (r.num / r.den) - 1
  else -(digitCount ((r.den - 1) / r.num) : Int)

/-- A positive fraction to `places` significant digits: the digits as one
integer, and the exponent of the leading one. -/
def significant (places : Nat) (r : Ratio) : Nat × Int :=
  let x := r.exponent
  let digits := (r.scale 10 (places - 1 - x)).nearest
  if digits = Nat.pow 10 places then (Nat.pow 10 (places - 1), x + 1) else (digits, x)

end Ratio

end Abacus
