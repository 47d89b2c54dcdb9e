import Abacus.Value
import Mathlib.Algebra.Order.Field.Power
import Mathlib.Algebra.Order.Ring.Rat
import Mathlib.Data.Nat.Bitwise
import Mathlib.Tactic.Linarith
import Mathlib.Tactic.Positivity
import Mathlib.Tactic.Ring

/-!
# Rounding to decimal digits

A finite number in sixty-four bits is a rational number, and so is what it is rounded
to.  Rounding to significant digits is rounding at a place, and the place depends on where
the leading digit stands.

*Two places.*  Rounding up may go on to the next power of ten, and then the leading digit
of the result stands one place higher than that of the number.  The number can be rounded
at the place its own leading digit calls for, or at the one that the leading digit of the
result calls for.  Both come to the same (`Ratio.significant_spec`): the power of ten is
less than half a unit away in the one place, so it is still nearer in the other, where
the unit is ten times as large (`Nearest.div_ten`).
-/

namespace Abacus

/-! ## Rounding of rational numbers -/

/-- `n` is the integer nearest to `q`, and the even one where two are equally near. -/
structure Nearest (q : ℚ) (n : ℤ) : Prop where
  near : |q - n| ≤ 1 / 2
  even : |q - n| = 1 / 2 → Even n

namespace Nearest

variable {q : ℚ} {m n : ℤ}

/-- What is less than a half away is nearest. -/
theorem of_lt (h : |q - n| < 1 / 2) : Nearest q n := ⟨h.le, fun heq => absurd heq h.ne⟩

theorem neg (h : Nearest q n) : Nearest (-q) (-n) := by
  have hdist : |-q - (-n : ℤ)| = |q - n| := by
    rw [Int.cast_neg, ← abs_neg (q - n)]
    congr 1
    ring
  exact ⟨hdist ▸ h.near, fun htie => (h.even (hdist ▸ htie)).neg⟩

/-- No whole number comes between a number and the nearest one. -/
theorem le_of_le (h : Nearest q n) (hm : m ≤ q) : m ≤ n := by
  have hnear := (abs_le.mp h.near).2
  have : (m : ℚ) < n + 1 := by linarith
  exact Int.lt_add_one_iff.mp (by exact_mod_cast this)

theorem le_of_lt (h : Nearest q n) (hm : q < m) : n ≤ m := by
  have hnear := (abs_le.mp h.near).1
  have : (n : ℚ) < m + 1 := by linarith
  exact Int.lt_add_one_iff.mp (by exact_mod_cast this)

/-- A multiple of ten stays the nearest if the unit grows to ten. -/
theorem div_ten (h : Nearest q (10 * n)) : Nearest (q / 10) n := by
  obtain ⟨hleft, hright⟩ := abs_le.mp h.near
  push_cast at hleft hright
  apply of_lt
  rw [abs_lt]
  constructor <;> linarith

/-- At most one whole number is nearest: two of them would be half-way to both sides, and
only one is even. -/
theorem unique (hm : Nearest q m) (hn : Nearest q n) : m = n := by
  wlog hlt : m < n generalizing m n
  · rcases lt_trichotomy m n with h | h | h
    · exact absurd h hlt
    · exact h
    · exact (this hn hm h).symm
  have hstep : (m : ℚ) + 1 ≤ n := by exact_mod_cast hlt
  obtain ⟨-, hright⟩ := abs_le.mp hm.near
  obtain ⟨hleft, -⟩ := abs_le.mp hn.near
  -- Both are half a unit away, so both are even, and they are neighbours.
  have hq : q - m = 1 / 2 := by linarith
  have hq' : q - n = -(1 / 2) := by linarith
  have heven := hm.even (by rw [hq]; norm_num)
  have heven' := hn.even (by rw [hq']; norm_num)
  have hnext : n = m + 1 := by
    have : (n : ℚ) = m + 1 := by linarith
    exact_mod_cast this
  rw [hnext, Int.even_add_one] at heven'
  exact absurd heven heven'

end Nearest

/-- `r` is the multiple of `10 ^ x` nearest to `q`, the even one of two. -/
def RoundsAt (x : ℤ) (q r : ℚ) : Prop :=
  ∃ n : ℤ, Nearest (q / 10 ^ x) n ∧ r = n * 10 ^ x

/-- The leading digit of `q` stands at `10 ^ x`. -/
def Leads (x : ℤ) (q : ℚ) : Prop :=
  10 ^ x ≤ |q| ∧ |q| < 10 ^ (x + 1)

/-- `r` is `q` to a number of significant decimal digits. -/
def RoundsTo (places : ℕ) (q r : ℚ) : Prop :=
  ∃ x, Leads x q ∧ RoundsAt (x + 1 - places) q r

/-- Rounding at a place has one result. -/
theorem RoundsAt.unique {x : ℤ} {q r r' : ℚ} (h : RoundsAt x q r) (h' : RoundsAt x q r') :
    r = r' := by
  obtain ⟨n, hn, rfl⟩ := h
  obtain ⟨n', hn', rfl⟩ := h'
  rw [hn.unique hn']

/-- Rounding treats both signs alike. -/
theorem RoundsAt.neg {x : ℤ} {q r : ℚ} (h : RoundsAt x q r) : RoundsAt x (-q) (-r) := by
  obtain ⟨n, hn, rfl⟩ := h
  exact ⟨-n, by rw [neg_div]; exact hn.neg, by push_cast; ring⟩

theorem Leads.neg {x : ℤ} {q : ℚ} (h : Leads x q) : Leads x (-q) := by
  rwa [Leads, abs_neg]

/-- The leading digit stands at one place only. -/
theorem Leads.unique {x y : ℤ} {q : ℚ} (h : Leads x q) (h' : Leads y q) : x = y := by
  have hten : (1 : ℚ) < 10 := by norm_num
  have hxy : x < y + 1 := (zpow_lt_zpow_iff_right₀ hten).mp (h.1.trans_lt h'.2)
  have hyx : y < x + 1 := (zpow_lt_zpow_iff_right₀ hten).mp (h'.1.trans_lt h.2)
  omega

/-- Rounding to a number of digits has one result. -/
theorem RoundsTo.unique {places : ℕ} {q r r' : ℚ} (h : RoundsTo places q r)
    (h' : RoundsTo places q r') : r = r' := by
  obtain ⟨x, hx, hr⟩ := h
  obtain ⟨x', hx', hr'⟩ := h'
  obtain rfl := hx.unique hx'
  exact hr.unique hr'

theorem RoundsTo.neg {places : ℕ} {q r : ℚ} (h : RoundsTo places q r) :
    RoundsTo places (-q) (-r) := by
  obtain ⟨x, hx, hr⟩ := h
  exact ⟨x, hx.neg, hr.neg⟩

/-- Moving the point moves the leading digit. -/
theorem Leads.mul_zpow {x : ℤ} {q : ℚ} (h : Leads x q) (k : ℤ) : Leads (x + k) (q * 10 ^ k) := by
  have hten : (10 : ℚ) ≠ 0 := by norm_num
  have hpos : (0 : ℚ) < 10 ^ k := by positivity
  rw [Leads, abs_mul, abs_of_pos hpos, zpow_add₀ hten, add_right_comm, zpow_add₀ hten,
    mul_le_mul_iff_of_pos_right hpos, mul_lt_mul_iff_of_pos_right hpos]
  exact h

/-- A whole number leads with its number of digits. -/
theorem leads_natCast_iff {k n : ℕ} : Leads k n ↔ 10 ^ k ≤ n ∧ n < 10 ^ (k + 1) := by
  rw [Leads, Nat.abs_cast]
  norm_cast

/-- Rounding to an integer keeps the number of digits, except that it may reach the next
power of ten. -/
theorem Leads.bounds_of_nearest {k n : ℕ} {q : ℚ} (h : Leads k q) (hq : 0 ≤ q)
    (hn : Nearest q n) : 10 ^ k ≤ n ∧ n ≤ 10 ^ (k + 1) := by
  obtain ⟨hlow, hhigh⟩ := h
  rw [abs_of_nonneg hq] at hlow hhigh
  have hlow' := hn.le_of_le (m := 10 ^ k) (by exact_mod_cast hlow)
  have hhigh' := hn.le_of_lt (m := 10 ^ (k + 1)) (by exact_mod_cast hhigh)
  exact ⟨by exact_mod_cast hlow', by exact_mod_cast hhigh'⟩

/-! ## Rounding of fractions -/

namespace Ratio

/-- The fraction as a rational number. -/
def toRat (r : Ratio) : ℚ := r.num / r.den

/-- Scaling a fraction multiplies its value by a power of the base, upwards or downwards. -/
theorem toRat_scale (r : Ratio) (base : ℕ) (k : ℤ) :
    (r.scale base k).toRat = r.toRat * (base : ℚ) ^ k := by
  unfold scale
  split
  next h =>
    obtain ⟨n, rfl⟩ := Int.eq_ofNat_of_zero_le h
    show ((r.num * base ^ n : ℕ) : ℚ) / r.den = r.num / r.den * (base : ℚ) ^ (n : ℤ)
    rw [zpow_natCast]
    push_cast
    ring
  next h =>
    obtain ⟨n, hn⟩ := Int.eq_ofNat_of_zero_le (show 0 ≤ -k by omega)
    obtain rfl : k = -n := by omega
    show (r.num : ℚ) / ((r.den * base ^ (- -(n : ℤ)).toNat : ℕ) : ℚ) =
      r.num / r.den * (base : ℚ) ^ (-(n : ℤ))
    rw [neg_neg, Int.toNat_natCast, zpow_neg, zpow_natCast]
    push_cast
    rw [div_mul_eq_div_div, div_eq_mul_inv _ ((base : ℚ) ^ n)]

/-- Scaling never makes a denominator zero. -/
theorem den_scale_pos {r : Ratio} {base : ℕ} (h : 0 < r.den) (hbase : 0 < base) (k : ℤ) :
    0 < (r.scale base k).den := by
  unfold scale
  split
  · exact h
  · exact Nat.mul_pos h (Nat.pow_pos hbase)

theorem num_pos {r : Ratio} (h : 0 < r.toRat) : 0 < r.num := by
  by_contra hnot
  rw [toRat, Nat.eq_zero_of_not_pos hnot, Nat.cast_zero, zero_div] at h
  exact h.false

/-- The whole part and what is left of it. -/
theorem toRat_eq_add {r : Ratio} (h : 0 < r.den) :
    r.toRat = (r.num / r.den : ℕ) + ((r.num % r.den : ℕ) : ℚ) / r.den := by
  have hne : (r.den : ℚ) ≠ 0 := by exact_mod_cast h.ne'
  have hsum : (r.num : ℚ) = r.den * (r.num / r.den : ℕ) + (r.num % r.den : ℕ) := by
    exact_mod_cast (Nat.div_add_mod r.num r.den).symm
  rw [toRat, hsum, add_div, mul_div_cancel_left₀ _ hne]

/-- The quotient of a fraction, with its remainder compared to the half, is the nearest
whole number. -/
theorem nearest_toRat {r : Ratio} (h : 0 < r.den) : Nearest r.toRat r.nearest := by
  have hpos : (0 : ℚ) < r.den := by exact_mod_cast h
  have hleft : 0 ≤ ((r.num % r.den : ℕ) : ℚ) / r.den := by positivity
  have hq := toRat_eq_add h
  simp only [nearest]
  split
  next hlt =>
    have hhalf : ((r.num % r.den : ℕ) : ℚ) / r.den < 1 / 2 := by
      rw [div_lt_div_iff₀ hpos two_pos, one_mul, mul_comm]
      exact_mod_cast hlt
    apply Nearest.of_lt
    rw [hq, Int.cast_natCast, add_sub_cancel_left, abs_of_nonneg hleft]
    exact hhalf
  split
  next hge hgt =>
    have hhalf : 1 / 2 < ((r.num % r.den : ℕ) : ℚ) / r.den := by
      rw [div_lt_div_iff₀ two_pos hpos, one_mul, mul_comm]
      exact_mod_cast hgt
    have hone : ((r.num % r.den : ℕ) : ℚ) / r.den < 1 := by
      rw [div_lt_one hpos]
      exact_mod_cast Nat.mod_lt _ h
    apply Nearest.of_lt
    rw [hq, Int.cast_natCast, Nat.cast_add, Nat.cast_one, abs_lt]
    constructor <;> linarith
  next hge hle =>
    -- a tie: of the quotient and the next number the even one is taken
    have hhalf : ((r.num % r.den : ℕ) : ℚ) / r.den = 1 / 2 := by
      rw [div_eq_div_iff hpos.ne' two_ne_zero, one_mul, mul_comm]
      exact_mod_cast (show 2 * (r.num % r.den) = r.den by omega)
    have hrest : r.num / r.den % 2 = 0 ∨ r.num / r.den % 2 = 1 := Nat.mod_two_eq_zero_or_one _
    constructor
    · rw [hq, hhalf, Int.cast_natCast, Nat.cast_add, add_sub_add_left_eq_sub]
      rcases hrest with hrest | hrest <;> rw [hrest] <;> norm_num
    · intro _
      rw [Int.even_iff]
      omega

/-- A positive fraction has its leading digit at its exponent. -/
theorem leads_exponent {r : Ratio} (hnum : 0 < r.num) (hden : 0 < r.den) :
    Leads r.exponent r.toRat := by
  have hnum' : (0 : ℚ) < r.num := by exact_mod_cast hnum
  have hden' : (0 : ℚ) < r.den := by exact_mod_cast hden
  have hpos : (0 : ℚ) ≤ r.toRat := by unfold toRat; positivity
  rw [Leads, abs_of_nonneg hpos, exponent, toRat]
  split
  next h =>
    have hwhole : 0 < r.num / r.den := Nat.div_pos h hden
    obtain ⟨k, hk⟩ : ∃ k, digitCount (r.num / r.den) = k + 1 := ⟨_, digitCount_pos hwhole⟩
    have hlow : 10 ^ k ≤ r.num / r.den := by simpa [hk] using pow_digitCount_le hwhole
    have hhigh : r.num / r.den < 10 ^ (k + 1) := hk ▸ lt_pow_digitCount _
    rw [hk, Nat.cast_add, Nat.cast_one, add_sub_cancel_right, le_div_iff₀ hden', div_lt_iff₀ hden']
    exact ⟨by exact_mod_cast (Nat.le_div_iff_mul_le hden).mp hlow,
      by exact_mod_cast (Nat.div_lt_iff_lt_mul hden).mp hhigh⟩
  next h =>
    have hwhole : 0 < (r.den - 1) / r.num := Nat.div_pos (by omega) hnum
    obtain ⟨k, hk⟩ : ∃ k, digitCount ((r.den - 1) / r.num) = k + 1 := ⟨_, digitCount_pos hwhole⟩
    have hlow : 10 ^ k ≤ (r.den - 1) / r.num := by simpa [hk] using pow_digitCount_le hwhole
    have hhigh : (r.den - 1) / r.num < 10 ^ (k + 1) := hk ▸ lt_pow_digitCount _
    have hlow' := (Nat.le_div_iff_mul_le hnum).mp hlow
    have hhigh' := (Nat.div_lt_iff_lt_mul hnum).mp hhigh
    have hexp : -((k + 1 : ℕ) : ℤ) + 1 = -(k : ℤ) := by omega
    rw [hk, hexp, zpow_neg, zpow_neg, zpow_natCast, zpow_natCast, ← one_div, ← one_div,
      div_le_div_iff₀ (by positivity) hden', div_lt_div_iff₀ hden' (by positivity), one_mul]
    exact ⟨by exact_mod_cast (show r.den ≤ r.num * 10 ^ (k + 1) by rw [mul_comm]; omega),
      by exact_mod_cast (show r.num * 10 ^ k < r.den by rw [mul_comm]; omega)⟩

/-- Scaling in front of rounding chooses the place that is rounded to. -/
theorem nearest_scale {r : Ratio} (h : 0 < r.den) (k : ℤ) :
    Nearest (r.toRat / 10 ^ k) (r.scale 10 (-k)).nearest := by
  have hnearest := nearest_toRat (den_scale_pos h (show 0 < 10 by decide) (-k))
  rwa [toRat_scale, zpow_neg, ← div_eq_mul_inv] at hnearest

/-- What rounding to significant digits gives: the right number of digits, and the
fraction both to that many digits and to the place of the last one that is given.  Where
rounding up goes on to the next power of ten, that place is one above the place that the
fraction was rounded at. -/
theorem significant_spec {k n : ℕ} {x : ℤ} {r : Ratio} (hnum : 0 < r.num) (hden : 0 < r.den)
    (h : r.significant (k + 1) = (n, x)) :
    10 ^ k ≤ n ∧ n < 10 ^ (k + 1) ∧ RoundsTo (k + 1) r.toRat (n * 10 ^ (x - k)) ∧
    Nearest (r.toRat / 10 ^ (x - k)) n := by
  have hten : (10 : ℚ) ≠ 0 := by norm_num
  have hleads := leads_exponent hnum hden
  have hnearest := nearest_scale hden (r.exponent - k)
  have hfirst : r.exponent + 1 - (k + 1 : ℕ) = r.exponent - k := by omega
  have hscale : ((k + 1 : ℕ) : ℤ) - 1 - r.exponent = -(r.exponent - k) := by omega
  simp only [significant, hscale] at h
  generalize (r.scale 10 (-(r.exponent - k))).nearest = digits at h hnearest
  have hrounded : RoundsTo (k + 1) r.toRat (digits * 10 ^ (r.exponent - k)) :=
    ⟨r.exponent, hleads, digits, by rwa [hfirst], by rw [hfirst, Int.cast_natCast]⟩
  split at h
  next hcarry =>
    -- The digits are a power of ten, so one of its zeros can go into the exponent.
    obtain ⟨hn, rfl⟩ := Prod.mk.inj h
    obtain rfl : n = 10 ^ k := hn.symm
    have hdigits : digits = 10 * 10 ^ k := by rw [hcarry]; exact Nat.pow_succ'
    rw [hdigits] at hnearest hrounded
    rw [add_sub_right_comm, zpow_add_one₀ hten, ← div_div]
    refine ⟨le_rfl, Nat.pow_lt_pow_right (by decide) (Nat.lt_succ_self k), ?_,
      hnearest.div_ten⟩
    convert hrounded using 1
    push_cast
    ring
  next hcarry =>
    obtain ⟨rfl, rfl⟩ := Prod.mk.inj h
    have hscaled : Leads k (r.toRat / 10 ^ (r.exponent - k)) := by
      have hmoved := hleads.mul_zpow (-(r.exponent - k))
      rwa [zpow_neg, ← div_eq_mul_inv, neg_sub, add_sub_cancel] at hmoved
    have hpos : 0 ≤ r.toRat := by unfold toRat; positivity
    obtain ⟨hlow, hhigh⟩ := hscaled.bounds_of_nearest (by positivity) hnearest
    exact ⟨hlow, lt_of_le_of_ne hhigh hcarry, hrounded, hnearest⟩

end Ratio

/-! ## Numbers in sixty-four bits -/

namespace Value

/-- The eleven bits of the exponent. -/
def exponentField (v : Value) : ℕ := v.bits.toNat / 2 ^ 52 % 2 ^ 11

/-- The fifty-two bits of the fraction. -/
def fractionField (v : Value) : ℕ := v.bits.toNat % 2 ^ 52

/-- A number, neither infinite nor undefined. -/
def IsFinite (v : Value) : Prop := v.exponentField < 2 ^ 11 - 1

instance (v : Value) : Decidable v.IsFinite := inferInstanceAs (Decidable (_ < _))

/-- The absolute value of a finite number. -/
def magnitude (v : Value) : ℚ :=
  if v.exponentField = 0 then v.fractionField * 2 ^ (-1074 : ℤ)
  else (2 ^ 52 + v.fractionField) * 2 ^ ((v.exponentField : ℤ) - 1075)

/-- The number that the bits of a finite number stand for. -/
def toRat (v : Value) : ℚ :=
  if v.bits.toNat < 2 ^ 63 then v.magnitude else -v.magnitude

/-- Without its sign bit a word is its remainder by the place of that bit. -/
theorem toNat_magnitude (word : UInt64) :
    (Binary64.magnitude word).toNat = word.toNat % 2 ^ 63 := by
  rw [Binary64.magnitude, UInt64.toNat_and]
  exact Nat.and_two_pow_sub_one_eq_mod word.toNat 63

theorem isNegative_iff {word : UInt64} : Binary64.isNegative word ↔ 2 ^ 63 ≤ word.toNat := by
  have hbit : (word &&& Binary64.signBit).toNat = (word.toNat.testBit 63).toNat * 2 ^ 63 := by
    rw [UInt64.toNat_and]
    exact Nat.and_two_pow word.toNat 63
  have hlt := word.toNat_lt
  have htop : word.toNat.testBit 63 ↔ 2 ^ 63 ≤ word.toNat := by
    rw [Nat.testBit_eq_decide_div_mod_eq, decide_eq_true_iff]
    omega
  rw [Binary64.isNegative, bne_iff_ne, Ne, ← UInt64.toNat_inj, hbit, ← htop]
  cases word.toNat.testBit 63 <;> simp

/-- The scaled form of a number has the value that its fields describe. -/
theorem toRat_scaled (v : Value) : (Binary64.scaled v.bits).ratio.toRat = v.magnitude := by
  have hfield : (Binary64.magnitude v.bits >>> 52).toNat = v.exponentField := by
    rw [UInt64.toNat_shiftRight, toNat_magnitude, Nat.shiftRight_eq_div_pow]
    show v.bits.toNat % 2 ^ 63 / 2 ^ 52 = v.bits.toNat / 2 ^ 52 % 2 ^ 11
    omega
  have hfraction : (v.bits &&& 0xFFFFFFFFFFFFF).toNat = v.fractionField := by
    rw [UInt64.toNat_and]
    exact Nat.and_two_pow_sub_one_eq_mod v.bits.toNat 52
  rw [Binary64.Scaled.ratio, Ratio.toRat_scale]
  simp only [Binary64.scaled, hfield, hfraction, magnitude]
  split
  · simp [Ratio.toRat]
  · norm_num [Ratio.toRat, Binary64.fullUnits]

/-- A number is zero only if its magnitude is. -/
theorem magnitude_pos {v : Value} (h : v.toRat ≠ 0) : 0 < v.magnitude := by
  have hnonneg : 0 ≤ v.magnitude := by
    unfold magnitude
    split <;> positivity
  refine lt_of_le_of_ne hnonneg fun hzero => h ?_
  rw [toRat, ← hzero, neg_zero, ite_self]

/-- Apart from the zeros, the sign bit tells the negative numbers. -/
theorem toRat_neg_iff {v : Value} (h : v.toRat ≠ 0) : v.toRat < 0 ↔ Binary64.isNegative v.bits := by
  have hpos := magnitude_pos h
  rw [isNegative_iff, toRat]
  split
  next hlt => simp only [not_lt.mpr hpos.le, not_le.mpr hlt]
  next hge => simp only [neg_neg_iff_pos, hpos, not_lt.mp hge]

end Value

end Abacus
