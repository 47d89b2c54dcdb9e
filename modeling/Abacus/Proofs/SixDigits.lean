import Abacus.Proofs.Rounding
import Abacus.Proofs.SingleLine
import Mathlib.Data.List.DropRight
import Mathlib.Tactic.FieldSimp

/-!
# Six digits

The text of a finite number denotes the number rounded to six significant digits.  It is
written out if the leading digit stands at `10 ^ (-4)` or above and below `10 ^ 6`, and
has its exponent spelled out otherwise.

*Trimming.*  Six digits and an exponent are a number of units in some decimal place, and
both ways of writing them put a point into the digits of that number and trim the zeros
that the fraction ends with (`trimFraction_withPlaces`).  Zeros before the point stay, and
a point goes with the last digit behind it.

*Rounding once more.*  A number that is written out is rounded a second time, at the place
where the sixth digit of the first result stands.  Both roundings give the same units
(`Ratio.fixed_of_nearest`), so that there is only one number that the text denotes.
-/

namespace Abacus

/-! ## Digits -/

namespace Numeral

theorem ofDigits_append (ds es : List Char) :
    ofDigits (ds ++ es) = ofDigits ds * 10 ^ es.length + ofDigits es := by
  show Nat.ofDigitChars 10 (ds ++ es) 0 = _
  rw [Nat.ofDigitChars_append, Nat.ofDigitChars_eq_ofDigitChars_zero, mul_comm]
  rfl

theorem ofDigits_replicate_zero (k : ℕ) : ofDigits (List.replicate k '0') = 0 :=
  Nat.ofDigitChars_replicate_zero

theorem ofDigits_toDigits (n : ℕ) : ofDigits (Nat.toDigits 10 n) = n :=
  Nat.ofDigitChars_ten_toDigits

theorem ofDigits_cons (c : Char) (ds : List Char) :
    ofDigits (c :: ds) = (c.toNat - '0'.toNat) * 10 ^ ds.length + ofDigits ds := by
  have hsplit := ofDigits_append [c] ds
  rwa [show ofDigits [c] = c.toNat - '0'.toNat from Nat.zero_add _] at hsplit

end Numeral

open Numeral

@[simp] theorem length_lastDigits (places n : ℕ) : (lastDigits places n).length = places := by
  induction places generalizing n with
  | zero => rfl
  | succ places ih => simp [lastDigits, ih]

/-- The lowest digits of a number are its remainder. -/
theorem ofDigits_lastDigits (places n : ℕ) : ofDigits (lastDigits places n) = n % 10 ^ places := by
  induction places generalizing n with
  | zero => rw [pow_zero, Nat.mod_one]; rfl
  | succ places ih =>
      have hdigit : ofDigits [Nat.digitChar (n % 10)] = n % 10 := by
        simp [ofDigits, Nat.toNat_digitChar_sub_48_of_lt_ten (Nat.mod_lt n (by decide))]
      rw [lastDigits, ofDigits_append, ih, hdigit, pow_succ', Nat.mod_mul, List.length_singleton,
        pow_one, mul_comm, add_comm]

/-- Only the number zero has a zero in front. -/
theorem head?_toDigits_ne {n : ℕ} (h : n ≠ 0) : (Nat.toDigits 10 n).head? ≠ some '0' := by
  induction n using Nat.strongRecOn with
  | ind n ih =>
      by_cases hlt : n < 10
      · rw [Nat.toDigits_of_lt_base hlt]
        simpa using h
      · have hten : 10 ≤ n := by omega
        rw [Nat.toDigits_of_base_le (by decide) hten,
          List.head?_append_of_ne_nil _ Nat.toDigits_ne_nil]
        exact ih (n / 10) (by omega) (by omega)

/-! ## Zeros at the end -/

namespace Layout

theorem dropLast_eq (c : Char) (ds : List Char) : dropLast c ds = ds.rdropWhile (· = c) := rfl

/-- Zeros are dropped from the second part only, unless it is all zeros. -/
theorem dropZeros_append (ds es : List Char) :
    dropZeros (ds ++ es) = if dropZeros es = [] then dropZeros ds else ds ++ dropZeros es := by
  simp only [dropZeros, dropLast, List.reverse_append, List.dropWhile_append, List.isEmpty_iff,
    List.reverse_eq_nil_iff]
  split <;> simp

/-- What is dropped from digits is zeros. -/
theorem exists_dropZeros_append (ds : List Char) :
    ∃ k, dropZeros ds ++ List.replicate k '0' = ds := by
  have hsplit := List.rdropWhile_append_rtakeWhile (p := (· = '0')) (l := ds)
  have hzeros : ∀ c ∈ ds.rtakeWhile (· = '0'), c = '0' := by
    intro c hc
    simpa using List.mem_rtakeWhile_imp hc
  rw [List.eq_replicate_of_mem hzeros] at hsplit
  exact ⟨_, hsplit⟩

/-- Zeros are dropped to the last one. -/
theorem getLast?_dropZeros_ne (ds : List Char) : (dropZeros ds).getLast? ≠ some '0' := by
  intro h
  have hlast := List.head?_dropWhile_not (· = '0') ds.reverse
  rw [dropZeros, dropLast, List.getLast?_reverse] at h
  rw [h] at hlast
  exact absurd hlast (by decide)

end Layout

/-! ## Decimal numbers -/

open Layout (pointed)

/-- The number `n / 10 ^ places` written out, without zeros at the end of its fraction. -/
def written (n places : ℕ) : List Char :=
  pointed (Nat.toDigits 10 (n / 10 ^ places)) (Layout.dropZeros (lastDigits places n))

/-- The digits on both sides of a point denote `q`, with six significant ones at most, and
with no zero that could be left out. -/
structure Denotes (whole fraction : List Char) (q : ℚ) : Prop where
  isDigit : ∀ c ∈ whole ++ fraction, c.isDigit
  whole_ne_nil : whole ≠ []
  leading : whole.head? = some '0' → whole = ['0']
  trailing : fraction.getLast? ≠ some '0'
  significant : ((whole ++ fraction).dropWhile (· = '0')).length ≤ 6
  value : q = ofDigits (whole ++ fraction) / 10 ^ fraction.length

/-- A number below `10 ^ k` has at most `k` significant digits. -/
theorem length_dropWhile_zero_le {ds : List Char} {k : ℕ} (hdigit : ∀ c ∈ ds, c.isDigit)
    (h : ofDigits ds < 10 ^ k) : (ds.dropWhile (· = '0')).length ≤ k := by
  induction ds with
  | nil => exact Nat.zero_le k
  | cons c ds ih =>
      obtain ⟨hc, hds⟩ := List.forall_mem_cons.mp hdigit
      rw [ofDigits_cons] at h
      by_cases hzero : c = '0'
      · rw [List.dropWhile_cons_of_pos (by simpa using hzero)]
        exact ih hds (by omega)
      · rw [List.dropWhile_cons_of_neg (by simpa using hzero), List.length_cons]
        have hpos : 1 ≤ c.toNat - '0'.toNat := by
          have hne : c.toNat ≠ '0'.toNat := fun heq => hzero (Char.toNat_inj.mp heq)
          have hle : '0'.toNat ≤ c.toNat := (Char.isDigit_iff_toNat.mp hc).1
          omega
        have hlow : 10 ^ ds.length ≤ (c.toNat - '0'.toNat) * 10 ^ ds.length :=
          Nat.le_mul_of_pos_left _ hpos
        exact (Nat.pow_lt_pow_iff_right (by decide)).mp (show 10 ^ ds.length < 10 ^ k by omega)

/-- Leaving out the zeros at the end divides by a power of ten. -/
theorem exists_ofDigits_mul (n p : ℕ) :
    ∃ k, (Layout.dropZeros (lastDigits p n)).length + k = p ∧
      ofDigits (Nat.toDigits 10 (n / 10 ^ p) ++ Layout.dropZeros (lastDigits p n)) * 10 ^ k =
        n := by
  obtain ⟨k, hk⟩ := Layout.exists_dropZeros_append (lastDigits p n)
  have hlength := congrArg List.length hk
  rw [List.length_append, List.length_replicate, length_lastDigits] at hlength
  have hvalue : ofDigits (Nat.toDigits 10 (n / 10 ^ p) ++ lastDigits p n) = n := by
    rw [ofDigits_append, ofDigits_toDigits, ofDigits_lastDigits, length_lastDigits, mul_comm,
      Nat.div_add_mod]
  rw [← hk, ← List.append_assoc, ofDigits_append, ofDigits_replicate_zero, List.length_replicate,
    add_zero] at hvalue
  exact ⟨k, hlength, hvalue⟩

/-- A number below a million, divided by a power of ten, is denoted by its digits. -/
theorem denotes_div {n : ℕ} (hn : n < 10 ^ 6) (p : ℕ) :
    Denotes (Nat.toDigits 10 (n / 10 ^ p)) (Layout.dropZeros (lastDigits p n)) (n / 10 ^ p) := by
  obtain ⟨k, hlength, hvalue⟩ := exists_ofDigits_mul n p
  have hdigit : ∀ c ∈ Nat.toDigits 10 (n / 10 ^ p) ++ Layout.dropZeros (lastDigits p n),
      c.isDigit := by
    intro c hc
    rcases List.mem_append.mp hc with hc | hc
    · exact Nat.isDigit_of_mem_toDigits (by decide) (by decide) hc
    · exact isDigit_of_mem_lastDigits (Layout.mem_of_mem_dropLast hc)
  refine ⟨hdigit, Nat.toDigits_ne_nil, ?_, Layout.getLast?_dropZeros_ne _, ?_, ?_⟩
  · intro hhead
    by_cases hzero : n / 10 ^ p = 0
    · rw [hzero, Nat.toDigits_zero]
    · exact absurd hhead (head?_toDigits_ne hzero)
  · have hle := Nat.le_mul_of_pos_right
      (ofDigits (Nat.toDigits 10 (n / 10 ^ p) ++ Layout.dropZeros (lastDigits p n)))
      (show 0 < 10 ^ k by positivity)
    exact length_dropWhile_zero_le hdigit (by omega)
  · have hcast := congrArg (Nat.cast : ℕ → ℚ) hvalue
    have hten : (10 : ℚ) ^ p = 10 ^ (Layout.dropZeros (lastDigits p n)).length * 10 ^ k := by
      rw [← pow_add, hlength]
    push_cast at hcast
    rw [hten, div_eq_div_iff (by positivity) (by positivity), ← hcast]
    ring

/-- How an exponent is spelled: in two digits, or in as many as it has. -/
structure SpellsExponent (digits : List Char) (n : ℕ) : Prop where
  isDigit : ∀ c ∈ digits, c.isDigit
  two_le_length : 2 ≤ digits.length
  leading : 2 < digits.length → digits.head? ≠ some '0'
  value : ofDigits digits = n

/-- Padding to two digits puts no zero in front of a long exponent. -/
theorem spellsExponent_padLeft (n : ℕ) :
    SpellsExponent (Text.padLeft 2 '0' (Nat.repr n)).toList n := by
  have hlist : (Text.padLeft 2 '0' (Nat.repr n)).toList =
      List.replicate (2 - (Nat.toDigits 10 n).length) '0' ++ Nat.toDigits 10 n := by
    rw [Text.padLeft, String.toList_append, String.toList_ofList, ← String.length_toList,
      Nat.toList_repr]
  rw [hlist]
  refine ⟨?_, ?_, ?_, ?_⟩
  · intro c hc
    rcases List.mem_append.mp hc with hc | hc
    · rw [List.eq_of_mem_replicate hc]
      rfl
    · exact Nat.isDigit_of_mem_toDigits (by decide) (by decide) hc
  · rw [List.length_append, List.length_replicate]
    omega
  · intro hlength
    rw [List.length_append, List.length_replicate] at hlength
    have hlong : 2 < (Nat.toDigits 10 n).length := by omega
    rw [Nat.sub_eq_zero_of_le hlong.le, List.replicate_zero, List.nil_append]
    apply head?_toDigits_ne
    rintro rfl
    exact absurd hlong (by decide)
  · rw [ofDigits_append, ofDigits_replicate_zero, zero_mul, zero_add, ofDigits_toDigits]

/-- The text is `q` written out. -/
def IsPlain (text : List Char) (q : ℚ) : Prop :=
  ∃ whole fraction, Denotes whole fraction q ∧ text = pointed whole fraction

/-- The text is `q` with one digit before the point and with its exponent `x`. -/
def IsScientific (text : List Char) (q : ℚ) (x : ℤ) : Prop :=
  ∃ first fraction exponent, first ≠ '0' ∧ Denotes [first] fraction (q / 10 ^ x) ∧
    SpellsExponent exponent x.natAbs ∧
    text = pointed [first] fraction ++ 'e' :: (if x < 0 then '-' else '+') :: exponent

/-- The exponent is told by a letter that no digit is. -/
theorem IsScientific.mem {text : List Char} {q : ℚ} {x : ℤ} (h : IsScientific text q x) :
    'e' ∈ text := by
  obtain ⟨first, fraction, exponent, -, -, -, rfl⟩ := h
  simp

/-- A text is written out or has an exponent, and never both. -/
theorem IsPlain.not_isScientific {text : List Char} {q q' : ℚ} {x : ℤ} (h : IsPlain text q) :
    ¬ IsScientific text q' x := by
  intro hscientific
  obtain ⟨whole, fraction, hdenotes, rfl⟩ := h
  have hmem := hscientific.mem
  have hdigit : 'e' ∈ whole ++ fraction := by
    unfold pointed at hmem
    split at hmem
    next => exact List.mem_append_left _ hmem
    next => simpa using hmem
  exact absurd (hdenotes.isDigit _ hdigit) (by decide)

/-! ## Trimming -/

/-- No point is dropped behind digits. -/
theorem dropLast_append_digits (ds : List Char) {es : List Char} (hne : es ≠ [])
    (h : ∀ c ∈ es, c.isDigit) : Layout.dropLast '.' (ds ++ es) = ds ++ es := by
  rw [Layout.dropLast_eq, List.rdropWhile_eq_self_iff]
  intro hne'
  rw [List.getLast_append_of_ne_nil hne' hne, decide_eq_true_iff]
  intro hlast
  have hdigit := h _ (List.getLast_mem hne)
  rw [hlast] at hdigit
  exact absurd hdigit (by decide)

/-- Trimming drops the zeros of the fraction, and the point with the last of them; zeros
before the point stay. -/
theorem trimFraction_pointed {whole fraction : List Char} (hne : whole ≠ [])
    (hwhole : ∀ c ∈ whole, c.isDigit) (hfraction : ∀ c ∈ fraction, c.isDigit) :
    trimFraction (pointed whole fraction) = pointed whole (Layout.dropZeros fraction) := by
  by_cases hnil : fraction = []
  · have hnot : '.' ∉ whole := fun h => absurd (hwhole _ h) (by decide)
    rw [hnil, trimFraction, pointed, if_pos rfl, if_neg hnot]
    rfl
  · have hmem : '.' ∈ pointed whole fraction := by simp [pointed, hnil]
    rw [trimFraction, if_pos hmem, pointed, if_neg hnil, List.append_cons, Layout.dropZeros_append,
      pointed]
    split
    next hdropped =>
      -- The fraction is all zeros, so the point is at the end and goes with them.
      rw [Layout.dropZeros, Layout.dropLast_eq, Layout.dropLast_eq,
        List.rdropWhile_concat_neg _ _ _ (by decide), List.rdropWhile_concat_pos _ _ _ (by decide)]
      exact dropLast_append_digits [] hne hwhole
    next hdropped =>
      have hdigit : ∀ c ∈ Layout.dropZeros fraction, c.isDigit :=
        fun c hc => hfraction c (Layout.mem_of_mem_dropLast hc)
      rw [dropLast_append_digits _ hdropped hdigit, ← List.append_cons]

/-- A number with all its places is trimmed to the number written out. -/
theorem trimFraction_withPlaces (places n : ℕ) :
    trimFraction (withPlaces places n) = written n places :=
  trimFraction_pointed Nat.toDigits_ne_nil (fun _ => isDigit_of_mem_toDigits)
    fun _ => isDigit_of_mem_lastDigits

/-- Rounding to a place gives the units of that place that are nearest. -/
theorem Ratio.fixed_of_nearest {r : Ratio} (hden : 0 < r.den) {places n : ℕ}
    (h : Nearest (r.toRat / 10 ^ (-places : ℤ)) n) : r.fixed places = withPlaces places n := by
  have hnearest := nearest_scale hden (-places)
  rw [neg_neg] at hnearest
  have hn : (r.scale 10 places).nearest = n := Int.ofNat_inj.mp (hnearest.unique h)
  rw [fixed, hn]

/-! ## The text of a number -/

namespace Value

/-- A finite number other than zero has a sign and the text of its magnitude. -/
theorem text_of_finite {v : Value} (hfinite : v.IsFinite) (hzero : v.toRat ≠ 0) :
    v.text = v.signText ++ positiveText (Binary64.scaled v.bits).ratio := by
  have hword := toNat_magnitude v.bits
  have hbelow : (Binary64.magnitude v.bits).toNat < Binary64.infinity.toNat := by
    rw [hword]
    show v.bits.toNat % 2 ^ 63 < 2047 * 2 ^ 52
    have hfield : v.bits.toNat / 2 ^ 52 % 2 ^ 11 < 2 ^ 11 - 1 := hfinite
    omega
  have hnan : Binary64.isNaN v.bits = false :=
    decide_eq_false fun hlt => by rw [UInt64.lt_iff_toNat_lt] at hlt; omega
  have hinfinite : Binary64.isInfinite v.bits = false :=
    decide_eq_false fun heq => by rw [heq] at hbelow; omega
  have hnonzero : Binary64.isZero v.bits = false := by
    refine decide_eq_false fun heq => (magnitude_pos hzero).ne' ?_
    have hbits : v.bits.toNat % 2 ^ 63 = 0 := by
      rw [← hword, heq]
      rfl
    have hfield : v.exponentField = 0 := by
      show v.bits.toNat / 2 ^ 52 % 2 ^ 11 = 0
      omega
    have hfraction : v.fractionField = 0 := by
      show v.bits.toNat % 2 ^ 52 = 0
      omega
    rw [magnitude, if_pos hfield, hfraction, Nat.cast_zero, zero_mul]
  simp only [text, hnan, hinfinite, hnonzero]
  rfl

variable {r : Ratio} {n : ℕ} {x : ℤ}

/-- A number that is written out has the units of its first rounding, since the second
rounding is to their place. -/
theorem toList_positiveText_of_plain (hden : 0 < r.den) (h : r.significant 6 = (n, x))
    (hnearest : Nearest (r.toRat / 10 ^ (x - 5)) n) (hx : -4 ≤ x ∧ x < 6) :
    (positiveText r).toList = written n (5 - x).toNat := by
  have hplaces : x - 5 = -((5 - x).toNat : ℤ) := by omega
  rw [hplaces] at hnearest
  simp only [positiveText, h]
  rw [if_pos hx, String.toList_ofList, Ratio.fixed_of_nearest hden hnearest,
    trimFraction_withPlaces]

/-- A number with its exponent is trimmed to six digits. -/
theorem toList_positiveText_of_scientific (h : r.significant 6 = (n, x))
    (hx : ¬ (-4 ≤ x ∧ x < 6)) :
    (positiveText r).toList = written n 5 ++ 'e' :: (if x < 0 then '-' else '+') ::
      (Text.padLeft 2 '0' (Nat.repr x.natAbs)).toList := by
  have hsign : (if x < 0 then "-" else "+").toList = [if x < 0 then '-' else '+'] := by
    split <;> rfl
  simp only [positiveText, h]
  rw [if_neg hx, String.toList_append, String.toList_ofList, trimFraction_withPlaces,
    Layout.spelledExponent, String.toList_append, String.toList_append, hsign]
  rfl

/-- Six digits and a small exponent are a number written out. -/
theorem isPlain_written {n : ℕ} {x : ℤ} (hhigh : n < 10 ^ 6) (hx : x < 6) :
    IsPlain (written n (5 - x).toNat) (n * 10 ^ (x - 5)) := by
  have hdenotes := denotes_div hhigh (5 - x).toNat
  have hpower : x - 5 = -((5 - x).toNat : ℤ) := by omega
  rw [hpower, zpow_neg, zpow_natCast, ← div_eq_mul_inv]
  exact ⟨_, _, hdenotes, rfl⟩

/-- Six digits and any exponent are a number with its exponent. -/
theorem isScientific_written {n : ℕ} (hlow : 10 ^ 5 ≤ n) (hhigh : n < 10 ^ 6) (x : ℤ) :
    IsScientific (written n 5 ++ 'e' :: (if x < 0 then '-' else '+') ::
      (Text.padLeft 2 '0' (Nat.repr x.natAbs)).toList) (n * 10 ^ (x - 5)) x := by
  have hfirst : n / 10 ^ 5 ≠ 0 ∧ n / 10 ^ 5 < 10 := by omega
  have hvalue : (n : ℚ) * 10 ^ (x - 5) / 10 ^ x = n / 10 ^ 5 := by
    rw [zpow_sub₀ (by norm_num)]
    field_simp
  have hdenotes := denotes_div hhigh 5
  rw [Nat.toDigits_of_lt_base hfirst.2] at hdenotes
  rw [written, Nat.toDigits_of_lt_base hfirst.2]
  refine ⟨_, _, _, ?_, hvalue ▸ hdenotes, spellsExponent_padLeft _, rfl⟩
  simpa using hfirst.1

/-- The text of a finite number other than zero behind its sign. -/
theorem exists_text_of_magnitude {v : Value} (hfinite : v.IsFinite) (hzero : v.toRat ≠ 0) :
    ∃ (q : ℚ) (x : ℤ) (body : List Char),
      0 ≤ q ∧ RoundsTo 6 v.magnitude q ∧ Leads x q ∧ RoundsAt (x - 5) v.magnitude q ∧
      v.text.toList = v.signText.toList ++ body ∧
      (-4 ≤ x ∧ x < 6 → IsPlain body q ∧
        body = trimFraction ((Binary64.scaled v.bits).ratio.fixed (5 - x).toNat)) ∧
      (¬ (-4 ≤ x ∧ x < 6) → IsScientific body q x) := by
  have hratio := toRat_scaled v
  have hden : 0 < (Binary64.scaled v.bits).ratio.den :=
    Ratio.den_scale_pos Nat.one_pos (by decide) _
  have hnum : 0 < (Binary64.scaled v.bits).ratio.num :=
    Ratio.num_pos (hratio ▸ magnitude_pos hzero)
  rcases hdigits : (Binary64.scaled v.bits).ratio.significant 6 with ⟨n, x⟩
  obtain ⟨hlow, hhigh, hrounds, hnearest⟩ := Ratio.significant_spec hnum hden hdigits
  rw [hratio, Nat.cast_ofNat] at hrounds hnearest
  have hleads : Leads x (n * 10 ^ (x - 5)) := by
    have hmoved := (leads_natCast_iff.mpr ⟨hlow, hhigh⟩).mul_zpow (x - 5)
    rwa [Nat.cast_ofNat, add_sub_cancel] at hmoved
  have hat : RoundsAt (x - 5) v.magnitude (n * 10 ^ (x - 5)) :=
    ⟨n, hnearest, by rw [Int.cast_natCast]⟩
  refine ⟨n * 10 ^ (x - 5), x, (positiveText (Binary64.scaled v.bits).ratio).toList,
    by positivity, hrounds, hleads, hat, ?_, ?_, ?_⟩
  · rw [text_of_finite hfinite hzero, String.toList_append]
  · intro hx
    constructor
    · rw [toList_positiveText_of_plain hden hdigits (hratio ▸ hnearest) hx]
      exact isPlain_written hhigh hx.2
    · simp only [positiveText, hdigits]
      rw [if_pos hx, String.toList_ofList]
  · intro hx
    rw [toList_positiveText_of_scientific hdigits hx]
    exact isScientific_written hlow hhigh x

/-- The sign is written before negative numbers. -/
theorem toList_signText {v : Value} (hzero : v.toRat ≠ 0) :
    v.signText.toList = if v.toRat < 0 then ['-'] else [] := by
  simp only [signText, toRat_neg_iff hzero]
  split <;> rfl

/-- The text of a finite number other than zero denotes exactly the number `r` that it is
rounded to.  It is written out if the leading digit of `r` stands at one of the places from
`10 ^ (-4)` to `10 ^ 5`, and else has the exponent of `r`.  Rounding to the place of the
sixth digit of `r` gives `r` once more, and a text that is written out is also the one with
all the digits up to that place, after its fraction has been trimmed. -/
theorem text_denotes_six_digits {v : Value} (hfinite : v.IsFinite) (hzero : v.toRat ≠ 0) :
    ∃ (r : ℚ) (x : ℤ) (body : List Char),
      RoundsTo 6 v.toRat r ∧ (∀ r', RoundsTo 6 v.toRat r' → r' = r) ∧ Leads x r ∧
      v.text.toList = (if v.toRat < 0 then ['-'] else []) ++ body ∧
      (IsPlain body |r| ↔ -4 ≤ x ∧ x < 6) ∧
      (IsScientific body |r| x ↔ ¬ (-4 ≤ x ∧ x < 6)) ∧
      RoundsAt (x - 5) v.toRat r ∧
      (-4 ≤ x ∧ x < 6 →
        body = trimFraction ((Binary64.scaled v.bits).ratio.fixed (5 - x).toNat)) := by
  obtain ⟨q, x, body, hq, hmagnitude, hleading, hplace, htext, hplain, hscientific⟩ :=
    exists_text_of_magnitude hfinite hzero
  obtain ⟨r, rfl, hrounds, hleads, hat⟩ : ∃ r, |r| = q ∧ RoundsTo 6 v.toRat r ∧ Leads x r ∧
      RoundsAt (x - 5) v.toRat r := by
    rw [toRat]
    split
    · exact ⟨q, abs_of_nonneg hq, hmagnitude, hleading, hplace⟩
    · exact ⟨-q, by rw [abs_neg, abs_of_nonneg hq], hmagnitude.neg, hleading.neg, hplace.neg⟩
  rw [toList_signText hzero] at htext
  refine ⟨r, x, body, hrounds, fun r' h => h.unique hrounds, hleads, htext, ⟨?_, ?_⟩, ⟨?_, ?_⟩,
    hat, fun hx => (hplain hx).2⟩
  · intro h
    by_contra hx
    exact h.not_isScientific (hscientific hx)
  · exact fun hx => (hplain hx).1
  · exact fun h hx => (hplain hx).1.not_isScientific h
  · exact hscientific

/-- A negative number just above `-0.0001`, which is what it is rounded to. -/
theorem text_denotes_six_digits_of_carry :
    (⟨0xBF1A36E2139B2ABE⟩ : Value).IsFinite ∧ (⟨0xBF1A36E2139B2ABE⟩ : Value).toRat ≠ 0 ∧
    (⟨0xBF1A36E2139B2ABE⟩ : Value).text = "-0.0001" ∧
    ∃ (r : ℚ) (x : ℤ), RoundsTo 6 (⟨0xBF1A36E2139B2ABE⟩ : Value).toRat r ∧ Leads x r ∧
      (-4 ≤ x ∧ x < 6) ∧ IsPlain "0.0001".toList |r| := by
  have hfinite : (⟨0xBF1A36E2139B2ABE⟩ : Value).IsFinite := by decide
  have hzero : (⟨0xBF1A36E2139B2ABE⟩ : Value).toRat ≠ 0 := by
    have hpos : 0 < (⟨0xBF1A36E2139B2ABE⟩ : Value).magnitude := by
      rw [magnitude, if_neg (by decide)]
      positivity
    rw [toRat, if_neg (by decide)]
    exact neg_ne_zero.mpr hpos.ne'
  have htext : (⟨0xBF1A36E2139B2ABE⟩ : Value).text = "-0.0001" := by decide +kernel
  have hneg : (⟨0xBF1A36E2139B2ABE⟩ : Value).toRat < 0 := (toRat_neg_iff hzero).mpr (by decide)
  refine ⟨hfinite, hzero, htext, ?_⟩
  obtain ⟨r, x, body, hrounds, -, hleads, hbody, hplain, hscientific, -, -⟩ :=
    text_denotes_six_digits hfinite hzero
  rw [htext, if_pos hneg] at hbody
  obtain rfl : "0.0001".toList = body := (List.cons.inj hbody).2
  have hx : -4 ≤ x ∧ x < 6 := by
    by_contra hx
    exact absurd (hscientific.mpr hx).mem (by decide)
  exact ⟨r, x, hrounds, hleads, hx, hplain.mpr hx⟩

end Value

end Abacus
