import Abacus.Proofs.ChunkFile
import Mathlib.Algebra.Group.Nat.Defs

/-!
# Errors in a chunk file

A chunk file in which up to four bytes in a row have been changed is refused for
its checksum, wherever these bytes stand.

*The register.*  A shift is linear and loses nothing: a one that goes out at the
low end comes back in the highest bit.  Taking a byte into the register is eight
shifts of the register and the byte together (`Crc32.step_eq_shifts`), and taking
up to four bytes is as many shifts of the register and the word that the bytes
stand for (`Crc32.foldl_step_eq_shifts`).  Two different words lead to different
registers, and so does everything that is taken in behind them.

*The file.*  The checksum of a file can be taken into the register as well.  The
register then comes to one and the same word for every file whose checksum is
right, and for no other (`Crc32.crc32_eq_iff_register`).  Errors in the
checksum, in front of it, or on both sides of the cut need no separate
treatment.
-/

namespace Abacus

namespace Crc32

/-! ## Shifts -/

theorem and_one_eq_one_iff (x : UInt32) : x &&& 1 = 1 ↔ x.toNat % 2 = 1 := by
  rw [← UInt32.toNat_inj, UInt32.toNat_and]
  change x.toNat &&& 1 = 1 ↔ _
  rw [Nat.and_one_is_mod]

theorem toNat_half (x : UInt32) : (x >>> 1).toNat = x.toNat / 2 := by
  simp [Nat.shiftRight_eq_div_pow]

theorem shift_of_even {x : UInt32} (h : x.toNat % 2 = 0) : shift x = x >>> 1 := by
  have hlow : ¬ x &&& 1 = 1 := by
    rw [and_one_eq_one_iff]
    omega
  rw [shift, if_neg hlow, UInt32.xor_zero]

/-- A shift is linear. -/
theorem shift_xor (x y : UInt32) : shift (x ^^^ y) = shift x ^^^ shift y := by
  have hlow : (x ^^^ y) &&& 1 = 1 ↔ ¬ (x &&& 1 = 1 ↔ y &&& 1 = 1) := by
    rw [and_one_eq_one_iff, and_one_eq_one_iff, and_one_eq_one_iff, UInt32.toNat_xor,
      Nat.xor_mod_two_eq_one]
  have hcarry : (if (x ^^^ y) &&& 1 = 1 then polynomial else 0) =
      (if x &&& 1 = 1 then polynomial else 0) ^^^ if y &&& 1 = 1 then polynomial else 0 := by
    by_cases hx : x &&& 1 = 1 <;> by_cases hy : y &&& 1 = 1 <;> simp [hlow, hx, hy]
  rw [shift, shift, shift, hcarry, UInt32.shiftRight_xor]
  ac_rfl

/-- Shifts go apart along with a difference. -/
theorem shifts_xor (n : Nat) (x y : UInt32) :
    shifts n (x ^^^ y) = shifts n x ^^^ shifts n y := by
  induction n generalizing x y with
  | zero => rfl
  | succ n ih => rw [shifts, shifts, shifts, shift_xor, ih]

theorem shifts_add (m n : Nat) (x : UInt32) : shifts (m + n) x = shifts n (shifts m x) := by
  induction m generalizing x with
  | zero => rw [Nat.zero_add, shifts]
  | succ m ih => rw [Nat.succ_add, shifts, shifts, ih]

/-- Only nothing is shifted to nothing, since the polynomial has its highest bit set. -/
theorem eq_zero_of_shift_eq_zero {x : UInt32} (h : shift x = 0) : x = 0 := by
  have hlt := x.toNat_lt
  by_cases hlow : x &&& 1 = 1
  · -- the polynomial has its highest bit set, and half of a word does not
    rw [shift, if_pos hlow] at h
    have hhalf : x.toNat / 2 = polynomial.toNat := by
      rw [← toNat_half, UInt32.xor_eq_zero_iff.mp h]
    have : polynomial.toNat = 0xEDB88320 := rfl
    omega
  · rw [and_one_eq_one_iff] at hlow
    rw [shift_of_even (by omega)] at h
    have hhalf : x.toNat / 2 = 0 := by
      rw [← toNat_half, h]
      rfl
    apply UInt32.toNat_inj.mp
    change x.toNat = 0
    omega

/-- A shift loses nothing. -/
theorem shift_injective : Function.Injective shift := by
  intro x y h
  apply UInt32.xor_eq_zero_iff.mp
  apply eq_zero_of_shift_eq_zero
  rw [shift_xor, h, UInt32.xor_self]

theorem shifts_injective (n : Nat) : Function.Injective (shifts n) := by
  induction n with
  | zero => exact fun _ _ h => h
  | succ n ih => exact ih.comp shift_injective

/-- Zeros at the low end are shifted out without a trace. -/
theorem shifts_of_toNat {n : Nat} {x w : UInt32} (h : x.toNat = 2 ^ n * w.toNat) :
    shifts n x = w := by
  induction n generalizing x with
  | zero =>
      apply UInt32.toNat_inj.mp
      rw [shifts, h, Nat.pow_zero, Nat.one_mul]
  | succ n ih =>
      rw [Nat.pow_succ', Nat.mul_assoc] at h
      rw [shifts, shift_of_even (by rw [h]; exact Nat.mul_mod_right ..)]
      apply ih
      rw [toNat_half, h, Nat.mul_div_cancel_left _ Nat.two_pos]

/-! ## Bytes and words -/

/-- Bits in different places are added. -/
theorem xor_two_pow_mul {n a b : Nat} (h : a < 2 ^ n) : a ^^^ (2 ^ n * b) = a + 2 ^ n * b := by
  apply Nat.eq_of_testBit_eq
  intro i
  rw [Nat.testBit_xor, Nat.testBit_two_pow_mul, Nat.add_comm, Nat.testBit_two_pow_mul_add _ h]
  by_cases hi : i < n
  · rw [if_pos hi, decide_eq_false (Nat.not_le.mpr hi), Bool.false_and, Bool.xor_false]
  · have hn : n ≤ i := Nat.not_lt.mp hi
    have ha : a < 2 ^ i := Nat.lt_of_lt_of_le h (Nat.pow_le_pow_right Nat.two_pos hn)
    rw [if_neg hi, decide_eq_true hn, Bool.true_and, Nat.testBit_lt_two_pow ha, Bool.false_xor]

/-- Eight shifts divide the lowest byte of a word and move the other bytes down. -/
theorem shifts_eight {x low high : UInt32} (hlow : low.toNat < 2 ^ 8)
    (hx : x.toNat = low.toNat + 2 ^ 8 * high.toNat) : shifts 8 x = shifts 8 low ^^^ high := by
  have hmoved : (UInt32.ofNat (2 ^ 8 * high.toNat)).toNat = 2 ^ 8 * high.toNat := by
    apply UInt32.toNat_ofNat_of_lt'
    have hlt := x.toNat_lt
    change _ < 2 ^ 32
    omega
  have hsplit : x = low ^^^ UInt32.ofNat (2 ^ 8 * high.toNat) := by
    apply UInt32.toNat_inj.mp
    rw [UInt32.toNat_xor, hmoved, xor_two_pow_mul hlow, hx]
  rw [hsplit, shifts_xor, shifts_of_toNat hmoved]

/-- A byte is taken in by eight shifts of the whole register. -/
theorem step_eq_shifts (register : UInt32) (byte : UInt8) :
    step register byte = shifts 8 (register ^^^ byte.toUInt32) := by
  have hbyte : byte.toNat < 2 ^ 8 := byte.toNat_lt
  have hlow : ((register ^^^ byte.toUInt32) &&& 0xFF).toNat =
      (register ^^^ byte.toUInt32).toNat % 2 ^ 8 := by
    rw [UInt32.toNat_and]
    exact Nat.and_two_pow_sub_one_eq_mod _ 8
  have hhigh : (register >>> 8).toNat = (register ^^^ byte.toUInt32).toNat / 2 ^ 8 := by
    rw [UInt32.toNat_xor, UInt8.toNat_toUInt32, ← Nat.shiftRight_eq_div_pow,
      Nat.shiftRight_xor_distrib, Nat.shiftRight_eq_div_pow byte.toNat, Nat.div_eq_of_lt hbyte,
      Nat.xor_zero]
    rfl
  rw [step, UInt32.xor_comm]
  refine (shifts_eight ?_ ?_).symm
  · rw [hlow]
    exact Nat.mod_lt _ (Nat.two_pow_pos 8)
  · rw [hlow, hhigh]
    exact (Nat.mod_add_div ..).symm

/-- Up to four bytes are taken in as one word. -/
theorem foldl_step_eq_shifts {bytes : List UInt8} (h : bytes.length ≤ 4) (register : UInt32) :
    bytes.foldl step register =
      shifts (8 * bytes.length) (register ^^^ (LittleEndian.ofBytes bytes).toUInt32) := by
  induction bytes generalizing register with
  | nil => simp [shifts, LittleEndian.ofBytes]
  | cons b rest ih =>
      have hrest : rest.length ≤ 4 := Nat.le_of_succ_le h
      have hword : shifts 8 (LittleEndian.ofBytes (b :: rest)).toUInt32 =
          shifts 8 b.toUInt32 ^^^ (LittleEndian.ofBytes rest).toUInt32 := by
        apply shifts_eight
        · rw [UInt8.toNat_toUInt32]
          exact b.toNat_lt
        · rw [LittleEndian.toNat_toUInt32_ofBytes h, LittleEndian.toNat_toUInt32_ofBytes hrest,
            UInt8.toNat_toUInt32]
          rfl
      rw [List.foldl_cons, ih hrest, step_eq_shifts, List.length_cons, Nat.mul_succ, Nat.add_comm,
        shifts_add, shifts_xor 8, shifts_xor 8, hword, UInt32.xor_assoc]

/-- Behind the same bytes different registers stay different. -/
theorem foldl_step_injective (bytes : List UInt8) : Function.Injective (bytes.foldl step) := by
  induction bytes with
  | nil => exact fun _ _ h => h
  | cons b rest ih =>
      intro register register' h
      have hstep := ih h
      rw [step_eq_shifts, step_eq_shifts] at hstep
      exact (UInt32.xor_left_inj _).mp (shifts_injective 8 hstep)

/-- From one register, different words lead to different registers. -/
theorem eq_of_foldl_step_eq {bytes bytes' : List UInt8} {register : UInt32}
    (hlength : bytes.length = bytes'.length) (hshort : bytes.length ≤ 4)
    (h : bytes.foldl step register = bytes'.foldl step register) : bytes = bytes' := by
  have hshort' : bytes'.length ≤ 4 := hlength ▸ hshort
  rw [foldl_step_eq_shifts hshort, foldl_step_eq_shifts hshort', hlength] at h
  have hword := congrArg UInt32.toNat ((UInt32.xor_right_inj _).mp (shifts_injective _ h))
  rw [LittleEndian.toNat_toUInt32_ofBytes hshort,
    LittleEndian.toNat_toUInt32_ofBytes hshort'] at hword
  rw [← LittleEndian.toBytes_ofBytes bytes, hword, hlength, LittleEndian.toBytes_ofBytes]

/-! ## Whole files -/

/-- The register behind a byte string. -/
def register (bytes : List UInt8) : UInt32 := bytes.foldl step 0xFFFFFFFF

/-- The register behind a byte string and its checksum. -/
def residue : UInt32 := shifts 32 0xFFFFFFFF

/-- A checksum is right exactly if it brings the register to the residue. -/
theorem crc32_eq_iff_register {payload tail : List UInt8} (htail : tail.length = 4) :
    crc32 payload = (LittleEndian.ofBytes tail).toUInt32 ↔
      register (payload ++ tail) = residue := by
  have hwhole : register (payload ++ tail) =
      shifts 32 (register payload ^^^ (LittleEndian.ofBytes tail).toUInt32) := by
    rw [register, List.foldl_append, foldl_step_eq_shifts (Nat.le_of_eq htail), htail]
    rfl
  have hones : 0xFFFFFFFF = register payload ^^^ ~~~ register payload := by
    rw [UInt32.xor_not, UInt32.xor_self]
    rfl
  rw [hwhole, residue, (shifts_injective 32).eq_iff, hones, UInt32.xor_right_inj, eq_comm]
  rfl

/-- A difference within four bytes is a difference of the registers, and stays one. -/
theorem register_ne_of_burst {front burst burst' back : List UInt8}
    (hlength : burst.length = burst'.length) (hshort : burst.length ≤ 4) (hne : burst ≠ burst') :
    register (front ++ (burst ++ back)) ≠ register (front ++ (burst' ++ back)) := by
  unfold register
  rw [List.foldl_append, List.foldl_append, List.foldl_append, List.foldl_append]
  intro h
  exact hne (eq_of_foldl_step_eq hlength hshort (foldl_step_injective back h))

end Crc32

namespace Chunk

/-- A file whose register is not the residue has a wrong checksum. -/
theorem ofBytes_of_register_ne {bytes : List UInt8} (hlong : 10 ≤ bytes.length)
    (h : Crc32.register bytes ≠ Crc32.residue) :
    ofBytes bytes = .error (.checksum (crc32 (bytes.take (bytes.length - 4)))
      (LittleEndian.ofBytes (bytes.drop (bytes.length - 4))).toUInt32) := by
  obtain ⟨payload, tail, rfl, htail, hpayload⟩ := exists_cut hlong
  have hcut : (payload ++ tail).length - 4 = payload.length := by
    rw [List.length_append, htail, Nat.add_sub_cancel]
  rw [hcut, List.take_left, List.drop_left, ofBytes_append htail hpayload,
    if_neg (mt (Crc32.crc32_eq_iff_register htail).mp h)]

/-- A file that is loaded has its header and its checksum. -/
theorem ten_le_length_of_ofBytes {bytes : List UInt8} {c : Chunk} (h : ofBytes bytes = .ok c) :
    10 ≤ bytes.length := by
  obtain ⟨-, -, rfl⟩ := ofBytes_eq_ok h
  have := c.six_le_length_payload
  rw [length_toBytes]
  omega

/-- A file that is loaded has the register of a right checksum. -/
theorem register_of_ofBytes {bytes : List UInt8} {c : Chunk} (h : ofBytes bytes = .ok c) :
    Crc32.register bytes = Crc32.residue := by
  by_contra hne
  rw [ofBytes_of_register_ne (ten_le_length_of_ofBytes h) hne] at h
  cases h

/-- Two byte strings that differ within a window of four bytes agree in front of the
window and behind it. -/
theorem exists_burst {bytes damaged : List UInt8} (hlength : damaged.length = bytes.length)
    {start : Nat}
    (hwindow : ∀ i < bytes.length, damaged[i]? ≠ bytes[i]? → start ≤ i ∧ i < start + 4) :
    ∃ front burst burst' back, bytes = front ++ (burst ++ back) ∧
      damaged = front ++ (burst' ++ back) ∧ burst.length = burst'.length ∧ burst.length ≤ 4 := by
  have hsame (i : Nat) (hi : i < start ∨ start + 4 ≤ i) : damaged[i]? = bytes[i]? := by
    by_cases hlt : i < bytes.length
    · by_contra hne
      have := hwindow i hlt hne
      omega
    · rw [List.getElem?_eq_none (by omega), List.getElem?_eq_none (by omega)]
  have hfront : damaged.take start = bytes.take start := by
    apply List.ext_getElem?
    intro i
    rw [List.getElem?_take, List.getElem?_take]
    split
    next hi => exact hsame i (.inl hi)
    next => rfl
  have hback : damaged.drop (start + 4) = bytes.drop (start + 4) := by
    apply List.ext_getElem?
    intro i
    rw [List.getElem?_drop, List.getElem?_drop]
    exact hsame _ (.inr (Nat.le_add_right ..))
  have hsplit (xs : List UInt8) :
      xs = xs.take start ++ ((xs.drop start).take 4 ++ xs.drop (start + 4)) := by
    rw [← List.drop_drop, List.take_append_drop, List.take_append_drop]
  refine ⟨bytes.take start, (bytes.drop start).take 4, (damaged.drop start).take 4,
    bytes.drop (start + 4), hsplit bytes, ?_, ?_, ?_⟩
  · rw [← hfront, ← hback]
    exact hsplit damaged
  · simp [hlength]
  · exact List.length_take_le ..

/-- A file that can be loaded is refused for its checksum once it has been changed
within a window of four bytes. -/
theorem short_burst_fails_checksum {bytes damaged : List UInt8} {c : Chunk}
    (h : ofBytes bytes = .ok c) (hlength : damaged.length = bytes.length) (hne : damaged ≠ bytes)
    {start : Nat}
    (hwindow : ∀ i < bytes.length, damaged[i]? ≠ bytes[i]? → start ≤ i ∧ i < start + 4) :
    ofBytes damaged = .error (.checksum (crc32 (damaged.take (damaged.length - 4)))
      (LittleEndian.ofBytes (damaged.drop (damaged.length - 4))).toUInt32) := by
  apply ofBytes_of_register_ne
  · rw [hlength]
    exact ten_le_length_of_ofBytes h
  · rw [← register_of_ofBytes h]
    obtain ⟨front, burst, burst', back, rfl, rfl, hburst, hshort⟩ :=
      exists_burst hlength hwindow
    have hdiffer : burst ≠ burst' := by
      rintro rfl
      exact hne rfl
    exact (Crc32.register_ne_of_burst hburst hshort hdiffer).symm

/-- The chunk that only returns, with errors in its line and in its checksum. -/
theorem short_burst_fails_checksum_across_the_cut :
    let bytes : List UInt8 :=
      [76, 77, 78, 67, 1, 0, 0, 0, 0, 0, 1, 0, 0, 0, 0, 1, 0, 0, 0, 15, 253, 7, 51]
    let damaged : List UInt8 :=
      [76, 77, 78, 67, 1, 0, 0, 0, 0, 0, 1, 0, 0, 0, 0, 1, 0, 2, 0, 14, 252, 7, 51]
    ofBytes bytes = .ok { code := #[0], lines := #[1], consts := #[] } ∧
      (∀ i < bytes.length, damaged[i]? ≠ bytes[i]? → 17 ≤ i ∧ i < 21) ∧
      ∃ expected found, ofBytes damaged = .error (.checksum expected found) := by
  intro bytes damaged
  have hfile : ofBytes bytes = .ok { code := #[0], lines := #[1], consts := #[] } := by
    decide +kernel
  have hwindow : ∀ i < bytes.length, damaged[i]? ≠ bytes[i]? → 17 ≤ i ∧ i < 17 + 4 := by decide
  exact ⟨hfile, hwindow, _, _, short_burst_fails_checksum hfile rfl (by decide) hwindow⟩

end Chunk

end Abacus
