import Abacus.Proofs.Checksum

/-!
# The checksum bit by bit

The standard describes the checksum by a register of thirty-two bits that takes in a
message one bit at a time.  `Crc32.bitSerial` is that description.  It knows no bytes
once the message has been spread out into bits, and it always shifts the register as a
whole.  The checksum of the program is the same for every message.

*A byte at once.*  The bits of a byte can be added to the register before the first
shift instead of one by one, each before its own.  A bit that is added early only moves
down until it gets to the low end (`Crc32.shift_xor_split`), so as many shifts as there
are bits take in all of them (`Crc32.foldl_takeBit`).

*The low byte alone.*  The program shifts the low byte of the register and moves the
other three.  That this comes to eight shifts of the register is
`Crc32.step_eq_shifts`.
-/

namespace Abacus.Crc32

/-! ## The standard -/

/-- The bits of a byte, lowest first. -/
def bits (byte : UInt8) : List Bool := (List.range 8).map byte.toBitVec.getLsbD

/-- The register after one more bit of the message.  The bit is added at the low end,
the register is shifted, and the polynomial is added if a one was shifted out. -/
def takeBit (register : BitVec 32) (bit : Bool) : BitVec 32 :=
  let mixed := register ^^^ (BitVec.ofBool bit).setWidth 32
  if mixed.getLsbD 0 then (mixed >>> 1) ^^^ 0xEDB88320#32 else mixed >>> 1

/-- The complement of the register behind a message, which it meets with all bits set. -/
def bitSerial (message : List UInt8) : BitVec 32 :=
  ~~~ (message.flatMap bits).foldl takeBit (BitVec.allOnes 32)

-- The check value that goes with the standard: the nine digits from one on.
example : bitSerial [0x31, 0x32, 0x33, 0x34, 0x35, 0x36, 0x37, 0x38, 0x39] = 0xCBF43926#32 := by
  decide +kernel

/-! ## One bit -/

theorem getLsbD_zero_iff (x : UInt32) : x.toBitVec.getLsbD 0 = true ↔ x &&& 1 = 1 := by
  rw [and_one_eq_one_iff, BitVec.getLsbD, Nat.testBit_zero, decide_eq_true_eq]
  rfl

/-- A shift takes in a zero. -/
theorem toBitVec_shift (x : UInt32) : (shift x).toBitVec = takeBit x.toBitVec false := by
  have hmixed : x.toBitVec ^^^ (BitVec.ofBool false).setWidth 32 = x.toBitVec := by simp
  rw [takeBit, hmixed, shift]
  by_cases hlow : x &&& 1 = 1
  · rw [if_pos hlow, if_pos ((getLsbD_zero_iff x).mpr hlow)]
    rfl
  · rw [if_neg hlow, if_neg (mt (getLsbD_zero_iff x).mp hlow), UInt32.xor_zero]
    rfl

/-- The bit as a word. -/
def word (bit : Bool) : UInt32 := bit.toNat.toUInt32

/-- Taking in a bit is a shift of the register with that bit added. -/
theorem takeBit_eq_shift (register : UInt32) (bit : Bool) :
    takeBit register.toBitVec bit = (shift (register ^^^ word bit)).toBitVec := by
  rw [toBitVec_shift]
  cases bit with
  | false => simp [takeBit, word]
  | true => simp [takeBit, word]

/-! ## The bits of a word -/

/-- A word that is added to the register is its lowest bit, which goes out with the next
shift, and the others, which that shift moves down. -/
theorem shift_xor_split {w half : UInt32} (hhalf : half.toNat = w.toNat / 2) (register : UInt32) :
    shift (register ^^^ w) = shift (register ^^^ word (w.toNat.testBit 0)) ^^^ half := by
  have hothers : (UInt32.ofNat (2 ^ 1 * half.toNat)).toNat = 2 ^ 1 * half.toNat := by
    apply UInt32.toNat_ofNat_of_lt'
    have hlt := w.toNat_lt
    show _ < 2 ^ 32
    omega
  have hlowest : (word (w.toNat.testBit 0)).toNat = w.toNat % 2 := by
    rw [Nat.testBit_zero]
    rcases Nat.mod_two_eq_zero_or_one w.toNat with h | h <;> simp [word, h]
  have hsplit : w = word (w.toNat.testBit 0) ^^^ UInt32.ofNat (2 ^ 1 * half.toNat) := by
    apply UInt32.toNat_inj.mp
    have hlt : w.toNat % 2 < 2 ^ 1 := Nat.mod_lt _ Nat.two_pos
    rw [UInt32.toNat_xor, hothers, hlowest, xor_two_pow_mul hlt, hhalf]
    omega
  have hmoved : shift (UInt32.ofNat (2 ^ 1 * half.toNat)) = half := shifts_of_toNat hothers
  calc shift (register ^^^ w)
      = shift (register ^^^ word (w.toNat.testBit 0) ^^^ UInt32.ofNat (2 ^ 1 * half.toNat)) := by
        rw [UInt32.xor_assoc, ← hsplit]
    _ = shift (register ^^^ word (w.toNat.testBit 0)) ^^^ half := by rw [shift_xor, hmoved]

theorem foldl_takeBit {n : Nat} {w : UInt32} (h : w.toNat < 2 ^ n) (register : UInt32) :
    ((List.range n).map w.toNat.testBit).foldl takeBit register.toBitVec =
      (shifts n (register ^^^ w)).toBitVec := by
  induction n generalizing w register with
  | zero =>
      obtain rfl : w = 0 := UInt32.toNat_inj.mp (Nat.lt_one_iff.mp h)
      simp [shifts]
  | succ n ih =>
      have hhalf : (w >>> 1).toNat = w.toNat / 2 := toNat_half w
      have hlt : (w >>> 1).toNat < 2 ^ n := by
        rw [hhalf]
        omega
      have hbits : (List.range (n + 1)).map w.toNat.testBit =
          w.toNat.testBit 0 :: (List.range n).map (w >>> 1).toNat.testBit := by
        simp [List.range_succ_eq_map, hhalf, Nat.testBit_div_two, Function.comp_def]
      rw [hbits, List.foldl_cons, takeBit_eq_shift, ih hlt, shifts, shift_xor_split hhalf]

/-- A byte is taken in bit by bit. -/
theorem foldl_bits (register : UInt32) (byte : UInt8) :
    (bits byte).foldl takeBit register.toBitVec = (step register byte).toBitVec := by
  have hbyte : byte.toUInt32.toNat < 2 ^ 8 := by
    rw [UInt8.toNat_toUInt32]
    exact byte.toNat_lt
  rw [step_eq_shifts, ← foldl_takeBit hbyte, UInt8.toNat_toUInt32]
  rfl

theorem foldl_flatMap_bits (message : List UInt8) (register : UInt32) :
    (message.flatMap bits).foldl takeBit register.toBitVec =
      (message.foldl step register).toBitVec := by
  induction message generalizing register with
  | nil => rfl
  | cons byte rest ih =>
      rw [List.flatMap_cons, List.foldl_append, foldl_bits, ih, List.foldl_cons]

/-- The checksum of a message is the one of the standard. -/
theorem crc32_is_bit_serial (message : List UInt8) :
    (crc32 message).toBitVec = bitSerial message := by
  rw [crc32, UInt32.toBitVec_not, ← foldl_flatMap_bits]
  rfl

end Abacus.Crc32
