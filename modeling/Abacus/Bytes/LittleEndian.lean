/-!
# Little-endian words

A word is stored with its lowest byte first.  `ofBytes` reads any number of
bytes as one natural number and `toBytes` writes a number on a given count of
bytes, dropping what does not fit.  The two are inverse to each other on byte
strings of the given length, and on numbers that fit.
-/

namespace Abacus.LittleEndian

/-- The number that a byte string stands for. -/
def ofBytes : List UInt8 → Nat
  | [] => 0
  | b :: rest => b.toNat + 256 * ofBytes rest

/-- The lowest `count` bytes of a number. -/
def toBytes : Nat → Nat → List UInt8
  | 0, _ => []
  | count + 1, n => n.toUInt8 :: toBytes count (n / 256)

@[simp] theorem length_toBytes (count n : Nat) : (toBytes count n).length = count := by
  induction count generalizing n with
  | zero => rfl
  | succ count ih => simp [toBytes, ih]

/-- Reading undoes writing, up to what was dropped. -/
theorem ofBytes_toBytes (count n : Nat) : ofBytes (toBytes count n) = n % Nat.pow 256 count := by
  induction count generalizing n with
  | zero => exact (Nat.mod_one n).symm
  | succ count ih =>
      simp only [toBytes, ofBytes, ih]
      change _ = n % (Nat.pow 256 count * 256)
      rw [Nat.mul_comm (Nat.pow 256 count) 256, Nat.mod_mul]
      simp

/-- Writing undoes reading. -/
theorem toBytes_ofBytes (bytes : List UInt8) : toBytes bytes.length (ofBytes bytes) = bytes := by
  induction bytes with
  | nil => rfl
  | cons b rest ih =>
      have hb : b.toNat < 256 := b.toNat_lt
      have hdiv : (b.toNat + 256 * ofBytes rest) / 256 = ofBytes rest := by omega
      have hlow : (b.toNat + 256 * ofBytes rest).toUInt8 = b := by
        apply UInt8.toNat_inj.mp
        simp
      simp only [List.length_cons, toBytes, ofBytes, hdiv, ih, hlow]

end Abacus.LittleEndian
