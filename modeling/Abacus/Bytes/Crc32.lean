/-!
# The checksum

A cyclic redundancy check of thirty-two bits over the reversed polynomial
`0xEDB88320`.  The register starts with all bits set and is complemented at the
end.

A byte is taken into the register in one go.  Only the low eight bits of the
register meet the byte, so the eight shifts are done on those alone; the other
bits move down by eight places and are added back.
-/

namespace Abacus

namespace Crc32

/-- The polynomial, lowest power in the highest bit. -/
def polynomial : UInt32 := 0xEDB88320

/-- One division step: a shift, and the polynomial if a one was shifted out. -/
def shift (x : UInt32) : UInt32 :=
  (x >>> 1) ^^^ (if x &&& 1 = 1 then polynomial else 0)

/-- Several division steps. -/
def shifts : Nat → UInt32 → UInt32
  | 0, x => x
  | n + 1, x => shifts n (shift x)

/-- The register after one more byte. -/
def step (register : UInt32) (byte : UInt8) : UInt32 :=
  (register >>> 8) ^^^ shifts 8 ((register ^^^ byte.toUInt32) &&& 0xFF)

end Crc32

/-- The checksum of a byte string. -/
def crc32 (bytes : List UInt8) : UInt32 :=
  ~~~ bytes.foldl Crc32.step 0xFFFFFFFF

end Abacus
