import Abacus.Bytes.LittleEndian
import Abacus.Value

/-!
# Fields in a byte string

A record in a file is a sequence of fields: words of two or four bytes, numbers
of eight bytes, and raw stretches.  `Field.bytes` writes a field.  A `Cursor`
reads them back from left to right; it is told the shape of the next field, and
answers with the field and the cursor behind it, or with a `Shortage` that says
how much was asked for and where.  A read that fails gives no new cursor, so the
old one is still good.
-/

namespace Abacus

/-- A field of a record. -/
inductive Field where
  | raw (bytes : List UInt8)
  | word16 (n : UInt16)
  | word32 (n : UInt32)
  | number (v : Value)
  deriving DecidableEq

/-- What is known of a field before it is read. -/
inductive Field.Shape where
  | raw (size : Nat)
  | word16
  | word32
  | number
  deriving DecidableEq

namespace Field

/-- How many bytes a field of some shape takes. -/
def Shape.size : Shape → Nat
  | .raw size => size
  | .word16 => 2
  | .word32 => 4
  | .number => 8

/-- The shape of a field. -/
def shape : Field → Shape
  | .raw bytes => .raw bytes.length
  | .word16 _ => .word16
  | .word32 _ => .word32
  | .number _ => .number

/-- A field as it is stored. -/
def bytes : Field → List UInt8
  | .raw bytes => bytes
  | .word16 n => LittleEndian.toBytes 2 n.toNat
  | .word32 n => LittleEndian.toBytes 4 n.toNat
  | .number v => LittleEndian.toBytes 8 v.bits.toNat

/-- A field takes the room of its shape. -/
theorem length_bytes (f : Field) : f.bytes.length = f.shape.size := by
  cases f <;> simp [bytes, shape, Shape.size]

end Field

/-- A position in a byte string: how far it is from the start, and what is left. -/
structure Cursor where
  offset : Nat
  rest : List UInt8
  deriving DecidableEq

/-- A read past the end of a byte string. -/
structure Shortage where
  /-- How many bytes were asked for. -/
  needed : Nat
  /-- Where they were asked for. -/
  offset : Nat
  deriving DecidableEq, Repr

namespace Cursor

/-- The start of a byte string. -/
def start (bytes : List UInt8) : Cursor := ⟨0, bytes⟩

/-- How many bytes are left. -/
def remaining (c : Cursor) : Nat := c.rest.length

/-- The next `n` bytes. -/
def take (c : Cursor) (n : Nat) : Except Shortage (List UInt8 × Cursor) :=
  let front := c.rest.take n
  if front.length = n then .ok (front, ⟨c.offset + n, c.rest.drop n⟩)
  else .error ⟨n, c.offset⟩

/-- The next two bytes as a word. -/
def word16 (c : Cursor) : Except Shortage (UInt16 × Cursor) :=
  (c.take 2).map fun (bytes, c) => ((LittleEndian.ofBytes bytes).toUInt16, c)

/-- The next four bytes as a word. -/
def word32 (c : Cursor) : Except Shortage (UInt32 × Cursor) :=
  (c.take 4).map fun (bytes, c) => ((LittleEndian.ofBytes bytes).toUInt32, c)

/-- The next eight bytes as a number. -/
def number (c : Cursor) : Except Shortage (Value × Cursor) :=
  (c.take 8).map fun (bytes, c) => (⟨(LittleEndian.ofBytes bytes).toUInt64⟩, c)

/-- The next field, of a given shape. -/
def read (c : Cursor) : Field.Shape → Except Shortage (Field × Cursor)
  | .raw size => (c.take size).map fun (bytes, c) => (.raw bytes, c)
  | .word16 => c.word16.map fun (n, c) => (.word16 n, c)
  | .word32 => c.word32.map fun (n, c) => (.word32 n, c)
  | .number => c.number.map fun (v, c) => (.number v, c)

end Cursor

end Abacus
