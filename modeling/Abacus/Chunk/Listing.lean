import Abacus.Chunk.Basic
import Abacus.Text.Pad

/-!
# Listings

A listing shows the code of a chunk, one instruction a line: the offset, the
source line, the name of the instruction and its operand.  The source line is
replaced by a bar when it is that of the byte before.

Any chunk can be listed.  Where the bytes are not an instruction the line says
so, and the listing goes on at the next byte, or behind the place where an
operand would be.
-/

namespace Abacus.Chunk

/-- The column of a source line. -/
def lineColumn (c : Chunk) (offset : Nat) : String :=
  let line := (c.lineAt? offset).getD 0
  if 0 < offset ∧ c.lineAt? (offset - 1) = some line then "   |"
  else Text.padLeft 4 ' ' (Nat.repr line.toNat)

/-- What a `constant` at `offset` loads. -/
def operandText (c : Chunk) (offset : Nat) : String :=
  match c.code[offset + 1]? with
  | none => "<missing operand>"
  | some index =>
      let column := Text.padLeft 4 ' ' (Nat.repr index.toNat)
      match c.consts[index.toNat]? with
      | some v => column ++ " '" ++ v.text ++ "'"
      | none => column ++ " <invalid constant>"

/-- The instruction at `offset`, with its operand. -/
def instructionText (c : Chunk) (offset : Nat) : String :=
  match c.code[offset]? with
  | none => "<end of code>"
  | some byte =>
      match Opcode.ofByte? byte with
      | some .constant =>
          Text.padRight 16 ' ' Opcode.constant.mnemonic ++ " " ++ c.operandText offset
      | some op => op.mnemonic
      | none => "Unknown opcode " ++ Nat.repr byte.toNat

/-- The offset at which the listing goes on after `offset`. -/
def nextOffset (c : Chunk) (offset : Nat) : Nat :=
  if c.code[offset]?.bind Opcode.ofByte? = some .constant then offset + 2 else offset + 1

theorem lt_nextOffset (c : Chunk) (offset : Nat) : offset < c.nextOffset offset := by
  unfold nextOffset
  split <;> omega

/-- The line of a listing for the instruction at `offset`. -/
def listingLine (c : Chunk) (offset : Nat) : String :=
  Text.padLeft 4 '0' (Nat.repr offset) ++ " " ++ c.lineColumn offset ++ " "
    ++ c.instructionText offset

/-- The offsets that a listing shows, from `offset` on. -/
def listedFrom (c : Chunk) (offset : Nat) : List Nat :=
  if offset < c.code.size then offset :: listedFrom c (c.nextOffset offset) else []
termination_by c.code.size - offset
decreasing_by
  have := c.lt_nextOffset offset
  omega

/-- A listing shows an instruction wherever code is left. -/
theorem listedFrom_of_lt {c : Chunk} {offset : Nat} (h : offset < c.code.size) :
    c.listedFrom offset = offset :: c.listedFrom (c.nextOffset offset) := by
  rw [listedFrom, if_pos h]

/-- A listing ends where no code is left. -/
theorem listedFrom_of_le {c : Chunk} {offset : Nat} (h : c.code.size ≤ offset) :
    c.listedFrom offset = [] := by
  rw [listedFrom, if_neg (Nat.not_lt.mpr h)]

/-- The offsets that a listing shows. -/
def listed (c : Chunk) : List Nat := c.listedFrom 0

/-- The listing of a chunk under a title. -/
def listing (c : Chunk) (title : String) : String :=
  "== " ++ title ++ " ==\n" ++ String.join (c.listed.map fun offset => c.listingLine offset ++ "\n")

end Abacus.Chunk
