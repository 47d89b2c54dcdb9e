import Abacus.Chunk.Basic
import Abacus.Text.Blank
import Abacus.Text.Lines

/-!
# Assembly text

A chunk can be written by hand, one instruction a line:

    ; 1 + 2 * 3
    CONSTANT 1
    CONSTANT 2
    CONSTANT 3
    MULTIPLY
    ADD
    RETURN

`CONSTANT` puts a number into the pool and loads it, and `LOAD` loads an entry of
the pool by its index.  Whether there is such an entry is not checked.  Names may
be in any case.  Blanks around a line do not matter; empty lines, and lines that
begin with a semicolon, say nothing.  Every byte of the chunk carries the number
of the line it comes from.

Reading stops at the first line that is refused.  Two of the refusals below do not come up in a
text whose lines can be numbered at all: a byte can name every entry of a pool that is not full,
and only a text of more lines than fit thirty-two bits is too long.
-/

namespace Abacus.Assembly

/-- What one line says. -/
inductive Statement where
  | constant (v : Value)
  | load (index : UInt8)
  | operation (op : Opcode)
  deriving DecidableEq

/-- Why a line is refused. -/
inductive Complaint where
  | invalidNumber (text : String)
  | invalidIndex (text : String)
  | missingOperand (name : String)
  | unexpectedOperand (name : String)
  | unsupported (name : String)
  | tooManyConstants
  | indexTooWide
  deriving DecidableEq, Repr

/-- What is said of a line that is refused. -/
def Complaint.message : Complaint → String
  | .invalidNumber text => "invalid number `" ++ text ++ "`"
  | .invalidIndex text => "LOAD expects an index: `" ++ text ++ "`"
  | .missingOperand name => "`" ++ name ++ "` expects an operand"
  | .unexpectedOperand name => "unexpected operand for `" ++ name ++ "`"
  | .unsupported name => "unsupported instruction `" ++ name ++ "`"
  | .tooManyConstants => "too many constants in one chunk"
  | .indexTooWide => "constant index does not fit one byte"

/-- Why a text is not assembled. -/
inductive AssemblyError where
  /-- The line with the given number is refused. -/
  | refused (line : UInt32) (complaint : Complaint)
  /-- A line has a number that is too great. -/
  | tooLong
  deriving DecidableEq, Repr

/-- What is said of a text that is not assembled. -/
def AssemblyError.message : AssemblyError → String
  | .refused line complaint => s!"asm line {line.toNat}: " ++ complaint.message
  | .tooLong => "corrupted: source too long"

/-- A byte written in decimal, with or without a plus sign. -/
def readIndex? (text : List Char) : Option UInt8 :=
  let digits := match text with
    | '+' :: rest => rest
    | _ => text
  let n := Numeral.ofDigits digits
  if digits ≠ [] ∧ digits.all Char.isDigit ∧ n < 256 then some n.toUInt8 else none

/-- The instruction of a name that takes no operand. -/
def operation? (name : String) : Option Opcode :=
  [("RETURN", .ret), ("ADD", .operator .add), ("SUBTRACT", .operator .subtract),
   ("MULTIPLY", .operator .multiply), ("DIVIDE", .operator .divide),
   ("NEGATE", .negate)].lookup name

/-- The statement of a name without an operand. -/
def readPlain (name : String) : Except Complaint Statement :=
  if name = "CONSTANT" ∨ name = "LOAD" then .error (.missingOperand name)
  else match operation? name with
    | some op => .ok (.operation op)
    | none => .error (.unsupported name)

/-- The statement of a name with an operand. -/
def readApplied (name : String) (operand : List Char) : Except Complaint Statement :=
  if name = "CONSTANT" then
    match Value.read? operand with
    | some v => .ok (.constant v)
    | none => .error (.invalidNumber (String.ofList operand))
  else if name = "LOAD" then
    match readIndex? operand with
    | some index => .ok (.load index)
    | none => .error (.invalidIndex (String.ofList operand))
  else .error (.unexpectedOperand name)

/-- The statement on a line, or none on a line that says nothing. -/
def readLine (line : List Char) : Except Complaint (Option Statement) :=
  match Text.trim line with
  | [] => .ok none
  | ';' :: _ => .ok none
  | text =>
      let (word, operand) := Text.splitAtBlank text
      let name := String.ofList (word.map Char.toUpper)
      some <$> match operand with
        | none => readPlain name
        | some operand => readApplied name (Text.trim operand)

/-- The chunk with one more statement, taken from the given line. -/
def append (c : Chunk) (line : UInt32) : Statement → Except Complaint Chunk
  | .constant v =>
      if c.consts.size < Chunk.poolLimit then
        match Chunk.operand? c.consts.size with
        | some index => .ok (((c.addValue v).pushOp .constant line).push index line)
        | none => .error .indexTooWide
      else .error .tooManyConstants
  | .load index => .ok ((c.pushOp .constant line).push index line)
  | .operation op => .ok (c.pushOp op line)

/-- The chunk with what one line says added to it. -/
def assembleLine (c : Chunk) (line : UInt32) (text : List Char) : Except Complaint Chunk :=
  match readLine text with
  | .error e => .error e
  | .ok none => .ok c
  | .ok (some s) => append c line s

/-- The chunk with all lines from the given one on added to it. -/
def assembleFrom : Nat → List (List Char) → Chunk → Except AssemblyError Chunk
  | _, [], c => .ok c
  | number, text :: rest, c =>
      if number < UInt32.size then
        match assembleLine c number.toUInt32 text with
        | .ok c => assembleFrom (number + 1) rest c
        | .error e => .error (.refused number.toUInt32 e)
      else .error .tooLong

/-- The chunk that a text describes. -/
def assemble (text : String) : Except AssemblyError Chunk :=
  assembleFrom 1 (Text.lines text.toList) .empty

end Abacus.Assembly
