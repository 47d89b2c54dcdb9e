import Abacus.Bytes.Crc32
import Abacus.Bytes.Cursor
import Abacus.Chunk.Validity
import Abacus.Log
import Abacus.Text.Pad

/-!
# Chunk files

A chunk is stored as a mark of four bytes, a version, the pool with its count in
front, the code with its count in front, and the line of each code byte.  A
checksum of all that comes last.  Words are little-endian; values keep their
bits.

Loading checks the file from the outside in: that it is long enough to have a
checksum, that the checksum is right, the mark, the version, that every part is
there and nothing follows, and at last that the chunk is valid.  The first check
that fails decides the error.
-/

namespace Abacus

namespace Chunk

/-- The mark at the start of a chunk file: the letters `LMNC`. -/
def mark : List UInt8 := [0x4C, 0x4D, 0x4E, 0x43]

/-- The version of the format. -/
def version : UInt16 := 1

/-- The fields of a chunk file, without the checksum. -/
def fields (c : Chunk) : List Field :=
  [.raw mark, .word16 version, .word32 c.consts.size.toUInt32]
    ++ c.consts.toList.map .number
    ++ [.word32 c.code.size.toUInt32, .raw c.code.toList]
    ++ c.lines.toList.map .word32

/-- A chunk file without the checksum. -/
def payload (c : Chunk) : List UInt8 := c.fields.flatMap Field.bytes

/-- The bytes of a chunk file. -/
def toBytes (c : Chunk) : List UInt8 :=
  let payload := c.payload
  payload ++ (Field.word32 (crc32 payload)).bytes

/-- Why a byte string is not a chunk file. -/
inductive LoadError where
  | tooShort
  | checksum (expected found : UInt32)
  | wrongMark
  | unknownVersion (version : UInt16)
  | shortage (s : Shortage)
  | trailingBytes
  | defect (d : Defect)
  deriving DecidableEq, Repr

/-- What is said of a file that cannot be loaded. -/
def LoadError.message : LoadError → String
  | .tooShort => "corrupted: too short"
  | .checksum expected found =>
      "hash mismatch (crc32): expected=0x" ++ Text.hexadecimal 8 expected.toNat
        ++ ", found=0x" ++ Text.hexadecimal 8 found.toNat
  | .wrongMark => "invalid chunk magic"
  | .unknownVersion version => s!"unsupported chunk version {version.toNat}"
  | .shortage s => s!"unexpected EOF: need {s.needed} bytes at {s.offset}"
  | .trailingBytes => "corrupted: trailing bytes"
  | .defect d => "corrupted: " ++ d.message

/-- What is logged of a file that cannot be loaded.  A file that is stored
correctly and still holds no valid chunk is worth a warning. -/
def LoadError.log (e : LoadError) : Log :=
  match e with
  | .defect _ => #[⟨.warn, .chunkFile, "decoded chunk failed validation: " ++ e.message⟩]
  | _ => #[]

/-- Read a counted sequence, adding to what has been read already. -/
def readMany {α : Type} (read : Cursor → Except Shortage (α × Cursor)) :
    Nat → Array α → Cursor → Except Shortage (Array α × Cursor)
  | 0, done, c => .ok (done, c)
  | n + 1, done, c =>
      match read c with
      | .ok (a, c) => readMany read n (done.push a) c
      | .error e => .error e

/-- The pool, the code and the lines, in the order in which they are stored. -/
def readParts (c : Cursor) : Except Shortage (Chunk × Cursor) := do
  let (poolSize, c) ← c.word32
  let (consts, c) ← readMany Cursor.number poolSize.toNat #[] c
  let (codeSize, c) ← c.word32
  let (code, c) ← c.take codeSize.toNat
  let (lines, c) ← readMany Cursor.word32 codeSize.toNat #[] c
  return ({ code := code.toArray, lines, consts }, c)

/-- The chunk in a payload whose checksum has been found right. -/
def ofPayload (bytes : List UInt8) : Except LoadError Chunk := do
  let (front, c) ← (Cursor.start bytes |>.take mark.length).mapError .shortage
  if front ≠ mark then throw .wrongMark
  let (found, c) ← c.word16.mapError .shortage
  if found ≠ version then throw (.unknownVersion found)
  let (chunk, c) ← (readParts c).mapError .shortage
  if c.remaining ≠ 0 then throw .trailingBytes
  match chunk.defect? with
  | some d => throw (.defect d)
  | none => return chunk

/-- The chunk in a file. -/
def ofBytes (bytes : List UInt8) : Except LoadError Chunk := do
  if bytes.length < 10 then throw .tooShort
  let cut := bytes.length - 4
  let payload := bytes.take cut
  let found := (LittleEndian.ofBytes (bytes.drop cut)).toUInt32
  let expected := crc32 payload
  if expected ≠ found then throw (.checksum expected found)
  ofPayload payload

end Chunk

end Abacus
