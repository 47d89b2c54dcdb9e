import Abacus.Files.Tree
import Abacus.Log

/-!
# Hosts

What a command needs from its surroundings: files, a clock, an input, and three
places to write to.  Commands are written against this interface, and run alike
on the machine and in the model of `Abacus.World`.
-/

namespace Abacus

/-- Why a file could not be read. -/
inductive ReadError where
  /-- It could not be opened. -/
  | opening (e : FileError)
  /-- It was opened, and then could not be read. -/
  | reading (e : FileError)
  deriving DecidableEq, Repr

/-- What is said of a file that could not be read. -/
def ReadError.message : ReadError → String
  | .opening e => e.message
  | .reading e => e.message

/-- The surroundings of a command. -/
class Host (m : Type → Type) where
  /-- The content of a file. -/
  readFile : Path → m (Except ReadError (List UInt8))
  /-- Make a file with the given content, or replace an old one. -/
  createFile : Path → List UInt8 → m (Except FileError Unit)
  /-- Move a file, also in the place of an old one. -/
  moveFile : Path → Path → m (Except FileError Unit)
  removeFile : Path → m (Except FileError Unit)
  makeDirectory : Path → m (Except FileError Unit)
  /-- Whether there is anything at a path. -/
  isPresent : Path → m Bool
  isDirectory : Path → m Bool
  /-- All of the input. -/
  readInput : m (List UInt8)
  /-- Go through the lines of the input until the action gives a result; there is
  no result if the input ends first. -/
  eachLine : {α : Type} → (List UInt8 → m (Option α)) → m (Option α)
  /-- A running time in microseconds. -/
  clock : m Nat
  writeOut : String → m Unit
  writeErr : String → m Unit
  writeLog : Log.Record → m Unit

end Abacus
