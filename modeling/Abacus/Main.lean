import Abacus.Program

/-!
# The executable

The program on the machine it runs on.
-/

namespace Abacus

/-- How the log is written. -/
structure Console.Display where
  filter : Log.Filter
  coloured : Bool

/-- Input and output of the process. -/
abbrev Console := ReaderT Console.Display IO

namespace Console

/-- The error of an operation of the system. -/
def fileError : IO.Error → FileError
  | .noFileOrDirectory .. => .notFound
  | .alreadyExists .. => .exists
  | .resourceBusy .. => .busy
  | .inappropriateType _ 20 _ => .notADirectory
  | .inappropriateType _ 21 _ => .isADirectory
  | .invalidArgument _ 36 _ => .nameTooLong
  | e => .other (toString e)

/-- Try an operation of the system. -/
def attempt {α : Type} (act : IO α) : Console (Except FileError α) :=
  fun _ => act.toBaseIO.map fun
    | .ok a => .ok a
    | .error e => .error (fileError e)

/-- The place that a path leads to.  The system takes no path beyond its limit. -/
def resolve (p : Path) :=
  if FileTree.fits ({} : FileTree.Limits).path p.text then attempt (IO.FS.realPath p.text)
  else pure (.error .nameTooLong)

/-- The content of a file. -/
def readFile (p : Path) : Console (Except ReadError (List UInt8)) := do
  match ← attempt (IO.FS.Handle.mk p.text .read) with
  | .error e => return .error (.opening e)
  | .ok handle =>
      match ← attempt handle.readBinToEnd with
      | .error e => return .error (.reading e)
      | .ok bytes => return .ok bytes.toList

/-- All bytes that a stream still has. -/
partial def readStream (stream : IO.FS.Stream) (before : ByteArray) : IO ByteArray := do
  let bytes ← stream.read 4096
  if bytes.isEmpty then return before else readStream stream (before ++ bytes)

/-- The bytes of a stream up to the end of a line. -/
partial def readLine (stream : IO.FS.Stream) (before : ByteArray) : IO ByteArray := do
  let bytes ← stream.read 1
  if bytes.isEmpty then return before
  else if bytes.toList = [10] then return before ++ bytes
  else readLine stream (before ++ bytes)

/-- Go through the lines of the input until one gives a result. -/
partial def eachLine {α : Type} (act : List UInt8 → Console (Option α)) : Console (Option α) := do
  let bytes ← readLine (← IO.getStdin) .empty
  match Text.byteLines bytes.toList with
  | [] => return none
  | line :: _ =>
      match ← act line with
      | some a => return some a
      | none => eachLine act

/-- Write to a stream at once. -/
def write (stream : IO.FS.Stream) (text : String) : IO Unit := do
  stream.putStr text
  stream.flush

instance : Host Console where
  readFile := readFile
  createFile p content := attempt (IO.FS.writeBinFile p.text content.toByteArray)
  moveFile source target := attempt (IO.FS.rename source.text target.text)
  removeFile p := attempt (IO.FS.removeFile p.text)
  makeDirectory p := attempt (IO.FS.createDir p.text)
  isPresent p := do return (← resolve p).isOk
  isDirectory p := do
    match ← resolve p with
    | .ok place => place.isDir
    | .error _ => return false
  readInput := do return (← readStream (← IO.getStdin) .empty).toList
  eachLine := eachLine
  clock := do return (← IO.monoNanosNow) / 1000
  writeOut text := do write (← IO.getStdout) text
  writeErr text := do write (← IO.getStderr) text
  writeLog r := do
    let display ← read
    if display.filter.shows r then write (← IO.getStderr) (r.line display.coloured)

end Console

end Abacus

/-- The entry point. -/
def main (args : List String) : IO UInt32 := do
  let environment ← IO.getEnv "RUST_LOG"
  let invocation := Abacus.Command.readInvocation args
  let filter := Abacus.Program.filterOf environment invocation
  let coloured ← match Abacus.Program.colourOf invocation with
    | .always => pure true
    | .never => pure false
    | .auto => (← IO.getStderr).isTty
  let action : Abacus.Console UInt32 := Abacus.Program.perform environment invocation
  action.run { filter, coloured }
