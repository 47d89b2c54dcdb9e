import Abacus.Host
import Abacus.Log.Filter
import Abacus.Text.Lines

/-!
# A host in memory

The surroundings of a command as a value: a tree of files, a home directory, an
input, and a list of what has been written.  Time stands still.

The outputs and the log take everything that is written to them.  Files can be in
the way of each other as in any tree, and that is the only trouble there is: no
disk is full, and nothing is forbidden.
-/

namespace Abacus

/-- Something that a command has written. -/
inductive World.Event where
  | out (text : String)
  | err (text : String)
  | log (r : Log.Record)
  deriving DecidableEq

/-- The surroundings of a command. -/
structure World where
  files : FileTree := {}
  /-- The directory that paths set out from. -/
  home : FileTree.Location := []
  input : List UInt8 := []
  /-- What has been written, oldest first. -/
  events : Array World.Event := #[]

namespace World

/-- The world with one more event. -/
def note (w : World) (e : Event) : World := { w with events := w.events.push e }

/-- The content of a file. -/
def readFile (w : World) (p : Path) : Except ReadError (List UInt8) :=
  match w.files.openNode w.home p with
  | .ok (.file content) => .ok content
  | .ok .directory => .error (.reading .isADirectory)
  | .error e => .error (.opening e)

/-- The world after an operation on its files, if that succeeded. -/
def change (result : Except FileError FileTree) : StateM World (Except FileError Unit) :=
  match result with
  | .ok files => do
      modify fun w => { w with files }
      return .ok ()
  | .error e => return .error e

/-- Go through lines until one gives a result. -/
def firstResult {α : Type} (act : List UInt8 → StateM World (Option α)) :
    List (List UInt8) → StateM World (Option α)
  | [] => return none
  | line :: rest => do
      match ← act line with
      | some a => return some a
      | none => firstResult act rest

instance : Host (StateM World) where
  readFile p := return (← get).readFile p
  createFile p content := do
    let w ← get
    change (w.files.create w.home p content)
  moveFile source target := do
    let w ← get
    change (w.files.move w.home source target)
  removeFile p := do
    let w ← get
    change (w.files.remove w.home p)
  makeDirectory p := do
    let w ← get
    change (w.files.makeDirectory w.home p)
  isPresent p := do
    let w ← get
    return (w.files.find? w.home p).isSome
  isDirectory p := do
    let w ← get
    return w.files.find? w.home p = some .directory
  readInput := return (← get).input
  eachLine act := do firstResult act (Text.byteLines (← get).input)
  clock := return 0
  writeOut text := modify (note · (.out text))
  writeErr text := modify (note · (.err text))
  writeLog r := modify (note · (.log r))

/-! ## What has been written -/

/-- The text of the output. -/
def outText (w : World) : String :=
  String.join (w.events.toList.map fun
    | .out text => text
    | _ => "")

/-- The text of the error output, with the log records that a filter shows. -/
def errText (w : World) (filter : Log.Filter) (coloured : Bool) : String :=
  String.join (w.events.toList.map fun
    | .err text => text
    | .log r => if filter.shows r then r.line coloured else ""
    | .out _ => "")

/-- The log records. -/
def logged (w : World) : Log :=
  w.events.filterMap fun
    | .log r => some r
    | _ => none

end World

end Abacus
