import Abacus.Files.Path

/-!
# Tasks

What the program can be asked to do.
-/

namespace Abacus

/-- Where an expression comes from. -/
inductive Input where
  /-- A file: a source text, or a chunk file if its extension says so. -/
  | file (p : Path)
  | standard
  /-- An expression given on the command line. -/
  | inline (text : String)
  deriving DecidableEq

namespace Input

/-- The extension of chunk files. -/
def chunkExtension : String := "lbc"

/-- The chunk file that an input is. -/
def chunkFile? : Input → Option Path
  | .file p => if p.extension? = some chunkExtension then some p else none
  | _ => none

/-- The title of an input. -/
def title : Input → String
  | .file p => p.text
  | .standard => "<stdin>"
  | .inline _ => "<expr>"

/-- The chunk file that an input is compiled to. -/
def defaultOutput : Input → Path
  | .file p => p.withExtension chunkExtension
  | _ => ⟨"out." ++ chunkExtension⟩

end Input

/-- Run an expression or a chunk file. -/
structure RunTask where
  input : Input
  /-- Whether every step of the machine is logged. -/
  trace : Bool := false
  /-- Whether the compiled code is logged. -/
  showCode : Bool := false
  /-- Whether times are shown. -/
  time : Bool := false
  deriving DecidableEq

/-- Compile an expression to a chunk file. -/
structure CompileTask where
  input : Input
  output : Option Path := none
  /-- Whether an old file may be replaced. -/
  overwrite : Bool := false
  /-- Whether missing directories above the output are made. -/
  makeParents : Bool := false
  time : Bool := false
  deriving DecidableEq

/-- The path of the chunk file. -/
def CompileTask.target (t : CompileTask) : Path := t.output.getD t.input.defaultOutput

/-- List the code of an expression or a chunk file. -/
structure ListTask where
  input : Input
  /-- Whether the chunk is written as structured text. -/
  json : Bool := false
  deriving DecidableEq

/-- Assemble a text and list it. -/
structure AssembleTask where
  input : Path
  /-- Whether the chunk is run. -/
  run : Bool := false
  deriving DecidableEq

/-- Something that the program can be asked to do. -/
inductive Command where
  | run (t : RunTask)
  | compile (t : CompileTask)
  | list (t : ListTask)
  | assemble (t : AssembleTask)
  /-- Answer expressions line by line. -/
  | converse (prompt : String)
  deriving DecidableEq

end Abacus
