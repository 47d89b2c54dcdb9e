import Abacus.Command.Arguments
import Abacus.Command.Execute
import Abacus.World

/-!
# The program

From a command line to an exit code, on any host, and as a session in the model.
-/

namespace Abacus.Program

open Command

/-- What is written when help is asked for. -/
def usage : String :=
  "Usage: lumen [-v... | -q] [--color auto|always|never] <run|compile|disasm|asm|repl> [...]\n"

/-- Tell what cannot be read in the filter that the environment gives. -/
def warn {m : Type → Type} [Monad m] [Host m] (environment : Option String) : m Unit :=
  (environment.toList.flatMap Log.Filter.complaints).forM fun complaint =>
    Host.writeErr ("warning: " ++ complaint.message ++ ", ignoring it\n")

/-- Do what a command line asks for; the result is the exit code. -/
def perform {m : Type → Type} [Monad m] [Host m] (environment : Option String) :
    Except UsageError Invocation → m UInt32
  | .error e => do
      Host.writeErr ("error: " ++ e.message ++ "\n\n" ++ usage)
      return 2
  | .ok .help => do
      Host.writeOut usage
      return 0
  | .ok .version => do
      Host.writeOut "lumen 0.1.0\n"
      return 0
  | .ok (.command _ c) => do
      warn environment
      execute c

/-- The records that are shown while a command line is carried out. -/
def filterOf (environment : Option String) : Except UsageError Invocation → Log.Filter
  | .ok (.command s c) => logFilter environment s c
  | _ => .upTo .error

/-- When colour is used while a command line is carried out. -/
def colourOf : Except UsageError Invocation → ColourChoice
  | .ok (.command s _) => s.colour
  | _ => .auto

/-- A finished run of the program. -/
structure Session where
  exitCode : UInt32
  out : String
  err : String
  /-- The surroundings afterwards. -/
  world : World

/-- Run the program in a world, where it does not write to a terminal. -/
def session (w : World) (environment : Option String) (args : List String) : Session :=
  let invocation := readInvocation args
  let action : StateM World UInt32 := perform environment invocation
  let (exitCode, world) := action.run { w with events := #[] }
  let coloured := colourOf invocation = .always
  ⟨exitCode, world.outText, world.errText (filterOf environment invocation) coloured, world⟩

end Abacus.Program
