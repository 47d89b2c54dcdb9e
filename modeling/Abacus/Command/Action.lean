import Abacus.Evaluation
import Abacus.Host

/-!
# Actions

An action is a step of a command that may run into trouble.  Trouble is either
the failure of an expression, which has an exit code of its own, or anything
else, told as a chain of causes with the outermost first.
-/

namespace Abacus

/-- Why a command did not finish. -/
inductive Trouble where
  | failure (f : Failure)
  | causes (chain : List String)
  deriving DecidableEq, Repr

/-- A chain of causes as it is told. -/
def Trouble.chainText (chain : List String) : String := String.intercalate ": " chain

/-- A step of a command. -/
abbrev Action (m : Type → Type) := ExceptT Trouble m

namespace Action

variable {m : Type → Type} [Monad m]

/-- Do something that cannot run into trouble. -/
def perform {α : Type} (act : m α) : Action m α := ExceptT.lift act

/-- Trouble with a chain of causes. -/
def stop {α : Type} (chain : List String) : Action m α := throw (.causes chain)

/-- An action whose trouble is told with one more cause in front. -/
def within {α : Type} (cause : String) (act : Action m α) : Action m α :=
  tryCatch act fun
    | .causes chain => stop (cause :: chain)
    | .failure f => throw (.failure f)

/-- The result of an operation, or trouble. -/
def require {α ε : Type} (explain : ε → List String) : Except ε α → Action m α
  | .ok a => pure a
  | .error e => stop (explain e)

variable [Host m]

/-- Write to the output. -/
def say (text : String) : Action m Unit := perform (Host.writeOut text)

/-- Write records to the log. -/
def record (log : Log) : Action m Unit := perform (log.forM Host.writeLog)

/-- The colour of a status line. -/
inductive Colour where
  | red | green | blue

/-- The code of a colour on a terminal. -/
def Colour.code : Colour → String
  | .red => "31"
  | .green => "32"
  | .blue => "34"

/-- A status line: a tag in bold and colour, and a message. -/
def statusLine (colour : Colour) (tag message : String) : String :=
  "\x1b[1m\x1b[" ++ colour.code ++ "m" ++ tag ++ "\x1b[39m\x1b[0m " ++ message ++ "\n"

/-- Write a status line. -/
def status (colour : Colour) (tag message : String) : Action m Unit :=
  perform (Host.writeErr (statusLine colour tag message))

/-- Write how long something took. -/
def showTime (what : String) (start stop : Nat) : Action m Unit :=
  status .blue "TIME" (what ++ ": " ++ Nat.repr (stop - start) ++ " µs")

end Action

end Abacus
