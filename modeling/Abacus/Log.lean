import Abacus.Text.Pad

/-!
# Log records

Parts of the program leave records of what they do.  A record has a level, the
part it comes from, and a message.  Which records are shown, and how, is decided
where the output is written.
-/

namespace Abacus

namespace Log

/-- How much a record matters. -/
inductive Level where
  | error | warn | info | debug | trace
  deriving DecidableEq, Repr

/-- Levels count up from the most urgent one. -/
def Level.rank : Level → Nat
  | .error => 1
  | .warn => 2
  | .info => 3
  | .debug => 4
  | .trace => 5

/-- The name of a level. -/
def Level.name : Level → String
  | .error => "ERROR"
  | .warn => "WARN"
  | .info => "INFO"
  | .debug => "DEBUG"
  | .trace => "TRACE"

/-- The part of the program that a record comes from. -/
inductive Origin where
  | lexer | compiler | chunkFile | machine | command
  deriving DecidableEq, Repr

/-- The path under which a part of the program is known to the log. -/
def Origin.path : Origin → String
  | .lexer => "lumen_lexer"
  | .compiler => "lumen_compiler"
  | .chunkFile => "lumen_core::bytecode::chunk"
  | .machine => "lumen_core::bytecode::runtime::eval"
  | .command => "lumen_cli"

/-- One record. -/
structure Record where
  level : Level
  origin : Origin
  message : String
  deriving DecidableEq, Repr

end Log

/-- The records of some activity, oldest first. -/
abbrev Log := Array Log.Record

end Abacus
