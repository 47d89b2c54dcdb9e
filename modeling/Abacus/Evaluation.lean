import Abacus.Compiler
import Abacus.Machine

/-!
# Evaluating expressions

Compile a text and run the chunk.
-/

namespace Abacus

/-- Why a text has no value. -/
inductive Failure where
  | compile (d : Diagnostic)
  | fault (f : Fault)
  deriving DecidableEq, Repr

namespace Failure

/-- What is said of a failure. -/
def message : Failure → String
  | .compile d => d.text
  | .fault f => "runtime error: " ++ f.message

/-- The exit code of a program that ends with a failure. -/
def exitCode : Failure → UInt32
  | .compile _ => 65
  | .fault _ => 70

end Failure

/-- A finished evaluation. -/
structure Evaluation where
  /-- The value, or none if the run ended with an empty stack. -/
  outcome : Except Failure (Option Value)
  log : Log

/-- Evaluate the expression in a text. -/
def evaluate (options : Compiler.Options) (limits : Machine.Options) (text : String) :
    Evaluation :=
  let compilation := Compiler.compile options text
  match compilation.result with
  | .error d => ⟨.error (.compile d), compilation.log⟩
  | .ok chunk =>
      let run := Machine.run chunk limits
      ⟨run.outcome.mapError .fault, compilation.log ++ run.log chunk limits⟩

end Abacus
