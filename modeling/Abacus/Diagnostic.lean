import Abacus.Token.Basic

/-!
# Diagnostics

What is wrong with a source text, and at which token.
-/

namespace Abacus

/-- What can be wrong with an expression. -/
inductive Problem where
  /-- A stretch of text that is no token. -/
  | lexical (message : String)
  /-- A token that cannot open an operand stands where one is needed. -/
  | expectedExpression
  /-- A parenthesis is not closed. -/
  | expectedClosing
  /-- The text goes on behind the expression. -/
  | expectedEnd
  | tooManyConstants
  | invalidNumber
  | nestingTooDeep
  deriving DecidableEq, Repr

/-- What is said of a problem. -/
def Problem.message : Problem → String
  | .lexical message => message
  | .expectedExpression => "Expect expression."
  | .expectedClosing => "Expect ')' after expression."
  | .expectedEnd => "Expect end of expression."
  | .tooManyConstants => "Too many constants in one chunk."
  | .invalidNumber => "Invalid number literal."
  | .nestingTooDeep => "Expression nests too deeply."

/-- What a diagnostic points to. -/
inductive Location where
  | token (lexeme : String)
  | atEnd
  /-- Nothing: the message of a lexical error says it all. -/
  | lexical
  deriving DecidableEq, Repr

/-- A problem at a place. -/
structure Diagnostic where
  line : UInt32
  location : Location
  problem : Problem
  deriving DecidableEq, Repr

namespace Diagnostic

/-- A problem with a token. -/
def ofToken (t : Token) (problem : Problem) : Diagnostic where
  line := t.line
  location := match t.kind with
    | .eof => .atEnd
    | .error => .lexical
    | _ => .token t.lexeme
  problem := problem

/-- A diagnostic as it is shown. -/
def text (d : Diagnostic) : String :=
  let place := match d.location with
    | .token lexeme => " at '" ++ lexeme ++ "'"
    | .atEnd => " at end"
    | .lexical => ""
  "[line " ++ Nat.repr d.line.toNat ++ "] Error" ++ place ++ ": " ++ d.problem.message

end Diagnostic

end Abacus
