import Abacus.Compiler

/-!
# Sample expressions

Expressions of any length for measuring.  The operators take turns, every fifth
operand is a group and every fifth a negation, and the numbers run through
`1` to `199`, so that a chunk which shares its constants holds them all.
-/

namespace Abacus.Sample

/-- The compiler that sample expressions are meant for. -/
def options : Compiler.Options := { shareConstants := true }

/-- The operator before the operand at a place, with the spaces around it. -/
def operatorText (i : Nat) : String :=
  if i = 0 then ""
  else match i % 4 with
    | 0 => " + "
    | 1 => " - "
    | 2 => " * "
    | _ => " / "

/-- The operand at a place. -/
def operandText (i : Nat) : String :=
  let n := i * 7 % 199 + 1
  match i % 5 with
  | 0 => "(" ++ Nat.repr n ++ " + " ++ Nat.repr (n % 13 + 1) ++ ")"
  | 1 => "-" ++ Nat.repr n
  | _ => Nat.repr n

/-- The sample expression with the given number of operands. -/
def expression (terms : Nat) : String :=
  String.join ((List.range terms).map fun i => operatorText i ++ operandText i)

end Abacus.Sample
