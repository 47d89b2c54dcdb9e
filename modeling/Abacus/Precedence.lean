import Abacus.Opcode
import Abacus.Token.Basic

/-!
# Precedence

How tokens take part in expressions.  A token may open an operand: a number, a
parenthesis, or a minus sign.  A token may also stand between two operands, as
one of the four operators.  A minus sign does both.

Operators bind by levels.  The ladder has more levels than the operators use; a
right operand is read one level above its operator, which makes operators of
one level associate to the left.
-/

namespace Abacus

/-- A level of binding, from the loosest to the tightest. -/
inductive Precedence where
  | none | assignment | or | and | equality | comparison | term | factor | unary | call | primary
  deriving DecidableEq, Repr

namespace Precedence

/-- The place of a level on the ladder. -/
def rank : Precedence → Nat
  | .none => 0
  | .assignment => 1
  | .or => 2
  | .and => 3
  | .equality => 4
  | .comparison => 5
  | .term => 6
  | .factor => 7
  | .unary => 8
  | .call => 9
  | .primary => 10

instance : LE Precedence := ⟨fun a b => a.rank ≤ b.rank⟩

instance (a b : Precedence) : Decidable (a ≤ b) := inferInstanceAs (Decidable (a.rank ≤ b.rank))

/-- The next tighter level; there is none above the tightest. -/
def next : Precedence → Precedence
  | .none => .assignment
  | .assignment => .or
  | .or => .and
  | .and => .equality
  | .equality => .comparison
  | .comparison => .term
  | .term => .factor
  | .factor => .unary
  | .unary => .call
  | .call => .primary
  | .primary => .primary

end Precedence

/-- The level of an operator. -/
def Operator.precedence : Operator → Precedence
  | .add => .term
  | .subtract => .term
  | .multiply => .factor
  | .divide => .factor

/-- How an operand begins. -/
inductive Opening where
  | number | group | negation
  deriving DecidableEq, Repr

namespace Token.Kind

/-- The operand that a token opens. -/
def opening? : Kind → Option Opening
  | .number => some .number
  | .leftParen => some .group
  | .minus => some .negation
  | _ => none

/-- The operator that a token is between two operands. -/
def operator? : Kind → Option Operator
  | .plus => some .add
  | .minus => some .subtract
  | .star => some .multiply
  | .slash => some .divide
  | _ => none

/-- The level at which a token joins two operands. -/
def precedence (k : Kind) : Precedence :=
  match k.operator? with
  | some o => o.precedence
  | none => .none

end Token.Kind

end Abacus
