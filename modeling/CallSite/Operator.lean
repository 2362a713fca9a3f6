/-!
# Operators — the unary and binary operators and how tightly they bind

Precedences run from 1 for `or` up to 12 for the power.  Comparisons share one level and chain,
the power alone associates to the right, and `not` binds looser than a comparison.
-/

namespace CallSite

/-- The operators in front of an operand. -/
inductive UnaryOp where
  | neg | pos | invert | not
  deriving DecidableEq, Repr

namespace UnaryOp

/-- The written form; `not` needs a blank before its operand. -/
def symbol : UnaryOp → String
  | .neg => "-"
  | .pos => "+"
  | .invert => "~"
  | .not => "not "

/-- How tightly the operator binds. -/
def precedence : UnaryOp → Nat
  | .not => 3
  | .neg | .pos | .invert => 11

end UnaryOp

/-- The operators between two operands, loosest first. -/
inductive BinaryOp where
  | or | and
  | eq | notEq | lt | ltEq | gt | gtEq
  | bitOr | bitXor | bitAnd
  | shiftLeft | shiftRight
  | add | sub
  | mul | matMul | div | floorDiv | mod
  | pow
  deriving DecidableEq, Repr

namespace BinaryOp

/-- The written form. -/
def symbol : BinaryOp → String
  | .or => "or"
  | .and => "and"
  | .eq => "=="
  | .notEq => "!="
  | .lt => "<"
  | .ltEq => "<="
  | .gt => ">"
  | .gtEq => ">="
  | .bitOr => "|"
  | .bitXor => "^"
  | .bitAnd => "&"
  | .shiftLeft => "<<"
  | .shiftRight => ">>"
  | .add => "+"
  | .sub => "-"
  | .mul => "*"
  | .matMul => "@"
  | .div => "/"
  | .floorDiv => "//"
  | .mod => "%"
  | .pow => "**"

/-- How tightly the operator binds. -/
def precedence : BinaryOp → Nat
  | .or => 1
  | .and => 2
  | .eq | .notEq | .lt | .ltEq | .gt | .gtEq => 4
  | .bitOr => 5
  | .bitXor => 6
  | .bitAnd => 7
  | .shiftLeft | .shiftRight => 8
  | .add | .sub => 9
  | .mul | .matMul | .div | .floorDiv | .mod => 10
  | .pow => 12

/-- Only the power groups to the right. -/
def isRightAssoc : BinaryOp → Bool
  | .pow => true
  | _ => false

/-- The operators that form chains. -/
def isComparison : BinaryOp → Bool
  | .eq | .notEq | .lt | .ltEq | .gt | .gtEq => true
  | _ => false

/-- The least precedence of an operator inside the right operand: the operator's own level belongs
    to it only when grouping goes to the right. -/
def rightPrecedence (op : BinaryOp) : Nat :=
  if op.isRightAssoc then op.precedence else op.precedence + 1

end BinaryOp

end CallSite
