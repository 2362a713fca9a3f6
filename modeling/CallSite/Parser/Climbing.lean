import CallSite.Node
import CallSite.Parser.Cursor

/-!
# Precedence climbing — operands and the operators between them

Operators are read from left to right.  The right operand of an operator takes in the operators
that bind tighter, so what is left over binds looser (or as tightly, and groups to the left).  A run
of comparisons becomes one chain.  How an operand is read is a parameter.
-/

namespace CallSite

/-- The binary operator that a token stands for. -/
def BinaryOp.ofToken? : Token → Option BinaryOp
  | .word .orWord => some .or
  | .word .andWord => some .and
  | .mark .equal => some .eq
  | .mark .notEqual => some .notEq
  | .mark .less => some .lt
  | .mark .lessEqual => some .ltEq
  | .mark .greater => some .gt
  | .mark .greaterEqual => some .gtEq
  | .mark .pipe => some .bitOr
  | .mark .caret => some .bitXor
  | .mark .ampersand => some .bitAnd
  | .mark .leftShift => some .shiftLeft
  | .mark .rightShift => some .shiftRight
  | .mark .plus => some .add
  | .mark .minus => some .sub
  | .mark .star => some .mul
  | .mark .atSign => some .matMul
  | .mark .slash => some .div
  | .mark .doubleSlash => some .floorDiv
  | .mark .percent => some .mod
  | .mark .doubleStar => some .pow
  | _ => none

/-- An operand and the comparisons behind it; without any it stands for itself. -/
def Node.chain (left : Node) (links : List (Link Node)) : Node :=
  if links.isEmpty then left else .compare left links

namespace Parser

variable {σ : Type} [HasCursor σ]

/-- Reads the operators of precedence at least `min` and their right operands, where `left` and the
    open chain `links` are read already.  Every round reads a token, so as many rounds as tokens
    are left suffice. -/
def climbWithin (operand : Nat → ParserOn σ Node) :
    (fuel min : Nat) → Node → List (Link Node) → ParserOn σ Node
  | 0, _, left, links => pure (left.chain links)
  | fuel + 1, min, left, links => do
    match BinaryOp.ofToken? (← peek) with
    | none => pure (left.chain links)
    | some op =>
      if op.precedence < min then pure (left.chain links)
      else
        advance
        let right ← operand op.rightPrecedence
        let right ← climbWithin operand fuel op.rightPrecedence right []
        if op.isComparison then climbWithin operand fuel min left (links ++ [⟨op, right⟩])
        else climbWithin operand fuel min (.binary (left.chain links) op right) []

/-- Reads an operand and the operators of precedence at least `min` behind it. -/
def climb (operand : Nat → ParserOn σ Node) (min : Nat) : ParserOn σ Node := do
  let left ← operand min
  climbWithin operand (← remaining) min left []

end Parser

end CallSite
