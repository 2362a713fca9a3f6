import CallSite.Parser.Operand
import CallSite.Token.Stream

/-!
# Reading source text — from characters to syntax trees

Operands nest at most `maxNesting` deep.  The depth that is left is what the parser recurs on, so it
ends on every list of tokens.
-/

namespace CallSite

/-- How deep operands may be nested. -/
def maxNesting : Nat := 100

namespace Parser

/-- Reads an operand that may hold `depth` levels of operands, itself included. -/
def operand : (depth : Nat) → Nat → Parser Node
  | 0, _ => fail .nestedTooDeeply
  | depth + 1, min => unary (climb (operand depth)) min

/-- Reads an expression whose operands nest at most `depth` deep, and leaves what follows it. -/
def nodeWithin (depth : Nat) : Parser Node := expression (climb (operand depth))

/-- Reads an expression that has to be the last thing in the text. -/
def whole {σ : Type} [HasCursor σ] (expr : ParserOn σ Node) : ParserOn σ Node := do
  let read ← expr
  let token ← peek
  if token = .eof then return read else fail (.trailing token)

/-- Reads an expression whose operands nest at most `depth` deep, and which has to be the last thing
    in the text. -/
def completeWithin (depth : Nat) : Parser Node := whole (nodeWithin depth)

/-- Reads an expression and leaves what follows it. -/
def node : Parser Node := nodeWithin maxNesting

/-- Reads an expression that has to be the last thing in the text. -/
def complete : Parser Node := completeWithin maxNesting

end Parser

/-- The value of a parser on a list of tokens. -/
def Parser.onTokens {α : Type} (p : Parser α) (tokens : List (Located Token)) :
    Except ParseError α :=
  match p (.ofTokens tokens) with
  | .ok a _ => .ok a
  | .error e _ => .error e

/-- The tree of a source text that is one expression. -/
def Node.ofSource (source : String) : Except ParseError Node :=
  tokenize source >>= Parser.complete.onTokens

/-- The call that a source text is. -/
def Call.ofSource (source : String) : Except ParseError (Call Node) :=
  match Node.ofSource source with
  | .ok (.call call) => .ok call
  | .ok _ => .error ⟨.expectedCall, .start⟩
  | .error e => .error e

end CallSite
