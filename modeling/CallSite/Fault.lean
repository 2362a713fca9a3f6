import CallSite.Text.Position
import CallSite.Token.Label

/-!
# Faults — why a source text is refused

A fault is a cause; its wording is in `Fault.message` alone.  A parse error is a fault at a
position.
-/

namespace CallSite

/-- What can be wrong with a source text. -/
inductive Fault where
  /-- No token begins with the character. -/
  | unexpectedChar (c : Char)
  /-- A formatted string. -/
  | formattedString
  /-- The line or the text ends before the closing quote. -/
  | unterminatedString
  /-- The text ends behind a backslash. -/
  | unterminatedEscape
  /-- A number whose exponent has no digits. -/
  | invalidNumber (digits : String)
  /-- A decimal integer above the range. -/
  | integerOutOfRange (digits : String)
  /-- An integer in another base with no digits, a wrong digit, or a value above the range. -/
  | invalidInteger (base : Nat) (digits : String)
  | expectedMark (wanted : Mark) (got : Token)
  | expectedIdentifier (got : Token)
  | expectedExpression (got : Token)
  /-- A `not` where an operand that binds tighter is wanted. -/
  | misplacedOperator (got : Token)
  /-- Something follows the complete expression. -/
  | trailing (got : Token)
  | lambda
  | slice
  | setDisplay
  | nestedTooDeeply
  /-- A starred item alone in parentheses. -/
  | loneStarred
  | positionalAfterKeyword
  | starredAfterDoubleStarred
  /-- An expression that is not a call, where a call is wanted. -/
  | expectedCall
  deriving DecidableEq, Repr

/-- The wording of a fault. -/
def Fault.message : Fault → String
  | .unexpectedChar c => "unexpected character " ++ quotedChar c
  | .formattedString => "f-strings are not supported"
  | .unterminatedString => "unterminated string literal"
  | .unterminatedEscape => "unterminated escape sequence"
  | .invalidNumber digits => "invalid number " ++ quotedText digits
  | .integerOutOfRange digits => "integer literal " ++ quotedText digits ++ " out of range"
  | .invalidInteger base digits =>
    "invalid base-" ++ toString base ++ " integer " ++ quotedText digits
  | .expectedMark wanted got => "expected " ++ wanted.label ++ ", got " ++ got.label
  | .expectedIdentifier got => "expected identifier, got " ++ got.label
  | .expectedExpression got => "expected an expression, got " ++ got.label
  | .misplacedOperator got => "unexpected " ++ got.label ++ " in operand position"
  | .trailing got => "unexpected " ++ got.label ++ " after expression"
  | .lambda => "lambda expressions are not supported"
  | .slice => "slice syntax is not supported"
  | .setDisplay => "set displays are not supported"
  | .nestedTooDeeply => "expression nested too deeply"
  | .loneStarred => "cannot use starred expression here"
  | .positionalAfterKeyword => "positional argument follows keyword argument"
  | .starredAfterDoubleStarred => "iterable argument unpacking follows keyword argument unpacking"
  | .expectedCall => "expected a call expression"

/-- A fault and the position that is blamed for it. -/
structure ParseError where
  fault : Fault
  pos : Position
  deriving DecidableEq, Repr

/-- The error as one line of text. -/
def ParseError.message (e : ParseError) : String :=
  "parse error at " ++ toString e.pos.line ++ ":" ++ toString e.pos.col ++ ": " ++ e.fault.message

end CallSite
