import CallSite.Number.Layout
import CallSite.Text.Escaped
import CallSite.Token

/-!
# Labels — how messages name a token

Names and literals show what they hold; every other token has a fixed label.
-/

namespace CallSite

/-- The label of a reserved word. -/
def ReservedWord.label : ReservedWord → String
  | .trueWord => "True"
  | .falseWord => "False"
  | .noneWord => "None"
  | .notWord => "Not"
  | .andWord => "And"
  | .orWord => "Or"
  | .lambdaWord => "Lambda"

/-- The label of a mark. -/
def Mark.label : Mark → String
  | .leftParen => "LParen"
  | .rightParen => "RParen"
  | .leftBracket => "LBracket"
  | .rightBracket => "RBracket"
  | .leftBrace => "LBrace"
  | .rightBrace => "RBrace"
  | .comma => "Comma"
  | .dot => "Dot"
  | .colon => "Colon"
  | .assign => "Assign"
  | .ellipsis => "Ellipsis"
  | .star => "Star"
  | .doubleStar => "DoubleStar"
  | .plus => "Plus"
  | .minus => "Minus"
  | .slash => "Slash"
  | .doubleSlash => "DoubleSlash"
  | .percent => "Percent"
  | .atSign => "At"
  | .pipe => "Pipe"
  | .ampersand => "Amp"
  | .caret => "Caret"
  | .tilde => "Tilde"
  | .leftShift => "LShift"
  | .rightShift => "RShift"
  | .equal => "EqEq"
  | .notEqual => "NotEq"
  | .less => "Lt"
  | .lessEqual => "LtE"
  | .greater => "Gt"
  | .greaterEqual => "GtE"

/-- The label of a token. -/
def Token.label : Token → String
  | .ident name => "Ident(" ++ quotedText name ++ ")"
  | .str text => "Str(" ++ quotedText text ++ ")"
  | .bytes text => "Bytes(" ++ quotedText text ++ ")"
  | .int value => "Int(" ++ toString value ++ ")"
  | .float value => "Float(" ++ value.compact ++ ")"
  | .word w => w.label
  | .mark m => m.label
  | .eof => "Eof"

end CallSite
