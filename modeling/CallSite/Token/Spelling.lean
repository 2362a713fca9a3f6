import CallSite.Number.Layout
import CallSite.Token

/-!
# Spelling — the source text of a token

Every token has a canonical spelling.  Texts stand between single quotes, with the quote, the
backslash, tabulators and line ends escaped and all else as it is.
-/

namespace CallSite

/-- One character of a text literal. -/
def literalChar (c : Char) : List Char :=
  if c = '\'' ∨ c = '\\' then ['\\', c]
  else if c = '\n' then ['\\', 'n']
  else if c = '\t' then ['\\', 't']
  else if c = '\r' then ['\\', 'r']
  else [c]

/-- A text as a literal between single quotes. -/
def literalText (cs : List Char) : List Char := '\'' :: cs.flatMap literalChar ++ ['\'']

/-- The canonical characters of a token. -/
def Token.chars : Token → List Char
  | .ident name => name.toList
  | .str text => literalText text.toList
  | .bytes text => 'b' :: literalText text.toList
  | .int value => (toString value).toList
  | .float value => value.literal.toList
  | .word w => w.chars
  | .mark m => m.chars
  | .eof => []

end CallSite
