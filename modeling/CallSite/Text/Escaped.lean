import CallSite.Text.Extending
import CallSite.Text.Printable

/-!
# Escaped text — how messages quote what they were given

A message shows a foreign text between quotes, with everything escaped that would not show as
itself: the enclosing quote, backslashes, line ends, combining characters wherever they stand, and
characters that are not printable.
-/

namespace CallSite

/-- The escape that names the code point of `c`. -/
def codePointEscape (c : Char) : List Char :=
  '\\' :: 'u' :: '\x7b' :: Nat.toDigits 16 c.toNat ++ ['\x7d']

/-- One character of a text quoted by `quote`. -/
def escapedChar (quote c : Char) : List Char :=
  if c = '\x00' then ['\\', '0']
  else if c = '\t' then ['\\', 't']
  else if c = '\r' then ['\\', 'r']
  else if c = '\n' then ['\\', 'n']
  else if c = '\\' ∨ c = quote then ['\\', c]
  else if isExtending c ∨ ¬ isPrintable c then codePointEscape c
  else [c]

/-- A text between two `quote`s. -/
def escaped (quote : Char) (cs : List Char) : String :=
  String.ofList (quote :: cs.flatMap (escapedChar quote) ++ [quote])

/-- A text between double quotes. -/
def quotedText (s : String) : String := escaped '"' s.toList

/-- A character between single quotes. -/
def quotedChar (c : Char) : String := escaped '\'' [c]

end CallSite
