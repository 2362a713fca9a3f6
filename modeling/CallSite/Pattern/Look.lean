import CallSite.Pattern.CharSet

/-!
# Looks — conditions on a place in a text

A place lies between two characters, or at an end of the text.  Whether a condition holds there
depends on the characters at its two sides alone.
-/

namespace CallSite

/-- A condition on a place in a text. -/
inductive Look where
  | textStart
  | textEnd
  /-- The start of a line, where lines end with a line feed. -/
  | lineStart
  | lineEnd
  /-- The start of a line, where lines end with a carriage return, a line feed, or both. -/
  | anyLineStart
  | anyLineEnd
  /-- Between a word character and something else. -/
  | wordEdge
  | noWordEdge
  | wordStart
  | wordEnd
  /-- Not behind a word character. -/
  | wordStartHalf
  /-- Not in front of a word character. -/
  | wordEndHalf
  deriving DecidableEq, Repr

/-- Whether there is a character, and one that words are made of. -/
def isWordChar : Option Char → Bool
  | some c => CharSet.wordChars.contains c
  | none => false

/-- Whether the condition holds between two characters; none stands for an end of the text. -/
def Look.holds (look : Look) (before after : Option Char) : Bool :=
  let wordBefore := isWordChar before
  let wordAfter := isWordChar after
  match look with
  | .textStart => before.isNone
  | .textEnd => after.isNone
  | .lineStart => before.isNone || before == some '\n'
  | .lineEnd => after.isNone || after == some '\n'
  | .anyLineStart =>
    before.isNone || before == some '\n' || (before == some '\r' && after != some '\n')
  | .anyLineEnd =>
    after.isNone || after == some '\r' || (after == some '\n' && before != some '\r')
  | .wordEdge => wordBefore != wordAfter
  | .noWordEdge => wordBefore == wordAfter
  | .wordStart => !wordBefore && wordAfter
  | .wordEnd => wordBefore && !wordAfter
  | .wordStartHalf => !wordBefore
  | .wordEndHalf => !wordAfter

end CallSite
