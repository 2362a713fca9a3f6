import CallSite.Number.Decimal
import CallSite.Pattern.Draft
import CallSite.Pattern.Reading

/-!
# Symbols — single characters and what a backslash makes of them

A character stands for itself, except behind a backslash: there a letter names a character, a set or
a condition, and any other ASCII character stands for itself.  The sets and the words of all of
Unicode are not supported, and a pattern with them is refused; where the flag for Unicode is off,
those of ASCII serve.
-/

namespace CallSite.Pattern

/-- What a character or an escape stands for. -/
inductive Symbol where
  | char (c : Char)
  | set (set : CharSet)
  /-- A condition on a place. -/
  | condition (draft : Draft)
  deriving DecidableEq, Repr

namespace Reading

/-- A condition on the words at a place. -/
def wordLook (look : Look) : Reading Draft := do
  if ← isOn .unicode then return .wideLook else return .ofLook look

/-- A set of ASCII characters, which stands for more where the flag for Unicode is on. -/
def asciiSet (set : CharSet) : Reading CharSet := do
  if ← isOn .unicode then refuse else return set

/-! ## Characters by their code points -/

/-- A digit in base 16. -/
def isHexDigit (c : Char) : Bool :=
  c.isDigit || ('a' ≤ c && c ≤ 'f') || ('A' ≤ c && c ≤ 'F')

/-- Reads a number of digits in base 16, each of them behind a gap. -/
def hexDigits : Nat → Reading (List Char)
  | 0 => pure []
  | n + 1 => do
    gap
    let c ← next
    if isHexDigit c then return c :: (← hexDigits n) else refuse

/-- Reads the digits between braces, of which the first is read. -/
def bracedDigits : Reading (List Char) := do
  gap
  let digits ← chars isHexDigit
  expect "\x7d"
  if digits.isEmpty then refuse else return digits

/-- Reads a code point: `size` digits, or any number of them between braces.  A code point of two
    digits is a byte where the flag for Unicode is off, and only those of ASCII are characters. -/
def codePoint (size : Nat) : Reading Char := do
  gap
  let braced ← eat "\x7b"
  let digits ← if braced then bracedDigits else hexDigits size
  let value := valueOfChars 16 digits
  let isByte := !braced && size == 2 && !(← isOn .unicode)
  if value.isValidChar ∧ ¬ (isByte ∧ 0x80 ≤ value) then return Char.ofNat value else refuse

/-! ## Words -/

/-- The condition that a name between braces stands for. -/
def namedLook? (name : String) : Option Look :=
  match name with
  | "start" => some .wordStart
  | "end" => some .wordEnd
  | "start-half" => some .wordStartHalf
  | "end-half" => some .wordEndHalf
  | _ => none

/-- Reads what may follow the letter for an edge of a word: a name between braces.  Braces around
    anything else are a repetition, which stays unread. -/
def wordEdge : Reading Draft := do
  let before ← rest
  if ← eat "\x7b" then
    gap
    let name ← chars fun c => c.isAlpha || c == '-'
    if name.isEmpty && !(← rest).isEmpty then
      moveTo before
      wordLook .wordEdge
    else
      expect "\x7d"
      wordLook (← demand (namedLook? (String.ofList name)))
  else wordLook .wordEdge

/-! ## Symbols -/

/-- Reads what follows a backslash. -/
def escape : Reading Symbol := do
  match ← next with
  | 'a' => return .char '\x07'
  | 'f' => return .char '\x0c'
  | 'n' => return .char '\n'
  | 'r' => return .char '\r'
  | 't' => return .char '\t'
  | 'v' => return .char '\x0b'
  | 'x' => return .char (← codePoint 2)
  | 'u' => return .char (← codePoint 4)
  | 'U' => return .char (← codePoint 8)
  | 'd' => return .set (← asciiSet .digits)
  | 's' => return .set (← asciiSet .spaces)
  | 'w' => return .set (← asciiSet .wordChars)
  | 'A' => return .condition (.ofLook .textStart)
  | 'z' => return .condition (.ofLook .textEnd)
  | 'b' => return .condition (← wordEdge)
  | 'B' => return .condition (← wordLook .noWordEdge)
  | '<' => return .condition (← wordLook .wordStart)
  | '>' => return .condition (← wordLook .wordEnd)
  | c => if c.toNat < 0x80 ∧ ¬ c.isAlphanum then return .char c else refuse

/-- Reads a character or an escape. -/
def symbol : Reading Symbol := do
  if ← eat "\\" then escape else return .char (← next)

end Reading

end CallSite.Pattern
