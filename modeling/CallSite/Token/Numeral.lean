import CallSite.Number.Decimal
import CallSite.Fault

/-!
# Numerals — the written numbers

A decimal numeral is a run of digits, then possibly a fraction and an exponent; with either it is a
floating-point number, else an integer.  Underscores may stand anywhere in a run and mean nothing.
Integers in base 16, 8 or 2 are announced by a zero and a letter.  An integer is exact or refused:
none is above `largestInt`.
-/

namespace CallSite

/-- The largest integer that a literal may denote. -/
def largestInt : Nat := 9223372036854775807

/-- The digits at the head of a text, with the underscores between them. -/
def digitRun (cs : List Char) : List Char := cs.takeWhile fun c => c.isDigit || c == '_'

/-- The fraction at the head of a text: a point and digits.  Three points are a mark instead. -/
def fractionPart : List Char → List Char
  | '.' :: '.' :: '.' :: _ => []
  | '.' :: cs => '.' :: digitRun cs
  | _ => []

/-- The sign at the head of a text. -/
def signPart : List Char → List Char
  | '+' :: _ => ['+']
  | '-' :: _ => ['-']
  | _ => []

/-- The exponent at the head of a text: its letter, a sign, and digits, which may be missing. -/
def exponentPart : List Char → List Char
  | [] => []
  | c :: cs =>
    if c = 'e' ∨ c = 'E' then
      let sign := signPart cs
      c :: sign ++ digitRun (cs.drop sign.length)
    else []

/-- A text without its underscores. -/
def withoutUnderscores (cs : List Char) : List Char := cs.filter (· != '_')

/-- A decimal numeral, cut into its parts. -/
structure Numeral where
  whole : List Char
  /-- The point and the digits behind it, or nothing. -/
  fraction : List Char
  /-- The letter, the sign and the digits behind it, or nothing. -/
  exponent : List Char
  deriving DecidableEq, Repr

namespace Numeral

/-- The numeral at the head of a text. -/
def ofText (cs : List Char) : Numeral :=
  let whole := digitRun cs
  let fraction := fractionPart (cs.drop whole.length)
  let exponent := exponentPart (cs.drop (whole.length + fraction.length))
  ⟨whole, fraction, exponent⟩

/-- The characters of the numeral. -/
def chars (n : Numeral) : List Char := n.whole ++ n.fraction ++ n.exponent

/-- The digits behind the sign of the exponent. -/
def exponentDigits (n : Numeral) : List Char :=
  withoutUnderscores (n.exponent.drop (1 + (signPart n.exponent.tail).length))

/-- The power of ten that the exponent asks for. -/
def power (n : Numeral) : Int :=
  let size : Int := valueOfChars 10 n.exponentDigits
  if signPart n.exponent.tail = ['-'] then -size else size

/-- The number that the numeral denotes, its digits taken without the point. -/
def decimal (n : Numeral) : Decimal :=
  let places := withoutUnderscores n.fraction.tail
  ⟨valueOfChars 10 (withoutUnderscores n.whole ++ places), n.power - places.length⟩

/-- The token of the numeral: an integer when there is neither fraction nor exponent. -/
def token (n : Numeral) : Except Fault Token :=
  let digits := withoutUnderscores n.chars
  if n.fraction.isEmpty && n.exponent.isEmpty then
    let value := valueOfChars 10 digits
    if value ≤ largestInt then .ok (.int value)
    else .error (.integerOutOfRange (String.ofList digits))
  else if !n.exponent.isEmpty && n.exponentDigits.isEmpty then
    .error (.invalidNumber (String.ofList digits))
  else .ok (.float (Binary64.ofDecimal false n.decimal))

end Numeral

/-- The base that a letter behind a zero announces. -/
def baseOf? (c : Char) : Option Nat :=
  if c = 'x' ∨ c = 'X' then some 16
  else if c = 'o' ∨ c = 'O' then some 8
  else if c = 'b' ∨ c = 'B' then some 2
  else none

/-- The letters and digits at the head of a text, with the underscores between them. -/
def basedRun (cs : List Char) : List Char := cs.takeWhile fun c => c.isAlphanum || c == '_'

/-- The integer that digits denote in a base. -/
def basedToken (base : Nat) (run : List Char) : Except Fault Token :=
  let digits := withoutUnderscores run
  let value := valueOfChars base digits
  if !digits.isEmpty && digits.all (digitValue · < base) && value ≤ largestInt then
    .ok (.int value)
  else .error (.invalidInteger base (String.ofList digits))

/-- The number at the head of a text, and its length. -/
def numberAt (cs : List Char) : Except Fault (Token × Nat) :=
  let decimal : Except Fault (Token × Nat) :=
    let n := Numeral.ofText cs
    n.token.map (·, n.chars.length)
  match cs with
  | '0' :: letter :: rest =>
    match baseOf? letter with
    | some base =>
      let run := basedRun rest
      (basedToken base run).map (·, run.length + 2)
    | none => decimal
  | _ => decimal

end CallSite
