import CallSite.Text.Alphabetic
import CallSite.Text.Blank
import CallSite.Text.Numeric
import CallSite.Token.Numeral
import CallSite.Token.Quoted

/-!
# Lexemes — what stands at the head of a text

A lexeme is a piece of gap (a blank, an escaped line end, a comment) or a token.  `Lexeme.ofText`
cuts off the lexeme at the head of a text, or says what is wrong with the text and how far in.
-/

namespace CallSite

/-- A piece of text: a token, or a piece of the gap between tokens, and its length. -/
structure Lexeme where
  token? : Option Token
  size : Nat
  deriving DecidableEq, Repr

/-- A fault, and how many characters in front of the place that is blamed were in order. -/
structure Refusal where
  fault : Fault
  offset : Nat
  deriving DecidableEq, Repr

/-- A character that may open a word. -/
def opensWord (c : Char) : Bool := isAlphabetic c || c == '_'

/-- A character that may stand inside a word. -/
def continuesWord (c : Char) : Bool := isAlphabetic c || isNumeric c || c == '_'

/-- The name or reserved word with these characters. -/
def wordToken (cs : List Char) : Token :=
  match ReservedWord.ofChars? cs with
  | some w => .word w
  | none => .ident (String.ofList cs)

/-- Whether a number stands at the head of a text: a digit, or a point and a digit. -/
def opensNumber : List Char → Bool
  | '.' :: c :: _ => c.isDigit
  | c :: _ => c.isDigit
  | [] => false

/-- The length of the piece of gap at the head of a text; zero when there is none. -/
def gapSize : List Char → Nat
  | '\\' :: '\n' :: _ => 2
  | '#' :: cs => (cs.takeWhile (· != '\n')).length + 1
  | c :: _ => if isBlank c then 1 else 0
  | [] => 0

namespace Lexeme

/-- The literal at the head of a text, behind its opening.  An unfinished literal is blamed on its
    quote, an unfinished escape on the end of the text. -/
def quoted (opening : LiteralOpening) (cs : List Char) : Except Refusal Lexeme :=
  if opening.kind.formatted then .error ⟨.formattedString, 0⟩
  else
    match quotedBody opening.kind.raw opening.quote (cs.drop (opening.letters + 1)) with
    | .error .unterminatedEscape => .error ⟨.unterminatedEscape, cs.length⟩
    | .error fault => .error ⟨fault, opening.letters⟩
    | .ok (text, size) =>
      let text := String.ofList text
      let token := if opening.kind.bytes then .bytes text else .str text
      .ok ⟨some token, opening.letters + 1 + size⟩

/-- The token at the head of a text that begins with `c` and with no gap. -/
def tokenAt (c : Char) (cs : List Char) : Except Refusal Lexeme :=
  match LiteralOpening.ofText? (c :: cs) with
  | some opening => quoted opening (c :: cs)
  | none =>
    if opensNumber (c :: cs) then
      match numberAt (c :: cs) with
      | .error fault => .error ⟨fault, 0⟩
      | .ok (token, size) => .ok ⟨some token, size⟩
    else if opensWord c then
      let word := c :: cs.takeWhile continuesWord
      .ok ⟨some (wordToken word), word.length⟩
    else
      match Mark.ofText? (c :: cs) with
      | some m => .ok ⟨some (.mark m), m.chars.length⟩
      | none => .error ⟨.unexpectedChar c, 0⟩

/-- The lexeme at the head of a text that begins with `c`. -/
def ofText (c : Char) (cs : List Char) : Except Refusal Lexeme :=
  match gapSize (c :: cs) with
  | 0 => tokenAt c cs
  | size + 1 => .ok ⟨none, size + 1⟩

end Lexeme

end CallSite
