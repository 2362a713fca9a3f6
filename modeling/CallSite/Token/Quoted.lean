import CallSite.Fault

/-!
# Quoted literals — text and bytes between quotes

A literal is opened by up to two letters and a quote.  The letters tell whether it is raw, whether
it holds bytes and whether it is formatted; their case does not matter.  The body runs up to the
next quote of the same kind that no backslash protects.  Raw and plain bodies end at the same
place, because a backslash always takes the following character with it: only what the pair stands
for differs (`pairText`).
-/

namespace CallSite

/-- What the letters in front of a quote say. -/
structure LiteralKind where
  raw : Bool
  bytes : Bool
  formatted : Bool
  deriving DecidableEq, Repr

/-- The kind that small letters announce. -/
def LiteralKind.ofLetters? : List Char → Option LiteralKind
  | [] | ['u'] => some ⟨false, false, false⟩
  | ['r'] => some ⟨true, false, false⟩
  | ['b'] => some ⟨false, true, false⟩
  | ['r', 'b'] | ['b', 'r'] => some ⟨true, true, false⟩
  | ['f'] => some ⟨false, false, true⟩
  | ['r', 'f'] | ['f', 'r'] => some ⟨true, false, true⟩
  | _ => none

/-- Both quotes open a literal. -/
def isQuote (c : Char) : Bool := c == '\'' || c == '"'

/-- How a literal begins. -/
structure LiteralOpening where
  kind : LiteralKind
  /-- How many letters stand in front of the quote. -/
  letters : Nat
  quote : Char
  deriving DecidableEq, Repr

/-- The opening of a literal with this many letters at the head of a text. -/
def LiteralOpening.withLetters? (cs : List Char) (letters : Nat) : Option LiteralOpening :=
  match cs.drop letters with
  | [] => none
  | quote :: _ =>
    if isQuote quote then
      (LiteralKind.ofLetters? ((cs.take letters).map Char.toLower)).map (⟨·, letters, quote⟩)
    else none

/-- The opening of a literal at the head of a text. -/
def LiteralOpening.ofText? (cs : List Char) : Option LiteralOpening :=
  [2, 1, 0].findSome? (withLetters? cs)

/-- What a backslash and the character behind it stand for.  A raw literal keeps both; in a plain
    one an escaped line end vanishes, and a pair without a meaning is kept. -/
def pairText (raw : Bool) (c : Char) : List Char :=
  if raw then ['\\', c]
  else if c = 'n' then ['\n']
  else if c = 't' then ['\t']
  else if c = 'r' then ['\r']
  else if c = '0' then ['\x00']
  else if c = '\\' ∨ c = '\'' ∨ c = '"' then [c]
  else if c = '\n' then []
  else ['\\', c]

/-- Reads a body up to its closing quote: the text it stands for, and how many characters were
    read, the quote included. -/
def quotedBody (raw : Bool) (quote : Char) : List Char → Except Fault (List Char × Nat)
  | [] => .error .unterminatedString
  | ['\\'] => .error .unterminatedEscape
  | '\\' :: c :: cs =>
    (quotedBody raw quote cs).map fun (text, size) => (pairText raw c ++ text, size + 2)
  | c :: cs =>
    if c = '\n' then .error .unterminatedString
    else if c = quote then .ok ([], 1)
    else (quotedBody raw quote cs).map fun (text, size) => (c :: text, size + 1)

end CallSite
