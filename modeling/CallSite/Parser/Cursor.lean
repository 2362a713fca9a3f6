import CallSite.Fault

/-!
# Cursors — reading a list of tokens

A parser reads tokens from a cursor and leaves it behind what it has read, also when it fails.
Behind the last token every further token is the end of the text.  The few primitives here are the
only functions that look into the cursor, and what else a state holds beside it is left open: the
parsers built from them run on every type of states with a cursor.
-/

namespace CallSite

/-- A place in a list of tokens. -/
structure Cursor where
  /-- The tokens that are still to be read. -/
  rest : List (Located Token)
  /-- The position that is reported when no token is left. -/
  last : Position
  deriving DecidableEq, Repr

namespace Cursor

/-- The start of a list of tokens, which ends where its last token stands. -/
def ofTokens (tokens : List (Located Token)) : Cursor :=
  ⟨tokens, match tokens.getLast? with
    | some token => token.pos
    | none => .start⟩

/-- The next token. -/
def token (c : Cursor) : Token :=
  match c.rest with
  | [] => .eof
  | t :: _ => t.value

/-- The position of the next token. -/
def pos (c : Cursor) : Position :=
  match c.rest with
  | [] => c.last
  | t :: _ => t.pos

/-- The name of a keyword argument, when a name and an equals sign come next. -/
def keyword? (c : Cursor) : Option String :=
  match c.rest with
  | ⟨.ident name, _⟩ :: ⟨.mark .assign, _⟩ :: _ => some name
  | _ => none

end Cursor

/-- The states in which there is a cursor. -/
class HasCursor (σ : Type) where
  /-- The cursor of a state. -/
  cursor : σ → Cursor
  /-- The state with its cursor at another place. -/
  moveTo : σ → Cursor → σ

instance : HasCursor Cursor := ⟨fun c => c, fun _ c => c⟩

@[simp] theorem Cursor.cursor_self (c : Cursor) : HasCursor.cursor c = c := rfl

@[simp] theorem Cursor.moveTo_self (c d : Cursor) : HasCursor.moveTo c d = d := rfl

/-- A reader of tokens, which fails with an error or gives a value. -/
abbrev ParserOn (σ α : Type) := EStateM ParseError σ α

/-- A reader of tokens whose state is its cursor. -/
abbrev Parser := ParserOn Cursor

namespace Parser

open HasCursor

variable {σ : Type} [HasCursor σ]

/-- The next token, which stays unread. -/
def peek : ParserOn σ Token := fun s => .ok (cursor s).token s

/-- How many tokens are left. -/
def remaining : ParserOn σ Nat := fun s => .ok (cursor s).rest.length s

/-- The name of a keyword argument, when a name and an equals sign come next. -/
def keyword? : ParserOn σ (Option String) := fun s => .ok (cursor s).keyword? s

/-- Leaves the next token behind. -/
def advance : ParserOn σ Unit :=
  fun s => .ok () (moveTo s ⟨(cursor s).rest.tail, (cursor s).last⟩)

/-- Blames the next token. -/
def fail {α : Type} (fault : Fault) : ParserOn σ α := fun s => .error ⟨fault, (cursor s).pos⟩ s

/-- Reads a mark if it comes next, and tells whether it did. -/
def eat (m : Mark) : ParserOn σ Bool := do
  if (← peek) = .mark m then
    advance
    pure true
  else pure false

/-- Reads a mark that has to come next. -/
def expect (m : Mark) : ParserOn σ Unit := do
  let token ← peek
  if token = .mark m then advance else fail (.expectedMark m token)

/-- Reads a name that has to come next. -/
def identifier : ParserOn σ String := do
  match ← peek with
  | .ident name =>
    advance
    pure name
  | token => fail (.expectedIdentifier token)

/-- The texts at the head of a list of tokens, joined, and the tokens behind them. -/
def joinTexts : List (Located Token) → String × List (Located Token)
  | ⟨.str text, _⟩ :: rest =>
    let (more, rest) := joinTexts rest
    (text ++ more, rest)
  | rest => ("", rest)

/-- Reads all texts that come next as one. -/
def texts : ParserOn σ String := fun s =>
  let (text, rest) := joinTexts (cursor s).rest
  .ok text (moveTo s ⟨rest, (cursor s).last⟩)

/-- Reads items up to a closing mark, which stays unread; commas stand between them and may stand
    behind the last.  Every round reads a token, so `fuel` rounds suffice when fewer tokens are
    left. -/
def itemsWithin {α : Type} (close : Mark) (item : α → ParserOn σ α) :
    (fuel : Nat) → α → ParserOn σ α
  | 0, a => pure a
  | fuel + 1, a => do
    if (← peek) = .mark close then pure a
    else
      let a ← item a
      if ← eat .comma then itemsWithin close item fuel a else pure a

/-- Reads items up to a closing mark, starting from what was read before. -/
def items {α : Type} (close : Mark) (item : α → ParserOn σ α) (a : α) : ParserOn σ α := do
  itemsWithin close item ((← remaining) + 1) a

end Parser

end CallSite
