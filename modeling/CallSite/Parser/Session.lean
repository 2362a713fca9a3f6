import CallSite.Parser.Source

/-!
# Sessions — a parser that is asked again and again

A session keeps a list of tokens, how many of them are read, and how many operands are open.  It is
asked for one expression after another and goes on where it stopped, also behind an error.  It reads
with the functions that read from a cursor; only its operands are counted while they are read, where
those of a cursor are bounded beforehand.
-/

namespace CallSite

/-- A parser between two questions, or in the middle of one. -/
structure Session where
  tokens : List (Located Token)
  /-- How many tokens are read. -/
  read : Nat
  /-- How many operands are open. -/
  depth : Nat
  deriving DecidableEq, Repr

/-- What a session is asked for. -/
inductive Question where
  /-- An expression, whatever follows it. -/
  | node
  /-- An expression that is the last thing in the text. -/
  | complete
  deriving DecidableEq, Repr

namespace Session

/-- A session at the start of a list of tokens. -/
def ofTokens (tokens : List (Located Token)) : Session := ⟨tokens, 0, 0⟩

/-- The place that a session has come to. -/
def cursor (s : Session) : Cursor := ⟨s.tokens.drop s.read, (Cursor.ofTokens s.tokens).last⟩

instance : HasCursor Session :=
  ⟨cursor, fun s c => ⟨s.tokens, s.tokens.length - c.rest.length, s.depth⟩⟩

/-- Reads with one more operand open, and closes it again however the reading ends. -/
def nested {α : Type} (p : ParserOn Session α) : ParserOn Session α := fun s =>
  match p ⟨s.tokens, s.read, s.depth + 1⟩ with
  | .ok a s => .ok a ⟨s.tokens, s.read, s.depth - 1⟩
  | .error e s => .error e ⟨s.tokens, s.read, s.depth - 1⟩

/-- Reads an operand when fewer than `maxNesting` are open.  No more of them can be opened than are
    missing, so as many rounds suffice. -/
def operand : (fuel : Nat) → Nat → ParserOn Session Node
  | 0, _ => Parser.fail .nestedTooDeeply
  | fuel + 1, min => do
    if maxNesting ≤ (← get).depth then Parser.fail .nestedTooDeeply
    else nested (Parser.unary (Parser.climb (operand fuel)) min)

/-- Reads an expression and leaves what follows it. -/
def node : ParserOn Session Node := Parser.expression (Parser.climb (operand maxNesting))

/-- Reads an expression that has to be the last thing in the text. -/
def complete : ParserOn Session Node := Parser.whole node

/-- Reads what is asked for. -/
def ask : Question → ParserOn Session Node
  | .node => node
  | .complete => complete

/-- The tree that the answer to a question is, or the error. -/
def answer (s : Session) (q : Question) : Except ParseError Node :=
  match ask q s with
  | .ok t _ => .ok t
  | .error e _ => .error e

/-- The session behind a question. -/
def after (s : Session) (q : Question) : Session :=
  match ask q s with
  | .ok _ s => s
  | .error _ s => s

/-- The session behind some questions. -/
def afterAll (s : Session) (qs : List Question) : Session := qs.foldl after s

end Session

end CallSite
