import CallSite.Pattern.Flag
import CallSite.Text.Blank

/-!
# Reading — the text of a pattern and what is known at a place in it

A reader takes characters from the text of a pattern and may refuse it.  The few primitives here are
the only functions that look into the text.  Where the flag for it is on, a gap of blanks and
comments may stand between the parts; a comment runs from a number sign to the end of its line.
-/

namespace CallSite.Pattern

/-- A place in the text of a pattern. -/
structure Spot where
  /-- The characters that are still to be read. -/
  rest : List Char
  /-- The flags that are on. -/
  flags : List Flag
  /-- The names that were given to groups. -/
  names : List String
  deriving DecidableEq, Repr

/-- A reader of patterns, which refuses or gives a value. -/
abbrev Reading := StateT Spot Option

namespace Reading

/-- Refuses the pattern. -/
def refuse {α : Type} : Reading α := fun _ => none

/-- Gives what is there, and refuses where nothing is. -/
def demand {α : Type} (value : Option α) : Reading α := fun s => value.map (·, s)

/-- The characters that are left. -/
def rest : Reading (List Char) := fun s => some (s.rest, s)

/-- Goes on where the given characters are left. -/
def moveTo (rest : List Char) : Reading Unit := fun s => some ((), ⟨rest, s.flags, s.names⟩)

/-- Whether a flag is on. -/
def isOn (flag : Flag) : Reading Bool := fun s => some (flag ∈ s.flags, s)

/-- The flags that are on. -/
def flags : Reading (List Flag) := fun s => some (s.flags, s)

/-- Sets the flags. -/
def setFlags (flags : List Flag) : Reading Unit := fun s => some ((), ⟨s.rest, flags, s.names⟩)

/-- Gives a name to a group, which no other one may have. -/
def giveName (name : String) : Reading Unit := fun s =>
  if name ∈ s.names then none else some ((), ⟨s.rest, s.flags, name :: s.names⟩)

/-- How many characters are left. -/
def remaining : Reading Nat := do
  return (← rest).length

/-- The next character, which stays unread. -/
def peek : Reading (Option Char) := do
  return (← rest).head?

/-- Reads the next character, of which there has to be one. -/
def next : Reading Char := do
  match ← rest with
  | [] => refuse
  | c :: cs =>
    moveTo cs
    pure c

/-- Reads a text if it comes next, and tells whether it did. -/
def eat (text : String) : Reading Bool := do
  let cs ← rest
  if text.toList.isPrefixOf cs then
    moveTo (cs.drop text.length)
    pure true
  else pure false

/-- Reads a text that has to come next. -/
def expect (text : String) : Reading Unit := do
  if ← eat text then pure () else refuse

/-! ## Gaps -/

/-- What is left of a text behind the gap that it starts with, possibly with the rest of a
    comment. -/
def behindGap : (inComment : Bool) → List Char → List Char
  | _, [] => []
  | true, c :: cs => behindGap (c != '\n') cs
  | false, c :: cs =>
    if c = '#' then behindGap true cs
    else if isBlank c then behindGap false cs
    else c :: cs

/-- Passes over a gap, if gaps mean nothing here. -/
def gap : Reading Unit := do
  if ← isOn .verbose then moveTo (behindGap false (← rest))

/-- Passes over blanks. -/
def blanks : Reading Unit := do
  moveTo ((← rest).dropWhile isBlank)

/-- Reads the characters that belong to a class, with gaps behind them.  Every round reads a
    character, so as many rounds as characters are left suffice. -/
def charsWithin (belongs : Char → Bool) : (fuel : Nat) → Reading (List Char)
  | 0 => pure []
  | fuel + 1 => do
    match ← rest with
    | [] => pure []
    | c :: cs =>
      if belongs c then
        moveTo cs
        gap
        return c :: (← charsWithin belongs fuel)
      else pure []

/-- Reads the characters that belong to a class, with gaps behind them. -/
def chars (belongs : Char → Bool) : Reading (List Char) := do
  charsWithin belongs (← remaining)

end Reading

end CallSite.Pattern
