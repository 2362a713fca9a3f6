/-!
# Positions — lines and columns of a source text

A position is where a character stands.  Reading a character moves the position on
(`Position.next`), reading several moves it on one by one (`Position.after`), so the position after
two stretches of text is the position after the second, counted from the position after the first
(`Position.after_append`).
-/

namespace CallSite

/-- A line and a column, both counted from one; the column counts characters. -/
structure Position where
  line : Nat
  col : Nat
  deriving DecidableEq, Repr

namespace Position

/-- The position of the first character of a text. -/
def start : Position := ⟨1, 1⟩

/-- The position behind a character: a line feed opens the next line, all else the next column. -/
def next (p : Position) (c : Char) : Position :=
  if c = '\n' then ⟨p.line + 1, 1⟩ else ⟨p.line, p.col + 1⟩

/-- The position behind a stretch of text. -/
def after (p : Position) (cs : List Char) : Position := cs.foldl next p

@[simp] theorem after_nil (p : Position) : p.after [] = p := rfl

@[simp] theorem after_cons (p : Position) (c : Char) (cs : List Char) :
    p.after (c :: cs) = (p.next c).after cs := rfl

/-- Two stretches are read one behind the other. -/
theorem after_append (p : Position) (cs ds : List Char) :
    p.after (cs ++ ds) = (p.after cs).after ds := List.foldl_append ..

end Position

/-- A value together with the position at which its text begins. -/
structure Located (α : Type) where
  value : α
  pos : Position
  deriving DecidableEq, Repr

end CallSite
