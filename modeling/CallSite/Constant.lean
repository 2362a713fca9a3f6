import CallSite.Number.Binary64

/-!
# Constants — the literal values of expressions
-/

namespace CallSite

/-- A literal value. -/
inductive Constant where
  /-- The word for no value. -/
  | absent
  | bool (value : Bool)
  | int (value : Int)
  | float (value : Binary64)
  /-- A text, with its escapes resolved. -/
  | str (text : String)
  /-- A byte literal, kept as text. -/
  | bytes (text : String)
  /-- Three dots. -/
  | ellipsis
  deriving DecidableEq, Repr

/-- Equality of values: as `=`, but floats compare as numbers. -/
def Constant.eqv : Constant → Constant → Bool
  | .float x, .float y => x.eqv y
  | c, d => c == d

end CallSite
