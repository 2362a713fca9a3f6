import CallSite.Node

/-!
# Expressions — syntax trees whose names are resolved

An expression has the shape of its syntax tree.  Its names carry the path that they stand for, and
the arguments of a call form one list, in which keyword arguments and expansions are items of their
own.
-/

namespace CallSite

/-- A resolved expression. -/
inductive Expr where
  /-- A name and the path it stands for. -/
  | name (name canonical : String)
  | attribute (value : Expr) (attr : String)
  | constant (value : Constant)
  | call (function : Expr) (arguments : List Expr)
  /-- The argument `name=value`. -/
  | keyword (name : String) (value : Expr)
  | list (items : List Expr)
  | tuple (items : List Expr)
  | dict (entries : List (Entry Expr))
  | subscript (value slice : Expr)
  | unary (op : UnaryOp) (operand : Expr)
  | binary (left : Expr) (op : BinaryOp) (right : Expr)
  | compare (left : Expr) (links : List (Link Expr))
  | starred (value : Expr)
  /-- The argument `**value`. -/
  | doubleStarred (value : Expr)

namespace Expr

/-- The dotted path that an expression refers to: a name, or an attribute of such a path. -/
def canonicalPath? : Expr → Option String
  | .name _ canonical => some canonical
  | .attribute value attr => value.canonicalPath?.map (· ++ "." ++ attr)
  | _ => none

/-- The value of a literal. -/
def constant? : Expr → Option Constant
  | .constant value => some value
  | _ => none

/-- The precedence of what needs no parentheses anywhere. -/
def atomPrecedence : Nat := 13

/-- How tightly the outermost operator of an expression binds. -/
def precedence : Expr → Nat
  | .binary _ op _ => op.precedence
  | .unary op _ => op.precedence
  | .compare _ (link :: _) => link.op.precedence
  | .keyword .. | .starred _ | .doubleStarred _ => 0
  | _ => atomPrecedence

end Expr

end CallSite
