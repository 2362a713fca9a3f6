import CallSite.Constant
import CallSite.Operator

/-!
# Nodes — the syntax trees of expressions

A node says how an expression is built, and nothing about what its names mean.  The parts that
occur in lists (keyword arguments, dictionary entries, comparison links) are generic in what they
hold, because resolved expressions have the same parts.
-/

namespace CallSite

/-- An argument behind the positional ones: `name=value`, or the expansion `**value`. -/
inductive Keyword (ε : Type) where
  | named (name : String) (value : ε)
  | unpacked (value : ε)

/-- An entry of a dictionary: `key: value`, or the expansion `**value`. -/
inductive Entry (ε : Type) where
  | item (key value : ε)
  | unpacked (value : ε)

/-- One step of a comparison chain: an operator and the operand behind it. -/
structure Link (ε : Type) where
  op : BinaryOp
  operand : ε

/-- A call: what is called, the positional arguments, and the keyword arguments. -/
structure Call (ε : Type) where
  func : ε
  args : List ε
  keywords : List (Keyword ε)

/-- A syntax tree. -/
inductive Node where
  | name (name : String)
  | constant (value : Constant)
  /-- The attribute `value.attr`. -/
  | attribute (value : Node) (attr : String)
  | call (call : Call Node)
  /-- The subscript `value[slice]`; several indices are one tuple. -/
  | subscript (value slice : Node)
  | list (items : List Node)
  | tuple (items : List Node)
  | dict (entries : List (Entry Node))
  | unary (op : UnaryOp) (operand : Node)
  | binary (left : Node) (op : BinaryOp) (right : Node)
  /-- A comparison chain: `a < b <= c` has two links, while `(a < b) <= c` holds another chain. -/
  | compare (left : Node) (links : List (Link Node))
  /-- The item `*value` of a call, a list or a tuple. -/
  | starred (value : Node)

end CallSite
