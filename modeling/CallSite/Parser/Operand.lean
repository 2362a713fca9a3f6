import CallSite.Parser.Climbing

/-!
# Operands — what stands between the operators

An operand is an atom followed by attributes, calls and subscripts, or a unary operator and what it
applies to.  Whatever is nested inside an operand is read by the parameter `sub`, which takes the
least precedence of an operator to read.
-/

namespace CallSite

/-- The unary operator that a token stands for. -/
def UnaryOp.ofToken? : Token → Option UnaryOp
  | .word .notWord => some .not
  | .mark .minus => some .neg
  | .mark .plus => some .pos
  | .mark .tilde => some .invert
  | _ => none

/-- Whether the argument is an expansion. -/
def Keyword.isUnpacked {ε : Type} : Keyword ε → Bool
  | .named _ _ => false
  | .unpacked _ => true

namespace Parser

variable {σ : Type} [HasCursor σ]

/-- Reads a whole expression. -/
def expression (sub : Nat → ParserOn σ Node) : ParserOn σ Node := do
  if (← peek) = .word .lambdaWord then fail .lambda else sub 0

/-- Reads what a star may stand in front of in a list, a tuple or a dictionary: nothing that binds
    looser than the bitwise operators. -/
def unpackable (sub : Nat → ParserOn σ Node) : ParserOn σ Node := sub BinaryOp.bitOr.precedence

/-! ## Items between brackets -/

/-- Reads an item of a list or a tuple. -/
def displayItem (sub : Nat → ParserOn σ Node) : ParserOn σ Node := do
  if ← eat .star then return .starred (← unpackable sub)
  expression sub

/-- Reads one more item of a list or a tuple. -/
def moreItems (sub : Nat → ParserOn σ Node) (read : List Node) : ParserOn σ (List Node) := do
  return read ++ [← displayItem sub]

/-- Reads one more index of a subscript. -/
def moreIndices (sub : Nat → ParserOn σ Node) (read : List Node) : ParserOn σ (List Node) := do
  return read ++ [← expression sub]

/-- Reads one more entry of a dictionary. -/
def moreEntries (sub : Nat → ParserOn σ Node) (read : List (Entry Node)) :
    ParserOn σ (List (Entry Node)) := do
  if ← eat .doubleStar then return read ++ [.unpacked (← unpackable sub)]
  let key ← expression sub
  if (← peek) ≠ .mark .colon then fail .setDisplay
  else
    advance
    return read ++ [.item key (← expression sub)]

/-- Reads one more argument of a call.  Behind a keyword argument no plain one may follow, and
    behind an expansion of keywords no starred one. -/
def moreArguments (sub : Nat → ParserOn σ Node) (read : Call Node) : ParserOn σ (Call Node) := do
  match ← peek with
  | .mark .doubleStar =>
    advance
    let value ← expression sub
    return ⟨read.func, read.args, read.keywords ++ [.unpacked value]⟩
  | .mark .star =>
    if read.keywords.any Keyword.isUnpacked then fail .starredAfterDoubleStarred
    else
      advance
      let value ← expression sub
      return ⟨read.func, read.args ++ [.starred value], read.keywords⟩
  | _ =>
    match ← keyword? with
    | some name =>
      advance
      advance
      let value ← expression sub
      return ⟨read.func, read.args, read.keywords ++ [.named name value]⟩
    | none =>
      if read.keywords.isEmpty then
        let value ← expression sub
        return ⟨read.func, read.args ++ [value], read.keywords⟩
      else fail .positionalAfterKeyword

/-! ## Brackets -/

/-- Reads what follows an opening parenthesis: the empty tuple, an expression in parentheses, or a
    tuple. -/
def parenthesized (sub : Nat → ParserOn σ Node) : ParserOn σ Node := do
  if ← eat .rightParen then return .tuple []
  let first ← displayItem sub
  if ← eat .rightParen then
    match first with
    | .starred _ => fail .loneStarred
    | first => return first
  let read ← if ← eat .comma then items .rightParen (moreItems sub) [first] else pure [first]
  expect .rightParen
  return .tuple read

/-- Reads what follows the opening bracket of a list. -/
def listDisplay (sub : Nat → ParserOn σ Node) : ParserOn σ Node := do
  let read ← items .rightBracket (moreItems sub) []
  expect .rightBracket
  return .list read

/-- Reads what follows the opening brace of a dictionary. -/
def dictDisplay (sub : Nat → ParserOn σ Node) : ParserOn σ Node := do
  let read ← items .rightBrace (moreEntries sub) []
  expect .rightBrace
  return .dict read

/-- Reads what follows the opening parenthesis of a call. -/
def arguments (sub : Nat → ParserOn σ Node) (func : Node) : ParserOn σ (Call Node) := do
  let read ← items .rightParen (moreArguments sub) ⟨func, [], []⟩
  expect .rightParen
  return read

/-- Reads what follows the opening bracket of a subscript. -/
def indices (sub : Nat → ParserOn σ Node) : ParserOn σ Node := do
  let first ← expression sub
  if (← peek) = .mark .colon then fail .slice
  else
    let slice ←
      if ← eat .comma then
        pure (.tuple (← items .rightBracket (moreIndices sub) [first]))
      else pure first
    expect .rightBracket
    return slice

/-! ## Operands -/

/-- Reads a name, a literal, or something in brackets. -/
def atom (sub : Nat → ParserOn σ Node) : ParserOn σ Node := do
  match ← peek with
  | .ident name =>
    advance
    return .name name
  | .int value =>
    advance
    return .constant (.int value)
  | .float value =>
    advance
    return .constant (.float value)
  | .bytes text =>
    advance
    return .constant (.bytes text)
  | .str _ => return .constant (.str (← texts))
  | .word .trueWord =>
    advance
    return .constant (.bool true)
  | .word .falseWord =>
    advance
    return .constant (.bool false)
  | .word .noneWord =>
    advance
    return .constant .absent
  | .mark .ellipsis =>
    advance
    return .constant .ellipsis
  | .mark .leftParen =>
    advance
    parenthesized sub
  | .mark .leftBracket =>
    advance
    listDisplay sub
  | .mark .leftBrace =>
    advance
    dictDisplay sub
  | .word .lambdaWord => fail .lambda
  | token => fail (.expectedExpression token)

/-- Reads the attributes, calls and subscripts behind a node.  Every round reads a token, so as
    many rounds as tokens are left suffice. -/
def trailersWithin (sub : Nat → ParserOn σ Node) : (fuel : Nat) → Node → ParserOn σ Node
  | 0, node => pure node
  | fuel + 1, node => do
    match ← peek with
    | .mark .dot =>
      advance
      let attr ← identifier
      trailersWithin sub fuel (.attribute node attr)
    | .mark .leftParen =>
      advance
      let call ← arguments sub node
      trailersWithin sub fuel (.call call)
    | .mark .leftBracket =>
      advance
      let slice ← indices sub
      trailersWithin sub fuel (.subscript node slice)
    | _ => pure node

/-- Reads an atom and what follows it. -/
def primary (sub : Nat → ParserOn σ Node) : ParserOn σ Node := do
  let node ← atom sub
  trailersWithin sub (← remaining) node

/-- Reads an operand.  Where an operator on its left binds tighter than `not`, a `not` is refused;
    the signs are taken everywhere. -/
def unary (sub : Nat → ParserOn σ Node) (min : Nat) : ParserOn σ Node := do
  let token ← peek
  match UnaryOp.ofToken? token with
  | none => primary sub
  | some op =>
    if op = .not ∧ op.precedence < min then fail (.misplacedOperator token)
    else
      advance
      return .unary op (← sub op.precedence)

end Parser

end CallSite
