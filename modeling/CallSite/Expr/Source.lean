import CallSite.Expr
import CallSite.Token.Spelling

/-!
# Source text of expressions — tokens with as few parentheses as possible

An expression is written as a list of pieces, each a token or a blank.  An operand stands in
parentheses iff it would otherwise be read as part of something else: when it binds looser than its
surroundings, as tightly on the side to which the operator does not group, or when it is a
comparison inside a comparison.
-/

namespace CallSite

/-- A piece of source text.  The parentheses around an operand are told apart from those of a tuple
    or a call. -/
inductive Piece where
  | token (t : Token)
  | blank
  /-- The parenthesis in front of an operand. -/
  | groupStart
  /-- The parenthesis behind an operand. -/
  | groupEnd
  deriving DecidableEq, Repr

namespace Piece

/-- The token that a piece is read as; a blank is none. -/
def token? : Piece → Option Token
  | .token t => some t
  | .blank => none
  | .groupStart => some (.mark .leftParen)
  | .groupEnd => some (.mark .rightParen)

/-- The characters of a piece. -/
def chars (p : Piece) : List Char :=
  match p.token? with
  | some t => t.chars
  | none => [' ']

/-- A mark as a piece. -/
def mark (m : Mark) : Piece := .token (.mark m)

/-- A comma and a blank. -/
def comma : List Piece := [mark .comma, .blank]

/-- The pieces of a call's arguments or a tuple's items between their parentheses. -/
def parenthesized (ps : List Piece) : List Piece := mark .leftParen :: ps ++ [mark .rightParen]

/-- The pieces of an operand, in parentheses if they are needed. -/
def groupedIf (needed : Bool) (ps : List Piece) : List Piece :=
  if needed then .groupStart :: ps ++ [.groupEnd] else ps

/-- Several items with commas between them. -/
def commaSeparated (items : List (List Piece)) : List Piece := List.intercalate comma items

/-- The items of a tuple: a single one is followed by a comma. -/
def tupleItems (items : List (List Piece)) : List Piece :=
  commaSeparated items ++ if items.length = 1 then [mark .comma] else []

end Piece

/-- The token of a unary operator. -/
def UnaryOp.token : UnaryOp → Token
  | .neg => .mark .minus
  | .pos => .mark .plus
  | .invert => .mark .tilde
  | .not => .word .notWord

/-- A unary operator as it stands in front of its operand. -/
def UnaryOp.pieces (op : UnaryOp) : List Piece :=
  .token op.token :: if op = .not then [.blank] else []

/-- The token of a binary operator. -/
def BinaryOp.token : BinaryOp → Token
  | .or => .word .orWord
  | .and => .word .andWord
  | .eq => .mark .equal
  | .notEq => .mark .notEqual
  | .lt => .mark .less
  | .ltEq => .mark .lessEqual
  | .gt => .mark .greater
  | .gtEq => .mark .greaterEqual
  | .bitOr => .mark .pipe
  | .bitXor => .mark .caret
  | .bitAnd => .mark .ampersand
  | .shiftLeft => .mark .leftShift
  | .shiftRight => .mark .rightShift
  | .add => .mark .plus
  | .sub => .mark .minus
  | .mul => .mark .star
  | .matMul => .mark .atSign
  | .div => .mark .slash
  | .floorDiv => .mark .doubleSlash
  | .mod => .mark .percent
  | .pow => .mark .doubleStar

/-- A binary operator as it stands between its operands. -/
def BinaryOp.pieces (op : BinaryOp) : List Piece := [.blank, .token op.token, .blank]

/-- The token of a literal. -/
def Constant.token : Constant → Token
  | .absent => .word .noneWord
  | .bool true => .word .trueWord
  | .bool false => .word .falseWord
  | .int value => .int value
  | .float value => .float value
  | .str text => .str text
  | .bytes text => .bytes text
  | .ellipsis => .mark .ellipsis

namespace Expr

/-- Whether an expression needs parentheses in front of an attribute, a call or a subscript. -/
def wrapsAsBase (e : Expr) : Bool := e.precedence < atomPrecedence

/-- Whether an expression needs parentheses behind a unary operator. -/
def wrapsUnder (e : Expr) (op : UnaryOp) : Bool := e.precedence < op.precedence

/-- Whether an expression needs parentheses as the left operand of an operator. -/
def wrapsLeftOf (e : Expr) (op : BinaryOp) : Bool :=
  e.precedence < op.precedence || (op.isRightAssoc && e.precedence == op.precedence)

/-- Whether an expression needs parentheses as the right operand of an operator. -/
def wrapsRightOf (e : Expr) (op : BinaryOp) : Bool :=
  e.precedence < op.precedence || (!op.isRightAssoc && e.precedence == op.precedence)

/-- Whether an expression needs parentheses as an operand of a comparison. -/
def wrapsInChain (e : Expr) : Bool := e.precedence ≤ BinaryOp.lt.precedence

mutual

/-- The pieces of an expression. -/
def pieces : Expr → List Piece
  | .name id _ => [.token (.ident id)]
  | .attribute value attr =>
    Piece.groupedIf value.wrapsAsBase value.pieces ++ [.mark .dot, .token (.ident attr)]
  | .constant value => [.token value.token]
  | .call function arguments =>
    Piece.groupedIf function.wrapsAsBase function.pieces
      ++ Piece.parenthesized (Piece.commaSeparated (piecesOfEach arguments))
  | .keyword id value => .token (.ident id) :: .mark .assign :: value.pieces
  | .list items =>
    .mark .leftBracket :: Piece.commaSeparated (piecesOfEach items) ++ [.mark .rightBracket]
  | .tuple items => Piece.parenthesized (Piece.tupleItems (piecesOfEach items))
  | .dict entries =>
    .mark .leftBrace :: Piece.commaSeparated (piecesOfEntries entries) ++ [.mark .rightBrace]
  | .subscript value slice =>
    -- a tuple with items drops its parentheses between the brackets
    let sliced :=
      match slice with
      | .tuple (item :: items) => Piece.tupleItems (item.pieces :: piecesOfEach items)
      | slice => slice.pieces
    Piece.groupedIf value.wrapsAsBase value.pieces
      ++ .mark .leftBracket :: sliced ++ [.mark .rightBracket]
  | .unary op operand =>
    op.pieces ++ Piece.groupedIf (operand.wrapsUnder op) operand.pieces
  | .binary left op right =>
    Piece.groupedIf (left.wrapsLeftOf op) left.pieces ++ op.pieces
      ++ Piece.groupedIf (right.wrapsRightOf op) right.pieces
  | .compare left links =>
    Piece.groupedIf left.wrapsInChain left.pieces ++ piecesOfLinks links
  | .starred value => .mark .star :: value.pieces
  | .doubleStarred value => .mark .doubleStar :: value.pieces

/-- The pieces of each item of a list. -/
def piecesOfEach : List Expr → List (List Piece)
  | [] => []
  | e :: es => e.pieces :: piecesOfEach es

/-- The pieces of each entry of a dictionary. -/
def piecesOfEntries : List (Entry Expr) → List (List Piece)
  | [] => []
  | .item key value :: es =>
    (key.pieces ++ .mark .colon :: .blank :: value.pieces) :: piecesOfEntries es
  | .unpacked value :: es => (.mark .doubleStar :: value.pieces) :: piecesOfEntries es

/-- The pieces of the links of a chain. -/
def piecesOfLinks : List (Link Expr) → List Piece
  | [] => []
  | ⟨op, operand⟩ :: links =>
    op.pieces ++ Piece.groupedIf operand.wrapsInChain operand.pieces ++ piecesOfLinks links

end

/-- The source text of an expression. -/
def source (e : Expr) : String := String.ofList (e.pieces.flatMap Piece.chars)

end Expr

end CallSite
