import CallSite.Expr
import CallSite.Logging.Level
import CallSite.Scope

/-!
# Resolution — from syntax trees to expressions

Resolving a tree looks up its names in a scope and keeps everything else.  It fails on trees that
are nested too deeply and on starred items in places where none may stand.  The error says on which
way from the root the offending node was met: one context per edge that is worth a mention.
-/

namespace CallSite

/-- An edge of a syntax tree that errors mention. -/
inductive ResolutionContext where
  | attributeBase (attr : String)
  | subscript
  | calledExpression
  | argument (index : Nat)
  | keywordArgument (name : String)
  | unpackedArgument
  deriving DecidableEq, Repr

/-- The wording of a context. -/
def ResolutionContext.message : ResolutionContext → String
  | .attributeBase attr => "in base of ." ++ attr
  | .subscript => "in subscript"
  | .calledExpression => "in called expression"
  | .argument index => "in argument " ++ toString index
  | .keywordArgument name => "in keyword argument " ++ name
  | .unpackedArgument => "in ** argument"

/-- What is wrong with a node. -/
inductive ResolutionFault where
  | nestedTooDeeply
  | misplacedStar
  /-- A star that should have been refused, or passed over, before its node is converted. -/
  | unexpectedStar
  deriving DecidableEq, Repr

/-- The wording of a fault. -/
def ResolutionFault.message : ResolutionFault → String
  | .nestedTooDeeply => "expression nested too deeply"
  | .misplacedStar => "starred expression is only valid as a call argument or display element"
  | .unexpectedStar => "unexpected starred expression"

/-- A fault and the contexts on the way to it, the outermost first. -/
structure ResolutionError where
  contexts : List ResolutionContext
  fault : ResolutionFault
  deriving DecidableEq, Repr

namespace ResolutionError

/-- The wordings of the contexts and of the fault. -/
def chain (e : ResolutionError) : List String :=
  e.contexts.map ResolutionContext.message ++ [e.fault.message]

/-- The error as one line of text. -/
def message (e : ResolutionError) : String := ": ".intercalate e.chain

/-- The outermost wording alone. -/
def outermost (e : ResolutionError) : String := e.chain.headD ""

end ResolutionError

/-- A result of resolution, or the error. -/
abbrev Resolved (α : Type) := Except ResolutionError α

/-- Adds the outermost context to an error. -/
def Resolved.within {α : Type} (context : ResolutionContext) (r : Resolved α) : Resolved α :=
  r.mapError fun e => ⟨context :: e.contexts, e.fault⟩

/-- The deepest syntax tree that is resolved. -/
def maxDepth : Nat := 200

namespace Node

/-- Resolves an item of a call, a list or a tuple, which may be starred. -/
def resolveItem (sub : Node → Resolved Expr) : Node → Resolved Expr
  | .starred value => Expr.starred <$> sub value
  | item => sub item

/-- Resolves an entry of a dictionary, the key first. -/
def resolveEntry (sub : Node → Resolved Expr) : Entry Node → Resolved (Entry Expr)
  | .item key value => do return .item (← sub key) (← sub value)
  | .unpacked value => Entry.unpacked <$> sub value

/-- Resolves a keyword argument. -/
def resolveKeyword (sub : Node → Resolved Expr) : Keyword Node → Resolved Expr
  | .named id value => Expr.keyword id <$> (sub value).within (.keywordArgument id)
  | .unpacked value => Expr.doubleStarred <$> (sub value).within .unpackedArgument

/-- Resolves a link of a chain. -/
def resolveLink (sub : Node → Resolved Expr) (link : Link Node) : Resolved (Link Expr) :=
  Link.mk link.op <$> sub link.operand

/-- Resolves a call: what is called, the positional arguments, then the keyword arguments. -/
def resolveCall (sub : Node → Resolved Expr) (site : Call Node) : Resolved Expr := do
  let function ← (sub site.func).within .calledExpression
  let args ← site.args.zipIdx.mapM fun (arg, index) =>
    (resolveItem sub arg).within (.argument index)
  let keywords ← site.keywords.mapM (resolveKeyword sub)
  return .call function (args ++ keywords)

/-- Converts a node whose children are resolved by `sub`, in the order in which they are written.
    Starred nodes are left to the callers. -/
def convertWith (scope : Scope) (sub : Node → Resolved Expr) : Node → Resolved Expr
  | .name id => .ok (.name id (scope.resolve id))
  | .constant value => .ok (.constant value)
  | .attribute value attr => do
    return .attribute (← (sub value).within (.attributeBase attr)) attr
  | .call site => resolveCall sub site
  | .subscript value slice => do
    return .subscript (← sub value) (← (sub slice).within .subscript)
  | .list items => Expr.list <$> items.mapM (resolveItem sub)
  | .tuple items => Expr.tuple <$> items.mapM (resolveItem sub)
  | .dict entries => Expr.dict <$> entries.mapM (resolveEntry sub)
  | .unary op operand => Expr.unary op <$> sub operand
  | .binary left op right => do return .binary (← sub left) op (← sub right)
  | .compare left links => do
    return .compare (← sub left) (← links.mapM (resolveLink sub))
  | .starred _ => .error ⟨[], .unexpectedStar⟩

/-- Resolves a node whose children are resolved by `sub`, unless it is starred. -/
def resolveWith (scope : Scope) (sub : Node → Resolved Expr) : Node → Resolved Expr
  | .starred _ => .error ⟨[], .misplacedStar⟩
  | node => node.convertWith scope sub

/-- Resolves a node of at most this depth. -/
def resolveWithin (scope : Scope) : (depth : Nat) → Node → Resolved Expr
  | 0, _ => .error ⟨[], .nestedTooDeeply⟩
  | depth + 1, node => node.resolveWith scope (resolveWithin scope depth)

/-- The expression that a node stands for in a scope. -/
def resolve (node : Node) (scope : Scope) : Resolved Expr := node.resolveWithin scope maxDepth

/-! ## Resolution that does not fail -/

/-- The message about a node that cannot be resolved. -/
def unresolvedMessage (scope : Scope) (e : ResolutionError) : Message :=
  ⟨"scry_engine::expressions::resolve", .debug,
    "could not resolve expression in " ++ scope.inner.path ++ ": " ++ e.message⟩

/-- The expression that a node stands for, or nothing and a message about the error.  Where
    messages go is a parameter. -/
def resolve? {m : Type → Type} [Monad m] (note : Message → m Unit) (node : Node) (scope : Scope) :
    m (Option Expr) :=
  match node.resolve scope with
  | .ok e => pure (some e)
  | .error e => do
    note (unresolvedMessage scope e)
    return none

end Node

end CallSite
