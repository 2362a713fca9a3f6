import CallSite.Expr.Resolution
import CallSite.KeywordMap

/-!
# Extraction — the keyword arguments of a call

The named arguments of a call are resolved one by one and collected in a keyword map.  Expansions
have no name: they are passed over with a message.  How values are resolved and where messages go
are parameters, so whatever the resolver does happens once per named argument, in order.
-/

namespace CallSite

/-- The message about an expansion that is passed over. -/
def skippedMessage (scope : Scope) : Message :=
  ⟨"scry_engine::nodes::keywords", .debug,
    "skipping ** expansion in call inside " ++ scope.inner.path⟩

namespace Call

variable {m : Type → Type} [Monad m]

/-- Adds one keyword argument to a map. -/
def addKeyword (note : Message → m Unit) (resolver : Node → Scope → m (Option Expr))
    (scope : Scope) (map : KeywordMap) : Keyword Node → m KeywordMap
  | .named name value => do return map.insert name (← resolver value scope)
  | .unpacked _ => do
    note (skippedMessage scope)
    return map

/-- The keyword arguments of a call, resolved by `resolver`. -/
def keywordMapWith (note : Message → m Unit) (resolver : Node → Scope → m (Option Expr))
    (call : Call Node) (scope : Scope) : m KeywordMap :=
  call.keywords.foldlM (addKeyword note resolver scope) .empty

/-- The keyword arguments of a call; a value that cannot be resolved is unknown. -/
def keywordMap (note : Message → m Unit) (call : Call Node) (scope : Scope) : m KeywordMap :=
  keywordMapWith note (Node.resolve? note) call scope

end Call

end CallSite
