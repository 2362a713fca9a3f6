import CallSite.Expr
import CallSite.Scope

/-!
# Images — what a tree is turned into, and back

In a scope every tree has an image: the expression with the same parts, in which each name carries
the path that the scope gives it (`Node.image`).  It is defined for all trees, also for those that
are not resolved.  Going back, an expression without its paths is a tree again, in which the
arguments of a call are told apart (`Expr.node?`).  The image of a tree goes back to that tree
(`Node.node?_image`).
-/

namespace CallSite

namespace Node

mutual

/-- The expression with the parts of a tree and with the paths that a scope gives its names. -/
def image (scope : Scope) : Node → Expr
  | .name id => .name id (scope.resolve id)
  | .constant value => .constant value
  | .attribute value attr => .attribute (value.image scope) attr
  | .call ⟨func, args, keywords⟩ =>
    .call (func.image scope) (imageOfEach scope args ++ imageOfKeywords scope keywords)
  | .subscript value slice => .subscript (value.image scope) (slice.image scope)
  | .list items => .list (imageOfEach scope items)
  | .tuple items => .tuple (imageOfEach scope items)
  | .dict entries => .dict (imageOfEntries scope entries)
  | .unary op operand => .unary op (operand.image scope)
  | .binary left op right => .binary (left.image scope) op (right.image scope)
  | .compare left links => .compare (left.image scope) (imageOfLinks scope links)
  | .starred value => .starred (value.image scope)

/-- The image of each item of a list. -/
def imageOfEach (scope : Scope) : List Node → List Expr
  | [] => []
  | t :: ts => t.image scope :: imageOfEach scope ts

/-- The image of each keyword argument: an argument of its own. -/
def imageOfKeywords (scope : Scope) : List (Keyword Node) → List Expr
  | [] => []
  | .named id value :: ks => .keyword id (value.image scope) :: imageOfKeywords scope ks
  | .unpacked value :: ks => .doubleStarred (value.image scope) :: imageOfKeywords scope ks

/-- The image of each entry of a dictionary. -/
def imageOfEntries (scope : Scope) : List (Entry Node) → List (Entry Expr)
  | [] => []
  | .item key value :: es =>
    .item (key.image scope) (value.image scope) :: imageOfEntries scope es
  | .unpacked value :: es => .unpacked (value.image scope) :: imageOfEntries scope es

/-- The image of each link of a chain. -/
def imageOfLinks (scope : Scope) : List (Link Node) → List (Link Expr)
  | [] => []
  | ⟨op, operand⟩ :: links => ⟨op, operand.image scope⟩ :: imageOfLinks scope links

end

end Node

namespace Expr

mutual

/-- The tree of an expression, whose paths are dropped.  Arguments with a name or two stars are no
    trees outside of a call. -/
def node? : Expr → Option Node
  | .name id _ => some (.name id)
  | .attribute value attr => return .attribute (← value.node?) attr
  | .constant value => some (.constant value)
  | .call function arguments => do
    let func ← function.node?
    let (args, keywords) ← nodesOfArguments arguments
    return .call ⟨func, args, keywords⟩
  | .keyword _ _ | .doubleStarred _ => none
  | .list items => return .list (← nodesOfEach items)
  | .tuple items => return .tuple (← nodesOfEach items)
  | .dict entries => return .dict (← nodesOfEntries entries)
  | .subscript value slice => return .subscript (← value.node?) (← slice.node?)
  | .unary op operand => return .unary op (← operand.node?)
  | .binary left op right => return .binary (← left.node?) op (← right.node?)
  | .compare left links => return .compare (← left.node?) (← nodesOfLinks links)
  | .starred value => return .starred (← value.node?)

/-- The trees of the items of a list. -/
def nodesOfEach : List Expr → Option (List Node)
  | [] => some []
  | e :: es => return (← e.node?) :: (← nodesOfEach es)

/-- The positional arguments and the keyword arguments of a call. -/
def nodesOfArguments : List Expr → Option (List Node × List (Keyword Node))
  | [] => some ([], [])
  | .keyword id value :: es => do
    let value ← value.node?
    let (args, keywords) ← nodesOfArguments es
    return (args, .named id value :: keywords)
  | .doubleStarred value :: es => do
    let value ← value.node?
    let (args, keywords) ← nodesOfArguments es
    return (args, .unpacked value :: keywords)
  | e :: es => do
    let arg ← e.node?
    let (args, keywords) ← nodesOfArguments es
    return (arg :: args, keywords)

/-- The trees of the entries of a dictionary. -/
def nodesOfEntries : List (Entry Expr) → Option (List (Entry Node))
  | [] => some []
  | .item key value :: es => return .item (← key.node?) (← value.node?) :: (← nodesOfEntries es)
  | .unpacked value :: es => return .unpacked (← value.node?) :: (← nodesOfEntries es)

/-- The trees of the links of a chain. -/
def nodesOfLinks : List (Link Expr) → Option (List (Link Node))
  | [] => some []
  | ⟨op, operand⟩ :: links => return ⟨op, ← operand.node?⟩ :: (← nodesOfLinks links)

end

mutual

/-- The names that occur in an expression, each with the path it stands for. -/
def names : Expr → List (String × String)
  | .name id canonical => [(id, canonical)]
  | .constant _ => []
  | .attribute value _ | .keyword _ value | .unary _ value | .starred value
  | .doubleStarred value => value.names
  | .call function arguments => function.names ++ namesOfEach arguments
  | .list items | .tuple items => namesOfEach items
  | .dict entries => namesOfEntries entries
  | .subscript left right | .binary left _ right => left.names ++ right.names
  | .compare left links => left.names ++ namesOfLinks links

/-- The names in the items of a list. -/
def namesOfEach : List Expr → List (String × String)
  | [] => []
  | e :: es => e.names ++ namesOfEach es

/-- The names in the entries of a dictionary. -/
def namesOfEntries : List (Entry Expr) → List (String × String)
  | [] => []
  | .item key value :: es => key.names ++ value.names ++ namesOfEntries es
  | .unpacked value :: es => value.names ++ namesOfEntries es

/-- The names in the links of a chain. -/
def namesOfLinks : List (Link Expr) → List (String × String)
  | [] => []
  | ⟨_, operand⟩ :: links => operand.names ++ namesOfLinks links

end

end Expr

theorem Expr.namesOfEach_append (es es' : List Expr) :
    namesOfEach (es ++ es') = namesOfEach es ++ namesOfEach es' := by
  induction es with
  | nil => rfl
  | cons e es ih => rw [List.cons_append, namesOfEach, ih, namesOfEach, List.append_assoc]

namespace Node

variable (scope : Scope)

theorem imageOfEach_eq (ts : List Node) : imageOfEach scope ts = ts.map (image scope) := by
  induction ts with
  | nil => rfl
  | cons t ts ih => rw [imageOfEach, ih, List.map_cons]

/-! ## Back to the tree -/

/-- The image of a tree is an argument without a name. -/
theorem nodesOfArguments_image (t : Node) (es : List Expr) :
    Expr.nodesOfArguments (t.image scope :: es) = (do
      let arg ← (t.image scope).node?
      let (args, keywords) ← Expr.nodesOfArguments es
      return (arg :: args, keywords)) := by
  cases t <;> rfl

mutual

/-- The image of a tree goes back to that tree. -/
theorem node?_image : (t : Node) → (t.image scope).node? = some t
  | .name _ | .constant _ => rfl
  | .attribute value attr => by
      rw [image, Expr.node?, node?_image value]
      rfl
  | .call ⟨func, args, keywords⟩ => by
      have harguments : Expr.nodesOfArguments
          (imageOfEach scope args ++ imageOfKeywords scope keywords) = some (args, keywords) := by
        rw [nodesOfArguments_images _ args, nodesOfKeywords_image keywords]
        exact congrArg (fun args => some (args, keywords)) (List.append_nil args)
      rw [image, Expr.node?, node?_image func, harguments]
      rfl
  | .subscript value slice => by
      rw [image, Expr.node?, node?_image value, node?_image slice]
      rfl
  | .list items => by
      rw [image, Expr.node?, nodesOfEach_image items]
      rfl
  | .tuple items => by
      rw [image, Expr.node?, nodesOfEach_image items]
      rfl
  | .dict entries => by
      rw [image, Expr.node?, nodesOfEntries_image entries]
      rfl
  | .unary op operand => by
      rw [image, Expr.node?, node?_image operand]
      rfl
  | .binary left op right => by
      rw [image, Expr.node?, node?_image left, node?_image right]
      rfl
  | .compare left links => by
      rw [image, Expr.node?, node?_image left, nodesOfLinks_image links]
      rfl
  | .starred value => by
      rw [image, Expr.node?, node?_image value]
      rfl

theorem nodesOfEach_image : (ts : List Node) → Expr.nodesOfEach (imageOfEach scope ts) = some ts
  | [] => rfl
  | t :: ts => by
      rw [imageOfEach, Expr.nodesOfEach, node?_image t, nodesOfEach_image ts]
      rfl

/-- The images of positional arguments go in front of the positional arguments. -/
theorem nodesOfArguments_images (es : List Expr) : (args : List Node) →
    Expr.nodesOfArguments (imageOfEach scope args ++ es)
      = (Expr.nodesOfArguments es).map fun (more, keywords) => (args ++ more, keywords)
  | [] => by
      rw [imageOfEach, List.nil_append]
      exact Option.map_id'.symm
  | arg :: args => by
      rw [imageOfEach, List.cons_append, nodesOfArguments_image, node?_image arg,
        nodesOfArguments_images es args]
      cases Expr.nodesOfArguments es <;> rfl

theorem nodesOfKeywords_image : (keywords : List (Keyword Node)) →
    Expr.nodesOfArguments (imageOfKeywords scope keywords) = some ([], keywords)
  | [] => rfl
  | .named id value :: keywords => by
      rw [imageOfKeywords, Expr.nodesOfArguments, node?_image value, nodesOfKeywords_image keywords]
      rfl
  | .unpacked value :: keywords => by
      rw [imageOfKeywords, Expr.nodesOfArguments, node?_image value, nodesOfKeywords_image keywords]
      rfl

theorem nodesOfEntries_image :
    (es : List (Entry Node)) → Expr.nodesOfEntries (imageOfEntries scope es) = some es
  | [] => rfl
  | .item key value :: es => by
      rw [imageOfEntries, Expr.nodesOfEntries, node?_image key, node?_image value,
        nodesOfEntries_image es]
      rfl
  | .unpacked value :: es => by
      rw [imageOfEntries, Expr.nodesOfEntries, node?_image value, nodesOfEntries_image es]
      rfl

theorem nodesOfLinks_image :
    (links : List (Link Node)) → Expr.nodesOfLinks (imageOfLinks scope links) = some links
  | [] => rfl
  | ⟨op, operand⟩ :: links => by
      rw [imageOfLinks, Expr.nodesOfLinks, node?_image operand, nodesOfLinks_image links]
      rfl

end

/-! ## Names -/

mutual

/-- Every name in an image carries the path that the scope gives it. -/
theorem names_image : (t : Node) → ∀ x ∈ (t.image scope).names, x.2 = scope.resolve x.1
  | .name id => List.forall_mem_singleton.mpr rfl
  | .constant _ => List.forall_mem_nil _
  | .attribute value _ | .unary _ value | .starred value => names_image value
  | .call ⟨func, args, keywords⟩ => by
      rw [image, Expr.names, Expr.namesOfEach_append]
      exact List.forall_mem_append.mpr ⟨names_image func,
        List.forall_mem_append.mpr ⟨namesOfEach_image args, namesOfKeywords_image keywords⟩⟩
  | .list items | .tuple items => namesOfEach_image items
  | .dict entries => namesOfEntries_image entries
  | .subscript left right | .binary left _ right =>
      List.forall_mem_append.mpr ⟨names_image left, names_image right⟩
  | .compare left links => List.forall_mem_append.mpr ⟨names_image left, namesOfLinks_image links⟩

theorem namesOfEach_image : (ts : List Node) →
    ∀ x ∈ Expr.namesOfEach (imageOfEach scope ts), x.2 = scope.resolve x.1
  | [] => List.forall_mem_nil _
  | t :: ts => List.forall_mem_append.mpr ⟨names_image t, namesOfEach_image ts⟩

theorem namesOfKeywords_image : (keywords : List (Keyword Node)) →
    ∀ x ∈ Expr.namesOfEach (imageOfKeywords scope keywords), x.2 = scope.resolve x.1
  | [] => List.forall_mem_nil _
  | .named _ value :: keywords | .unpacked value :: keywords =>
      List.forall_mem_append.mpr ⟨names_image value, namesOfKeywords_image keywords⟩

theorem namesOfEntries_image : (es : List (Entry Node)) →
    ∀ x ∈ Expr.namesOfEntries (imageOfEntries scope es), x.2 = scope.resolve x.1
  | [] => List.forall_mem_nil _
  | .item key value :: es => List.forall_mem_append.mpr
      ⟨List.forall_mem_append.mpr ⟨names_image key, names_image value⟩, namesOfEntries_image es⟩
  | .unpacked value :: es =>
      List.forall_mem_append.mpr ⟨names_image value, namesOfEntries_image es⟩

theorem namesOfLinks_image : (links : List (Link Node)) →
    ∀ x ∈ Expr.namesOfLinks (imageOfLinks scope links), x.2 = scope.resolve x.1
  | [] => List.forall_mem_nil _
  | ⟨_, operand⟩ :: links =>
      List.forall_mem_append.mpr ⟨names_image operand, namesOfLinks_image links⟩

end

end Node

end CallSite
