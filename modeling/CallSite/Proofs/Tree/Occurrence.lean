import CallSite.Proofs.Tree.Slot

/-!
# Occurrences — the nodes that a tree is made of

Every node of a tree is reached from the root by going down to one child after another.
-/

namespace CallSite

namespace Node

/-- The nodes directly below a node. -/
def children : Node → List Node
  | .name _ | .constant _ => []
  | .attribute value _ => [value]
  | .call ⟨func, args, keywords⟩ => func :: (args ++ keywords.map Keyword.value)
  | .subscript value slice => [value, slice]
  | .list items | .tuple items => items
  | .dict entries => entries.flatMap Entry.values
  | .unary _ operand => [operand]
  | .binary left _ right => [left, right]
  | .compare left links => left :: links.map Link.operand
  | .starred value => [value]

/-- A node occurs in a tree. -/
inductive Within (u : Node) : Node → Prop where
  | refl : Within u u
  | child {c t : Node} : c ∈ t.children → Within u c → Within u t

/-- A tree has a node of some kind. -/
def Contains (P : Node → Prop) (t : Node) : Prop := ∃ u, Within u t ∧ P u

theorem Within.trans {u v t : Node} (huv : Within u v) (hvt : Within v t) : Within u t := by
  induction hvt with
  | refl => exact huv
  | child hc _ ih => exact .child hc ih

variable {P : Node → Prop}

theorem Contains.here {t : Node} (h : P t) : Contains P t := ⟨t, .refl, h⟩

theorem Contains.mono {Q : Node → Prop} (hPQ : ∀ u, P u → Q u) {t : Node} (h : Contains P t) :
    Contains Q t := by
  obtain ⟨u, hu, hPu⟩ := h
  exact ⟨u, hu, hPQ u hPu⟩

end Node

end CallSite
