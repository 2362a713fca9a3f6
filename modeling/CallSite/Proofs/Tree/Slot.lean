import Mathlib
import CallSite.Expr
import CallSite.Proofs.Grammar

/-!
# Slots — where the parts of a syntax tree stand

A part of a tree stands in a seat: in front of an attribute, beside an operator, behind a power, or
inside brackets.  The seat says how tightly the part has to bind to need no parentheses there, and
whether it is a nested operand.  `Node.slots` lists the parts of a node with their seats.  What the
source writes in one breath is one step: a starred item leads straight to its operand, and the
items of a tuple that is a subscript's slice stand between the brackets themselves.

All that is said about trees goes by induction on slots (`Node.slotInduction`).
-/

namespace CallSite

/-- The operand of a keyword argument. -/
def Keyword.value {ε : Type} : Keyword ε → ε
  | .named _ value => value
  | .unpacked value => value

/-- The operands of a dictionary entry. -/
def Entry.values {ε : Type} : Entry ε → List ε
  | .item key value => [key, value]
  | .unpacked value => [value]

/-- Where a part of a tree stands. -/
inductive Seat where
  /-- In front of an attribute, a call or a subscript. -/
  | base
  /-- Beside a binary operator, as an operand that binds at least so tightly. -/
  | operand (level : Nat)
  /-- To the right of a power. -/
  | exponent
  /-- Inside brackets or behind a unary operator, binding at least so tightly. -/
  | nested (level : Nat)
  deriving DecidableEq, Repr

namespace Seat

/-- How tightly a part has to bind there.  A power takes signs on its right. -/
def level : Seat → Nat
  | .base => Expr.atomPrecedence
  | .operand level | .nested level => level
  | .exponent => 11

/-- How tightly a part has to bind to be written there without parentheses. -/
def writtenLevel : Seat → Nat
  | .exponent => 12
  | seat => seat.level

/-- How much deeper the part is nested. -/
def depth : Seat → Nat
  | .nested _ => 1
  | _ => 0

end Seat

/-- A part of a tree and its seat. -/
structure Slot where
  seat : Seat
  node : Node

namespace Node

/-- Whether a node is an item with a star. -/
def isStarred : Node → Bool
  | .starred _ => true
  | _ => false

/-- How tightly the outermost operator of a node binds. -/
def precedence : Node → Nat
  | .binary _ op _ => op.precedence
  | .unary op _ => op.precedence
  | .compare _ (link :: _) => link.op.precedence
  | .starred _ => 0
  | _ => Expr.atomPrecedence

/-- A whole expression inside brackets. -/
def inside (t : Node) : Slot := ⟨.nested 0, t⟩

/-- The slot of an argument of a call, which may be starred. -/
def argumentSlot : Node → Slot
  | .starred value => value.inside
  | arg => arg.inside

/-- The slot of an item of a list or a tuple.  A star takes nothing looser than `|`. -/
def itemSlot : Node → Slot
  | .starred value => ⟨.nested BinaryOp.bitOr.precedence, value⟩
  | item => item.inside

/-- The slots between the brackets of a subscript. -/
def sliceSlots : Node → List Slot
  | .tuple (item :: items) =>
    if (item :: items).any isStarred then [inside (.tuple (item :: items))]
    else (item :: items).map inside
  | slice => [slice.inside]

/-- The slots of a dictionary entry. -/
def entrySlots : Entry Node → List Slot
  | .item key value => [key.inside, value.inside]
  | .unpacked value => [⟨.nested BinaryOp.bitOr.precedence, value⟩]

/-- The seat to the left of a binary operator. -/
def leftSeat (op : BinaryOp) : Seat :=
  if op.isRightAssoc then .base else .operand op.precedence

/-- The seat to the right of a binary operator. -/
def rightSeat (op : BinaryOp) : Seat :=
  if op.isRightAssoc then .exponent else .operand (op.precedence + 1)

theorem leftSeat_of_left {op : BinaryOp} (h : op.isRightAssoc = false) :
    leftSeat op = .operand op.precedence := if_neg (by simp [h])

theorem rightSeat_of_left {op : BinaryOp} (h : op.isRightAssoc = false) :
    rightSeat op = .operand (op.precedence + 1) := if_neg (by simp [h])

/-- The slots of a node, from left to right. -/
def slots : Node → List Slot
  | .name _ | .constant _ | .starred _ => []
  | .attribute value _ => [⟨.base, value⟩]
  | .call ⟨func, args, keywords⟩ =>
    ⟨.base, func⟩ :: (args.map argumentSlot ++ keywords.map fun k => k.value.inside)
  | .subscript value slice => ⟨.base, value⟩ :: slice.sliceSlots
  | .list items | .tuple items => items.map itemSlot
  | .dict entries => entries.flatMap entrySlots
  | .unary op operand => [⟨.nested op.precedence, operand⟩]
  | .binary left op right => [⟨leftSeat op, left⟩, ⟨rightSeat op, right⟩]
  | .compare left links =>
    ⟨.operand 5, left⟩ :: links.map fun link => ⟨.operand 5, link.operand⟩

/-! ## Induction -/

theorem sizeOf_argumentSlot_le (t : Node) : sizeOf t.argumentSlot.node ≤ sizeOf t := by
  cases t <;> simp +arith [argumentSlot, inside]

theorem sizeOf_itemSlot_le (t : Node) : sizeOf t.itemSlot.node ≤ sizeOf t := by
  cases t <;> simp +arith [itemSlot, inside]

theorem sizeOf_keyword_lt (k : Keyword Node) : sizeOf k.value < sizeOf k := by
  cases k <;> simp +arith [Keyword.value]

theorem sizeOf_entrySlots_lt {e : Entry Node} {s : Slot} (h : s ∈ entrySlots e) :
    sizeOf s.node < sizeOf e := by
  cases e with
  | item key value =>
      simp only [entrySlots, List.mem_cons, List.not_mem_nil, or_false] at h
      rcases h with rfl | rfl <;> simp +arith [inside]
  | unpacked value =>
      obtain rfl := List.mem_singleton.mp h
      simp +arith

theorem sizeOf_link_lt (link : Link Node) : sizeOf link.operand < sizeOf link := by
  cases link
  simp +arith

theorem sizeOf_sliceSlots_le {slice : Node} {s : Slot} (h : s ∈ slice.sliceSlots) :
    sizeOf s.node ≤ sizeOf slice := by
  unfold sliceSlots at h
  split at h
  · split at h
    · obtain rfl := List.mem_singleton.mp h
      exact Nat.le_refl _
    · obtain ⟨item, hitem, rfl⟩ := List.mem_map.mp h
      have := List.sizeOf_lt_of_mem hitem
      simp only [inside, tuple.sizeOf_spec]
      omega
  · obtain rfl := List.mem_singleton.mp h
    exact Nat.le_refl _

/-- What stands in a slot is smaller than the node. -/
theorem sizeOf_slot_lt {t : Node} {s : Slot} (h : s ∈ t.slots) : sizeOf s.node < sizeOf t := by
  match t, h with
  | .attribute value attr, h =>
      obtain rfl := List.mem_singleton.mp h
      simp +arith
  | .call ⟨func, args, keywords⟩, h =>
      rcases List.mem_cons.mp h with rfl | h
      · simp +arith
      rcases List.mem_append.mp h with h | h
      · obtain ⟨arg, harg, rfl⟩ := List.mem_map.mp h
        have := sizeOf_argumentSlot_le arg
        have := List.sizeOf_lt_of_mem harg
        simp only [call.sizeOf_spec, Call.mk.sizeOf_spec]
        omega
      · obtain ⟨k, hk, rfl⟩ := List.mem_map.mp h
        have := sizeOf_keyword_lt k
        have := List.sizeOf_lt_of_mem hk
        simp only [inside, call.sizeOf_spec, Call.mk.sizeOf_spec]
        omega
  | .subscript value slice, h =>
      rcases List.mem_cons.mp h with rfl | h
      · simp +arith
      · have := sizeOf_sliceSlots_le h
        simp only [subscript.sizeOf_spec]
        omega
  | .list items, h | .tuple items, h =>
      obtain ⟨item, hitem, rfl⟩ := List.mem_map.mp h
      have := sizeOf_itemSlot_le item
      have := List.sizeOf_lt_of_mem hitem
      simp only [list.sizeOf_spec, tuple.sizeOf_spec]
      omega
  | .dict entries, h =>
      obtain ⟨e, he, hs⟩ := List.mem_flatMap.mp h
      have := sizeOf_entrySlots_lt hs
      have := List.sizeOf_lt_of_mem he
      simp only [dict.sizeOf_spec]
      omega
  | .unary op operand, h =>
      obtain rfl := List.mem_singleton.mp h
      simp +arith
  | .binary left op right, h =>
      simp only [slots, List.mem_cons, List.not_mem_nil, or_false] at h
      rcases h with rfl | rfl <;> simp +arith
  | .compare left links, h =>
      rcases List.mem_cons.mp h with rfl | h
      · simp +arith
      · obtain ⟨link, hlink, rfl⟩ := List.mem_map.mp h
        have := sizeOf_link_lt link
        have := List.sizeOf_lt_of_mem hlink
        simp only [compare.sizeOf_spec]
        omega

/-- What holds of a node when it holds of all its parts holds of every tree. -/
@[elab_as_elim]
theorem slotInduction {motive : Node → Prop}
    (step : ∀ t, (∀ s ∈ t.slots, motive s.node) → motive t) (t : Node) : motive t :=
  step t fun s _hs => slotInduction step s.node
termination_by sizeOf t
decreasing_by exact sizeOf_slot_lt _hs

/-! ## Folding over slots -/

/-- A bound on the largest of some numbers bounds each of them. -/
theorem foldr_max_le {ms : List Nat} {n : Nat} : ms.foldr max 0 ≤ n ↔ ∀ m ∈ ms, m ≤ n := by
  induction ms with
  | nil => simp
  | cons m ms ih => rw [List.foldr_cons, Nat.max_le, ih, List.forall_mem_cons]

/-- The longest way from the root of a tree, where each slot counts some steps. -/
def nesting (steps : Slot → Nat) (t : Node) : Nat :=
  (t.slots.attach.map fun s => s.val.node.nesting steps + steps s.val).foldr max 0
termination_by sizeOf t
decreasing_by exact sizeOf_slot_lt s.property

/-- A bound on the longest way bounds the ways through every slot. -/
theorem nesting_le {steps : Slot → Nat} {t : Node} {n : Nat} :
    t.nesting steps ≤ n ↔ ∀ s ∈ t.slots, s.node.nesting steps + steps s ≤ n := by
  rw [nesting, foldr_max_le]
  simp

/-- The sum of what every node costs, where each slot costs something too. -/
def total (own : Node → Nat) (charge : Slot → Nat) (t : Node) : Nat :=
  own t + (t.slots.attach.map fun s => s.val.node.total own charge + charge s.val).sum
termination_by sizeOf t
decreasing_by exact sizeOf_slot_lt s.property

theorem total_eq (own : Node → Nat) (charge : Slot → Nat) (t : Node) :
    t.total own charge
      = own t + (t.slots.map fun s => s.node.total own charge + charge s).sum := by
  rw [total, List.attach_map_val (f := fun s : Slot => s.node.total own charge + charge s)]

end Node

end CallSite
