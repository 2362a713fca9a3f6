import CallSite.Node

/-!
# Equality of nodes — trees compared by value

Two trees are equal by value when they have the same shape and equal constants, where floating-point
constants compare as numbers: a tree that holds a NaN equals nothing, not even itself.
-/

namespace CallSite

mutual

/-- Equality by value. -/
def Node.eqv : Node → Node → Bool
  | .name a, .name b => a == b
  | .constant a, .constant b => a.eqv b
  | .attribute v a, .attribute w b => v.eqv w && a == b
  | .call ⟨f, as, ks⟩, .call ⟨g, bs, ls⟩ => f.eqv g && eqvNodes as bs && eqvKeywords ks ls
  | .subscript v a, .subscript w b => v.eqv w && a.eqv b
  | .list as, .list bs => eqvNodes as bs
  | .tuple as, .tuple bs => eqvNodes as bs
  | .dict es, .dict fs => eqvEntries es fs
  | .unary o a, .unary p b => o == p && a.eqv b
  | .binary a o b, .binary c p d => a.eqv c && o == p && b.eqv d
  | .compare a ls, .compare b ms => a.eqv b && eqvLinks ls ms
  | .starred a, .starred b => a.eqv b
  | _, _ => false

/-- Equality by value, item by item. -/
def eqvNodes : List Node → List Node → Bool
  | [], [] => true
  | a :: as, b :: bs => a.eqv b && eqvNodes as bs
  | _, _ => false

/-- Equality by value of keyword arguments. -/
def eqvKeywords : List (Keyword Node) → List (Keyword Node) → Bool
  | [], [] => true
  | .named n a :: as, .named m b :: bs => n == m && a.eqv b && eqvKeywords as bs
  | .unpacked a :: as, .unpacked b :: bs => a.eqv b && eqvKeywords as bs
  | _, _ => false

/-- Equality by value of dictionary entries. -/
def eqvEntries : List (Entry Node) → List (Entry Node) → Bool
  | [], [] => true
  | .item k a :: as, .item l b :: bs => k.eqv l && a.eqv b && eqvEntries as bs
  | .unpacked a :: as, .unpacked b :: bs => a.eqv b && eqvEntries as bs
  | _, _ => false

/-- Equality by value of the links of a chain. -/
def eqvLinks : List (Link Node) → List (Link Node) → Bool
  | [], [] => true
  | ⟨o, a⟩ :: as, ⟨p, b⟩ :: bs => o == p && a.eqv b && eqvLinks as bs
  | _, _ => false

end

end CallSite
