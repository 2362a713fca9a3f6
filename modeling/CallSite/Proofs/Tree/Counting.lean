import CallSite.Proofs.Tree.Price

/-!
# Counting — names and numbers of some kind in a tree and in its texts

A toll that charges for the tokens of some kind only counts them.  Every text of a tree holds at
least as many as the tree does, and the written tokens hold no more.
-/

namespace CallSite

/-- The tokens that are charged for themselves: names, bytes and numbers. -/
def Token.isLeaf : Token → Bool
  | .ident _ | .bytes _ | .int _ | .float _ => true
  | _ => false

namespace Toll

variable {P : Token → Bool} {p : Place} {ts : List Token}

/-- Charges for the names, bytes and numbers of some kind. -/
def counting (P : Token → Bool) : Toll := ⟨fun tok => if P tok then 1 else 0, 0, 0⟩

theorem one_counting (tok : Token) :
    (counting P).one p tok = if (tok.isLeaf && P tok) = true then 1 else 0 := by
  cases tok with
  | mark m => cases m <;> first | rfl | exact ite_self _
  | _ => rfl

theorem cost_counting : (counting P).cost p ts = ts.countP fun tok => tok.isLeaf && P tok := by
  induction ts generalizing p with
  | nil => rfl
  | cons tok ts ih => rw [cost_cons, ih, one_counting, List.countP_cons, Nat.add_comm]

/-- Nothing is charged iff there is no such token. -/
theorem cost_counting_eq_zero :
    (counting P).cost p ts = 0 ↔ ∀ tok ∈ ts, tok.isLeaf = true → P tok = false := by
  rw [cost_counting, List.countP_eq_zero]
  refine forall₂_congr fun tok _ => ?_
  cases tok.isLeaf <;> cases P tok <;> simp

end Toll

namespace Node

variable {P : Token → Bool}

/-- What costs nothing has no token of the kind at any node, and the other way round. -/
theorem toll_counting_pos {t : Node} (h : t.Lawful) :
    0 < t.toll (.counting P) ↔ t.Contains fun u => 0 < u.own (.counting P) := by
  have hseated : Seated fun u => 0 < u.own (.counting P) :=
    ⟨fun v => Nat.lt_irrefl 0, fun items _ => Nat.lt_irrefl 0⟩
  induction t using Node.slotInduction with
  | step t ih =>
      have hcharge (s : Slot) : charge (.counting P) s = 0 := ite_self _
      rw [toll_eq]
      simp only [hcharge, Nat.add_zero]
      constructor
      · intro hpos
        by_cases hown : 0 < t.own (.counting P)
        · exact .here hown
        · by_cases hall : ∀ s ∈ t.slots, s.node.toll (.counting P) = 0
          · have hzero : (t.slots.map fun s => s.node.toll (.counting P)).sum = 0 :=
              List.sum_eq_zero fun n hn => by
                obtain ⟨s, hs, rfl⟩ := List.mem_map.mp hn
                exact hall s hs
            omega
          · push Not at hall
            obtain ⟨s, hs, hne⟩ := hall
            exact .of_slot hs ((ih s hs (h.slot hs)).mp (Nat.pos_of_ne_zero hne))
      · intro hcontains
        rcases hcontains.here_or_slot hseated h.isStarred with hown | ⟨s, hs, hpart⟩
        · exact Nat.add_pos_left hown _
        · have hpos := (ih s hs (h.slot hs)).mpr hpart
          have hle := List.le_sum_of_mem (List.mem_map_of_mem (f := fun s : Slot =>
            s.node.toll (.counting P)) hs)
          omega

end Node

end CallSite
