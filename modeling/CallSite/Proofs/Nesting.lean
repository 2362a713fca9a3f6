import CallSite.Proofs.RoundTrip

/-!
# Nesting — how deep the trees of source texts are

A text is refused when its operands are nested too deeply, and on every way into the tree of an
accepted text the brackets and unary operators are fewer than `maxNesting`.  The right operands of
powers are not among them: behind as many brackets there may be as many powers as one likes
(`exists_way_iff`).
-/

namespace CallSite

open Grammar

/-! ## Ways into a tree -/

namespace Node

/-- The slots between the brackets of a subscript, where the items of a tuple take its place. -/
def sliceItems : Node → List Slot
  | .tuple (item :: items) => (item :: items).map itemSlot
  | slice => [slice.inside]

/-- The parts of a node, where a tuple that is a slice and its items are one step. -/
def parts : Node → List Slot
  | .subscript value slice => ⟨.base, value⟩ :: slice.sliceItems
  | t => t.slots

end Node

/-- How many right operands of powers a seat is. -/
def Seat.powers : Seat → Nat
  | .exponent => 1
  | _ => 0

/-- A node is found in a tree behind so many brackets and unary operators, and to the right of so
    many powers. -/
inductive Node.Way (u : Node) : Node → Nat → Nat → Prop where
  | here : Way u u 0 0
  | part {t : Node} {s : Slot} {brackets powers : Nat} :
      s ∈ t.parts → Way u s.node brackets powers →
      Way u t (brackets + s.seat.depth) (powers + s.seat.powers)

/-! ## Brackets and unary operators -/

namespace Node

/-- What stands between the brackets of a subscript stands in a slot, or in a slot of the tuple that
    stands there with its own parentheses. -/
theorem slot_of_sliceItem {slice : Node} {s : Slot} (h : s ∈ slice.sliceItems) :
    s ∈ slice.sliceSlots ∨ ∃ r ∈ slice.sliceSlots, s ∈ r.node.slots := by
  cases slice with
  | tuple items =>
      cases items with
      | nil => exact Or.inl h
      | cons item items =>
          have hitems : s ∈ (item :: items).map itemSlot := h
          by_cases hstar : (item :: items).any isStarred = true
          · have hslots : sliceSlots (.tuple (item :: items)) = [inside (.tuple (item :: items))] :=
              if_pos hstar
            rw [hslots]
            exact Or.inr ⟨_, List.mem_singleton_self _, hitems⟩
          · have hslots : sliceSlots (.tuple (item :: items)) = (item :: items).map inside :=
              if_neg hstar
            obtain ⟨t, ht, rfl⟩ := List.mem_map.mp hitems
            have hplain : t.itemSlot = t.inside := by
              cases t with
              | starred v => exact absurd (List.any_eq_true.mpr ⟨_, ht, rfl⟩) hstar
              | _ => rfl
            rw [hslots, hplain]
            exact Or.inl (List.mem_map_of_mem ht)
  | _ => exact Or.inl h

/-- A part stands in a slot, or in a slot of the tuple that is a slice. -/
theorem slot_of_part {t : Node} {s : Slot} (h : s ∈ t.parts) :
    s ∈ t.slots ∨ ∃ r ∈ t.slots, s ∈ r.node.slots := by
  match t, h with
  | .subscript value slice, h =>
      rcases List.mem_cons.mp h with rfl | h
      · exact Or.inl List.mem_cons_self
      · rcases slot_of_sliceItem h with hs | ⟨r, hr, hs⟩
        · exact Or.inl (List.mem_cons_of_mem _ hs)
        · exact Or.inr ⟨r, List.mem_cons_of_mem _ hr, hs⟩
  | .name _, h | .constant _, h | .attribute _ _, h | .call _, h | .list _, h | .tuple _, h
  | .dict _, h | .unary _ _, h | .binary _ _ _, h | .compare _ _, h | .starred _, h =>
      exact Or.inl h

/-- A part and the brackets around it are no deeper than the tree. -/
theorem nesting_part_le {t : Node} {s : Slot} (h : s ∈ t.parts) :
    s.node.nesting Slot.tightSteps + s.seat.depth ≤ t.nesting Slot.tightSteps := by
  have hslot {t : Node} {s : Slot} (h : s ∈ t.slots) :
      s.node.nesting Slot.tightSteps + s.tightSteps ≤ t.nesting Slot.tightSteps :=
    nesting_le.mp (Nat.le_refl _) s h
  have hsteps : s.seat.depth ≤ s.tightSteps := Nat.le_add_right _ _
  rcases slot_of_part h with hs | ⟨r, hr, hs⟩
  · have := hslot hs
    omega
  · have := hslot hr
    have := hslot hs
    omega

/-- There are no more brackets and unary operators on a way than the tree is nested deep. -/
theorem Way.brackets_le {t u : Node} {brackets powers : Nat} (h : Way u t brackets powers) :
    brackets ≤ t.nesting Slot.tightSteps := by
  induction h with
  | here => exact Nat.zero_le _
  | part hs _ ih =>
      have := nesting_part_le hs
      omega

end Node

/-! ## Trees with a text -/

namespace Node

/-- A tree that is read from its own text, if that is not nested too deeply. -/
structure Clean (t : Node) : Prop where
  lawful : t.Lawful
  flawless : ¬ t.Flawed
  lexed : ∀ tok ∈ t.tokens, tok.Lexed

variable {t : Node}

theorem Clean.ofSource (h : t.Clean) (hn : t.nesting Slot.writtenSteps < maxNesting) :
    Node.ofSource t.source = .ok t := by
  have hbare : ¬ t.Contains BareStar := fun hstar =>
    h.flawless (flawed_iff.mpr (Or.inr (Or.inr hstar)))
  have hsourced : t.Sourced := ⟨t.tokens, h.lexed, derives_tokens h.lawful hbare hn⟩
  exact hsourced.readsBack_iff.mpr ⟨h.flawless, hn⟩

/-- Without flaws in its slots and with none itself, a tree has none. -/
theorem not_flawed_of_slots (h : t.Lawful) (hhere : ¬ t.Flaw)
    (hslots : ∀ s ∈ t.slots, ¬ s.node.Flawed) : ¬ t.Flawed := by
  intro hflawed
  rcases hflawed.here_or_slot flaw_seated h.isStarred with hflaw | ⟨s, hs, hpart⟩
  · exact hhere hflaw
  · exact hslots s hs hpart

/-! ## Chains of powers -/

/-- A chain of powers, each to the right of the one before it. -/
def powerChain : Nat → Node
  | 0 => .constant (.int 1)
  | n + 1 => .binary (.constant (.int 1)) .pow (powerChain n)

theorem powerChain_precedence (n : Nat) : 12 ≤ (powerChain n).precedence := by
  cases n with
  | zero => exact Nat.le_succ 12
  | succ n => exact Nat.le_refl 12

theorem powerChain_way (n : Nat) : Way (powerChain 0) (powerChain n) 0 n := by
  induction n with
  | zero => exact .here
  | succ n ih =>
      have hpart : (⟨.exponent, powerChain n⟩ : Slot) ∈ (powerChain (n + 1)).parts :=
        List.mem_cons_of_mem _ (List.mem_singleton_self _)
      exact .part hpart ih

/-- A chain of powers is written without parentheses. -/
theorem powerChain_pieces (n : Nat) :
    (powerChain (n + 1)).pieces
      = .token (.int 1) :: BinaryOp.pow.pieces ++ (powerChain n).pieces := by
  have hright : Slot.pieces ⟨.exponent, powerChain n⟩
      = Piece.groupedIf ((powerChain n).precedence < 12) (powerChain n).pieces := rfl
  have hleft : Slot.pieces ⟨.base, .constant (.int 1)⟩ = [.token (.int 1)] := by
    show (Node.constant (.int 1)).pieces = _
    rw [pieces]
    rfl
  show (Node.binary (.constant (.int 1)) .pow (powerChain n)).pieces = _
  rw [pieces_binary]
  show Slot.pieces ⟨.base, .constant (.int 1)⟩ ++ _ ++ Slot.pieces ⟨.exponent, powerChain n⟩ = _
  rw [hleft, hright, decide_eq_false (Nat.not_lt.mpr (powerChain_precedence n))]
  rfl

theorem clean_one : Clean (.constant (.int 1)) := by
  have hlawful : Lawful (.constant (.int 1)) := .mk trivial nofun
  refine ⟨hlawful, not_flawed_of_slots hlawful ?_ nofun, fun tok htok => ?_⟩
  · rintro (h | h | h) <;> exact absurd h nofun
  · have htokens : Node.tokens (.constant (.int 1)) = [.int 1] := by
      rw [tokens, pieces]
      rfl
    rw [htokens] at htok
    obtain rfl := List.mem_singleton.mp htok
    exact ⟨by decide, by decide⟩

theorem clean_powerChain (n : Nat) : (powerChain n).Clean := by
  induction n with
  | zero => exact clean_one
  | succ n ih =>
      have hslots : ∀ s ∈ (powerChain (n + 1)).slots, s.node.Clean := by
        intro s hs
        rcases List.mem_cons.mp hs with rfl | hs
        · exact clean_one
        · obtain rfl := List.mem_singleton.mp hs
          exact ih
      have hlawful : (powerChain (n + 1)).Lawful := .mk rfl fun s hs => (hslots s hs).lawful
      refine ⟨hlawful, not_flawed_of_slots hlawful ?_ fun s hs => (hslots s hs).flawless, ?_⟩
      · rintro (h | h | h) <;> exact absurd h nofun
      · intro tok htok
        have htokens : (powerChain (n + 1)).tokens
            = .int 1 :: .mark .doubleStar :: (powerChain n).tokens := by
          rw [tokens, powerChain_pieces]
          rfl
        rw [htokens] at htok
        rcases List.mem_cons.mp htok with rfl | htok
        · exact ⟨by decide, by decide⟩
        · rcases List.mem_cons.mp htok with rfl | htok
          · trivial
          · exact ih.lexed tok htok

theorem powerChain_nesting (n : Nat) : (powerChain n).nesting Slot.writtenSteps ≤ 0 := by
  induction n with
  | zero => exact nesting_le.mpr nofun
  | succ n ih =>
      refine nesting_le.mpr fun s hs => ?_
      rcases List.mem_cons.mp hs with rfl | hs
      · exact nesting_le.mpr nofun
      · obtain rfl := List.mem_singleton.mp hs
        have hsteps : Slot.writtenSteps ⟨.exponent, powerChain n⟩ = 0 := by
          show 0 + (if (powerChain n).precedence < 12 then 1 else 0) = 0
          rw [if_neg (Nat.not_lt.mpr (powerChain_precedence n))]
        show (powerChain n).nesting Slot.writtenSteps + Slot.writtenSteps ⟨.exponent, powerChain n⟩
          ≤ 0
        rw [hsteps]
        exact ih

/-! ## Brackets around a chain -/

/-- A tree in brackets. -/
def bracketed : Nat → Node → Node
  | 0, t => t
  | n + 1, t => .list [bracketed n t]

theorem itemSlot_of_lawful (h : t.Lawful) : t.itemSlot = t.inside := by
  cases t with
  | starred v => exact h.fitting.elim
  | _ => rfl

theorem Clean.list (h : t.Clean) : Clean (.list [t]) := by
  have hslots : slots (.list [t]) = [t.inside] := by
    rw [slots, List.map_singleton, itemSlot_of_lawful h.lawful]
  have hclean : ∀ s ∈ slots (.list [t]), s.node.Clean := by
    intro s hs
    rw [hslots] at hs
    obtain rfl := List.mem_singleton.mp hs
    exact h
  have hlawful : Lawful (.list [t]) := .mk trivial fun s hs => (hclean s hs).lawful
  refine ⟨hlawful, not_flawed_of_slots hlawful ?_ fun s hs => (hclean s hs).flawless, ?_⟩
  · rintro (h' | h' | h')
    · cases h'
    · cases h'
    · cases h' with
      | list hmem _ =>
          obtain rfl := List.mem_singleton.mp hmem
          exact h.lawful.fitting
  · intro tok htok
    rw [tokens_list, List.map_singleton, Piece.tokens_commaSeparated_singleton] at htok
    rcases List.mem_cons.mp htok with rfl | htok
    · trivial
    · rcases List.mem_append.mp htok with htok | htok
      · exact h.lexed tok htok
      · obtain rfl := List.mem_singleton.mp htok
        trivial

theorem clean_bracketed (h : t.Clean) (n : Nat) : (bracketed n t).Clean := by
  induction n with
  | zero => exact h
  | succ n ih => exact ih.list

theorem bracketed_nesting (h : t.Clean) (n : Nat) :
    (bracketed n t).nesting Slot.writtenSteps ≤ t.nesting Slot.writtenSteps + n := by
  induction n with
  | zero => exact Nat.le_refl _
  | succ n ih =>
      refine nesting_le.mpr fun s hs => ?_
      obtain rfl := List.mem_singleton.mp hs
      rw [itemSlot_of_lawful (clean_bracketed h n).lawful]
      exact Nat.succ_le_succ ih

theorem bracketed_way {u : Node} {powers : Nat} (h : t.Clean) (hway : Way u t 0 powers) (n : Nat) :
    Way u (bracketed n t) n powers := by
  induction n with
  | zero => exact hway
  | succ n ih =>
      have hpart : inside (bracketed n t) ∈ (bracketed (n + 1) t).parts := by
        show _ ∈ [itemSlot (bracketed n t)]
        rw [itemSlot_of_lawful (clean_bracketed h n).lawful]
        exact List.mem_singleton_self _
      exact .part hpart ih

/-- In the tree of some text there is a way with so many brackets and unary operators, and with so
    many right operands of powers, iff the brackets and unary operators alone are few enough. -/
theorem exists_way_iff (brackets powers : Nat) :
    (∃ src t u, Node.ofSource src = .ok t ∧ Way u t brackets powers)
      ↔ brackets < maxNesting := by
  constructor
  · rintro ⟨src, t, u, hread, hway⟩
    exact Nat.lt_of_le_of_lt hway.brackets_le (sourced_of_ofSource hread).tightNesting_lt
  · intro hlt
    have hclean := clean_powerChain powers
    have hnesting := bracketed_nesting hclean brackets
    have hchain := powerChain_nesting powers
    exact ⟨_, bracketed brackets (powerChain powers), powerChain 0,
      (clean_bracketed hclean brackets).ofSource (by omega),
      bracketed_way hclean (powerChain_way powers) brackets⟩

/-- The text of a chain of powers. -/
def powerText (n : Nat) : String :=
  String.ofList ('1' :: (List.replicate n [' ', '*', '*', ' ', '1']).flatten)

theorem powerChain_source (n : Nat) : (powerChain n).source = powerText n := by
  refine congrArg String.ofList ?_
  induction n with
  | zero => rfl
  | succ n ih =>
      rw [powerChain_pieces, List.flatMap_append, ih, List.replicate_succ, List.flatten_cons]
      rfl

/-- A text with more than `maxNesting` powers, each to the right of the one before it, is
    accepted. -/
theorem ofSource_powerText_too_deep :
    Node.ofSource (powerText 101) = .ok (powerChain 101)
      ∧ Way (.constant (.int 1)) (powerChain 101) 0 101 ∧ maxNesting < 0 + 101 := by
  have hnesting : (powerChain 101).nesting Slot.writtenSteps < maxNesting :=
    Nat.lt_of_le_of_lt (powerChain_nesting 101) (by decide)
  refine ⟨?_, powerChain_way 101, by decide⟩
  rw [← powerChain_source]
  exact (clean_powerChain 101).ofSource hnesting

end Node

end CallSite
