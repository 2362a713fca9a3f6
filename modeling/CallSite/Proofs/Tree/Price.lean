import CallSite.Proofs.Tree.Writing

/-!
# Price — what the written tokens of a tree cost

Written with as few parentheses as possible, a tree costs no more than its toll, which every text of
the tree pays (`Lawful.cost_le`).  It costs less when a star has too loose an operand or a slice is
a tuple with a starred item: there a parenthesis is missing that no text of the tree can do without.
-/

namespace CallSite

open Piece

/-! ## Rows -/

section

variable {α : Type} {write : α → List Piece} {as : List α}

/-- A row costs what its items cost. -/
theorem cost_row (σ : Toll) (h : ∀ a ∈ as, Closes (tokens (write a))) :
    σ.cost .opened (tokens (commaSeparated (as.map write)))
      = (as.map fun a => σ.cost .opened (tokens (write a))).sum := by
  induction as with
  | nil => rfl
  | cons a as ih =>
      have hrest := ih fun b hb => h b (List.mem_cons_of_mem a hb)
      cases as with
      | nil => simp [tokens_commaSeparated_singleton]
      | cons b as =>
          rw [List.map_cons, List.map_cons, tokens_commaSeparated_cons,
            Toll.cost_closes (h a List.mem_cons_self), Toll.cost_separator rfl]
          exact congrArg (_ + ·) hrest

/-- The comma of a tuple with one item costs nothing. -/
theorem cost_tupleItems {σ : Toll} (h : ∀ a ∈ as, Closes (tokens (write a))) :
    σ.cost .opened (tokens (tupleItems (as.map write)))
      = (as.map fun a => σ.cost .opened (tokens (write a))).sum := by
  cases as with
  | nil => rfl
  | cons a as =>
      rw [List.map_cons, tokens_tupleItems_cons, Toll.cost_closes (h a List.mem_cons_self),
        Toll.cost_separator rfl, cost_row _ fun b hb => h b (List.mem_cons_of_mem a hb)]
      rfl

end

/-! ## Written tokens cost what the tree costs -/

/-- Without a sign it is the same to stand behind a power. -/
theorem Unsigned.cost {σ : Toll} {ts : List Token} (h : Unsigned ts) :
    σ.cost .power ts = σ.cost .opened ts := by
  obtain ⟨tok, rest, rfl, htok⟩ := h
  have hafter : Place.after .power tok = Place.after .opened tok := by
    simp [Place.after]
  have hone : σ.one .power tok = σ.one .opened tok := by
    cases tok with
    | mark m => cases m <;> first | rfl | exact absurd htok (by decide)
    | _ => rfl
  rw [Toll.cost_cons, Toll.cost_cons, hafter, hone]

namespace Node

/-- Only the signs and what binds looser begin with a sign. -/
theorem Lawful.unsigned {t : Node} (h : t.Lawful) (hprec : 12 ≤ t.precedence) :
    Unsigned t.tokens := by
  induction t using Node.slotInduction with
  | step t ih =>
      have hbase : ∀ v, ⟨.base, v⟩ ∈ t.slots → Unsigned (Slot.tokens ⟨.base, v⟩) := by
        intro v hv
        rw [Slot.tokens_eq (s := ⟨.base, v⟩) nofun]
        split
        · exact ⟨_, _, rfl, rfl⟩
        · rename_i hlt
          have hthirteen : 13 ≤ v.precedence := Nat.le_of_not_lt hlt
          exact ih _ hv (h.slot hv) (Nat.le_of_succ_le hthirteen)
      match t, h, hprec, hbase with
      | .name id, _, _, _ => exact ⟨_, _, rfl, rfl⟩
      | .constant value, _, _, _ =>
          refine ⟨_, _, rfl, ?_⟩
          cases value with
          | bool b => cases b <;> rfl
          | _ => rfl
      | .attribute value attr, _, _, hbase =>
          rw [tokens_attribute]
          exact (hbase _ (List.mem_singleton_self _)).append
      | .call ⟨func, args, keywords⟩, _, _, hbase =>
          rw [tokens_call]
          exact (hbase _ List.mem_cons_self).append.append
      | .subscript value slice, _, _, hbase =>
          rw [tokens_subscript]
          exact (hbase _ List.mem_cons_self).append.append
      | .list items, _, _, _ =>
          rw [tokens_list]
          exact ⟨_, _, rfl, rfl⟩
      | .tuple items, _, _, _ =>
          rw [tokens_tuple]
          exact ⟨_, _, rfl, rfl⟩
      | .dict entries, _, _, _ =>
          rw [tokens_dict]
          exact ⟨_, _, rfl, rfl⟩
      | .unary op operand, _, hprec, _ =>
          have hop : 12 ≤ op.precedence := hprec
          cases op <;> exact absurd hop (by decide)
      | .binary left op right, _, hprec, hbase =>
          have hop : 12 ≤ op.precedence := hprec
          obtain rfl : op = .pow := by
            cases op <;> first | rfl | exact absurd hop (by decide)
          rw [tokens_binary]
          exact (hbase _ List.mem_cons_self).append
      | .compare left links, h, hprec, _ =>
          have hfour := h.fitting.precedence_compare
          omega
      | .starred v, h, _, _ => exact h.fitting.elim

end Node

/-- The price of a part as it is written. -/
def Slot.cost (σ : Toll) (s : Slot) : Nat := σ.cost s.seat.place s.tokens

namespace Node

variable {σ : Toll}

theorem cost_item {t : Node} : σ.cost .opened t.tokens = σ.cost .opened t.itemSlot.tokens := by
  rw [tokens_itemSlot]
  split
  · exact Toll.cost_separator rfl
  · rfl

theorem cost_argument {t : Node} :
    σ.cost .opened t.tokens = σ.cost .opened t.argumentSlot.tokens := by
  rw [tokens_argumentSlot]
  split
  · exact Toll.cost_separator rfl
  · rfl

theorem cost_keyword (k : Keyword Node) :
    σ.cost .opened (Piece.tokens (k.written pieces))
      = k.price σ + Slot.cost σ k.value.inside := by
  cases k with
  | named id value =>
      show σ.leaf (.ident id) + σ.cost _ (.mark .assign :: value.tokens) = _
      rw [Toll.cost_separator rfl]
      rfl
  | unpacked value => exact Toll.cost_expansion.trans (Nat.zero_add _).symm

/-- The arguments of a call cost what is written of them, and the names of the keyword arguments. -/
theorem cost_arguments {args : List Node} {keywords : List (Keyword Node)}
    (hargs : ∀ arg ∈ args, Closes arg.tokens) (hkeywords : ∀ k ∈ keywords, Closes k.value.tokens) :
    σ.cost .opened (Piece.tokens
        (commaSeparated (args.map pieces ++ keywords.map (Keyword.written pieces))))
      = ((args.map argumentSlot).map (Slot.cost σ)).sum
        + ((keywords.map (Keyword.price σ)).sum
          + ((keywords.map fun k => k.value.inside).map (Slot.cost σ)).sum) := by
  have hcloses : ∀ ps ∈ args.map pieces ++ keywords.map (Keyword.written pieces),
      Closes (Piece.tokens (id ps)) := by
    intro ps hps
    rcases List.mem_append.mp hps with hps | hps
    · obtain ⟨arg, harg, rfl⟩ := List.mem_map.mp hps
      exact hargs arg harg
    · obtain ⟨k, hk, rfl⟩ := List.mem_map.mp hps
      exact closes_keyword (hkeywords k hk)
  have hcost := cost_row σ hcloses
  rw [List.map_id] at hcost
  rw [hcost, List.map_append, List.sum_append, List.map_map, List.map_map, List.map_map,
    List.map_map]
  refine congrArg₂ (· + ·) (congrArg List.sum (List.map_congr_left fun arg _ => ?_)) ?_
  · have hplace : arg.argumentSlot.seat.place = .opened := by
      cases arg <;> rfl
    show σ.cost .opened arg.tokens = σ.cost _ _
    rw [hplace]
    exact cost_argument
  · rw [← List.sum_map_add]
    exact congrArg List.sum (List.map_congr_left fun k _ => cost_keyword k)

theorem cost_entry {e : Entry Node} (h : ∀ s ∈ entrySlots e, Closes s.node.tokens) :
    σ.cost .opened (Piece.tokens (e.written pieces)) = ((entrySlots e).map (Slot.cost σ)).sum := by
  cases e with
  | item key value =>
      have hkey : Closes key.tokens := h key.inside List.mem_cons_self
      rw [Entry.written, tokens_append]
      show σ.cost .opened (key.tokens ++ .mark .colon :: value.tokens) = _
      rw [Toll.cost_closes hkey, Toll.cost_separator rfl]
      rfl
  | unpacked value => exact Toll.cost_expansion

/-- What the parentheses would cost that a tuple with a starred item loses as a slice. -/
def spared (σ : Toll) : Node → Nat
  | .subscript _ (.tuple items) => if items.any isStarred then σ.paren else 0
  | _ => 0

theorem cost_items {items : List Node} :
    (items.map fun t => σ.cost .opened (Piece.tokens t.pieces)).sum
      = ((items.map itemSlot).map (Slot.cost σ)).sum := by
  rw [List.map_map]
  refine congrArg List.sum (List.map_congr_left fun t ht => ?_)
  have hplace : t.itemSlot.seat.place = .opened := by
    cases t <;> rfl
  show σ.cost .opened t.tokens = σ.cost _ _
  rw [hplace]
  exact cost_item

theorem closes_items (items : List Node) (h : ∀ s ∈ items.map itemSlot, s.node.Lawful) :
    ∀ t ∈ items, Closes (Piece.tokens t.pieces) := fun _ ht =>
  closes_item (closes_slotTokens (h _ (List.mem_map_of_mem ht)).closes)

/-- Between the brackets of a subscript a tuple has no parentheses of its own. -/
theorem cost_sliced (σ : Toll) (value : Node) {slice : Node} (h : ∀ s ∈ slice.sliceSlots, s.node.Lawful) :
    σ.cost .opened (Piece.tokens slice.sliced) + spared σ (.subscript value slice)
      = (slice.sliceSlots.map (Slot.cost σ)).sum := by
  cases slice with
  | tuple items =>
      cases items with
      | nil => rfl
      | cons item items =>
          show σ.cost .opened (Piece.tokens (tupleItems (piecesOfEach (item :: items)))) + _ = _
          rw [piecesOfEach_eq]
          by_cases hstar : (item :: items).any isStarred = true
          · have hslots : sliceSlots (.tuple (item :: items)) = [inside (.tuple (item :: items))] :=
              if_pos hstar
            rw [hslots] at h ⊢
            have hitems := closes_items (item :: items)
              fun _ => (h _ (List.mem_singleton_self _)).slot
            have hspared : spared σ (.subscript value (.tuple (item :: items))) = σ.paren :=
              if_pos hstar
            have htuple : Slot.cost σ (inside (.tuple (item :: items)))
                = σ.paren + σ.cost .opened (Piece.tokens (tupleItems ((item :: items).map pieces))) := by
              show σ.cost .opened (Node.tuple (item :: items)).tokens = _
              rw [tokens_tuple, Toll.cost_close rfl, Toll.cost_leftParen]
            rw [hspared, show (List.map (Slot.cost σ) [inside (.tuple (item :: items))]).sum
              = Slot.cost σ (inside (.tuple (item :: items))) from Nat.add_zero _, htuple]
            exact Nat.add_comm ..
          · have hslots : sliceSlots (.tuple (item :: items)) = (item :: items).map inside :=
              if_neg hstar
            rw [hslots] at h ⊢
            have hspared : spared σ (.subscript value (.tuple (item :: items))) = 0 :=
              if_neg hstar
            have hitems : ∀ t ∈ item :: items, Closes (Piece.tokens t.pieces) :=
              fun t ht => (h t.inside (List.mem_map_of_mem ht)).closes
            rw [hspared, cost_tupleItems hitems, List.map_map]
            rfl
  | _ => exact (Nat.add_zero _).trans (Nat.add_zero _).symm

theorem cost_links {links : List (Link Node)}
    (h : ∀ link ∈ links, link.op.isComparison = true ∧ Closes (Slot.tokens ⟨.operand 5, link.operand⟩)) :
    σ.cost .closed (links.flatMap fun link => link.op.token :: Slot.tokens ⟨.operand 5, link.operand⟩)
      = ((links.map fun link => ⟨.operand 5, link.operand⟩).map (Slot.cost σ)).sum := by
  induction links with
  | nil => rfl
  | cons link links ih =>
      obtain ⟨hcomp, hcloses⟩ := h link List.mem_cons_self
      have hpow := BinaryOp.not_rightAssoc_of_comparison hcomp
      rw [List.flatMap_cons, List.cons_append, Toll.cost_cons, Toll.one_binary, Toll.after_binary,
        hpow, if_neg Bool.false_ne_true, Toll.cost_closes hcloses,
        ih fun l hl => h l (List.mem_cons_of_mem _ hl), Nat.zero_add]
      rfl

/-- The written tokens pay for the node itself and for its parts as they are written. -/
theorem Lawful.cost_tokens {t : Node} (h : t.Lawful) (σ : Toll) :
    σ.cost .opened t.tokens + t.spared σ = t.own σ + (t.slots.map (Slot.cost σ)).sum := by
  have hslot : ∀ s ∈ t.slots, Closes s.tokens :=
    fun s hs => closes_slotTokens (h.slot hs).closes
  match t, h, hslot with
  | .name id, _, _ => rfl
  | .constant value, _, _ => rfl
  | .attribute value attr, _, hslot =>
      rw [tokens_attribute, Toll.cost_closes (hslot _ (List.mem_singleton_self _)),
        Toll.cost_separator rfl]
      simp [spared, own, slots, Slot.cost, Seat.place, Toll.one]
      omega
  | .call ⟨func, args, keywords⟩, h, hslot =>
      have hargs : ∀ arg ∈ args, Closes arg.tokens := fun arg harg =>
        closes_argument (hslot _ (List.mem_cons_of_mem _
          (List.mem_append_left _ (List.mem_map_of_mem harg))))
      have hkeywords : ∀ k ∈ keywords, Closes k.value.tokens := fun k hk =>
        hslot k.value.inside (List.mem_cons_of_mem _
          (List.mem_append_right _ (List.mem_map.mpr ⟨k, hk, rfl⟩)))
      rw [tokens_call, Toll.cost_close rfl, Toll.cost_closes (hslot _ List.mem_cons_self),
        Toll.cost_leftParen, cost_arguments hargs hkeywords]
      simp only [spared, own, slots, List.map_cons, List.sum_cons, List.map_append,
        List.sum_append, Slot.cost, Seat.place]
      omega
  | .subscript value slice, h, hslot =>
      have hslice := cost_sliced σ value
        fun s hs => h.slot (List.mem_cons_of_mem _ hs)
      rw [tokens_subscript, Toll.cost_close rfl, Toll.cost_closes (hslot _ List.mem_cons_self),
        Toll.cost_separator rfl, Nat.add_assoc, hslice]
      exact (Nat.zero_add _).symm
  | .list items, h, _ =>
      rw [tokens_list, Toll.cost_close rfl, Toll.cost_separator rfl,
        cost_row _ (closes_items items fun _ => h.slot), cost_items]
      exact (Nat.zero_add _).symm
  | .tuple items, h, _ =>
      rw [tokens_tuple, Toll.cost_close rfl, Toll.cost_leftParen,
        cost_tupleItems (closes_items items fun _ => h.slot), cost_items]
      rfl
  | .dict entries, h, _ =>
      have hentry : ∀ e ∈ entries, ∀ s ∈ entrySlots e, Closes s.node.tokens := fun e he s hs =>
        (h.slot (List.mem_flatMap.mpr ⟨e, he, hs⟩)).closes
      rw [tokens_dict, Toll.cost_close rfl, Toll.cost_separator rfl,
        cost_row _ fun e he => closes_entry (hentry e he)]
      have hsum : (entries.map fun e => σ.cost .opened (Piece.tokens (e.written pieces)))
          = entries.map fun e => ((entrySlots e).map (Slot.cost σ)).sum :=
        List.map_congr_left fun e he => cost_entry (hentry e he)
      rw [hsum, ← Grammar.sum_map_flatMap]
      exact (Nat.zero_add _).symm
  | .unary op operand, _, _ =>
      rw [tokens_unary]
      cases op <;> simp [spared, own, slots, Slot.cost, Seat.place, Toll.one, UnaryOp.token, Place.after, Token.ends]
  | .binary left op right, _, hslot =>
      rw [tokens_binary, Toll.cost_closes (hslot _ List.mem_cons_self), Toll.cost_cons,
        Toll.one_binary]
      simp only [spared, own, slots, Slot.cost, place_leftSeat, place_rightSeat, List.map_cons,
        List.map_nil, List.sum_cons, List.sum_nil]
      omega
  | .compare left links, h, hslot =>
      rw [tokens_compare, Toll.cost_closes (hslot _ List.mem_cons_self),
        cost_links fun link hlink => ⟨h.fitting.2 link hlink, hslot _ (List.mem_cons_of_mem _
          (List.mem_map.mpr ⟨link, hlink, rfl⟩))⟩]
      exact (Nat.zero_add _).symm
  | .starred v, h, _ => exact h.fitting.elim

/-- A part as it is written costs no more than the part and the parentheses around it, and less if
    it stands behind a star without them. -/
theorem cost_slot_le (σ : Toll) {s : Slot} (h : s.node.Lawful) :
    s.cost σ + (if s.seat = .nested BinaryOp.bitOr.precedence ∧ s.node.isLoose = true
        then σ.paren else 0)
      ≤ σ.cost .opened s.node.tokens + charge σ s := by
  by_cases hstar : s.seat = .nested BinaryOp.bitOr.precedence
  · have hcost : s.cost σ = σ.cost .opened s.node.tokens := by
      rw [Slot.cost, Slot.tokens_star hstar, hstar]
      rfl
    rw [hcost]
    by_cases hloose : s.node.isLoose = true
    · have hcharge : charge σ s = σ.paren := by
        rw [charge, hstar]
        exact if_pos (h.isLoose.mp hloose)
      rw [if_pos ⟨hstar, hloose⟩, hcharge]
    · rw [if_neg fun hboth => hloose hboth.2]
      exact Nat.le_add_right _ _
  · rw [if_neg fun hboth => hstar hboth.1, Nat.add_zero, Slot.cost, Slot.tokens_eq hstar, charge]
    by_cases hlt : s.node.precedence < s.seat.writtenLevel
    · rw [if_pos hlt, if_pos hlt, Toll.cost_close rfl, Toll.cost_leftParen, Nat.add_comm]
    · rw [if_neg hlt, if_neg hlt, Nat.add_zero]
      cases hseat : s.seat with
      | exponent =>
          rw [hseat] at hlt
          exact Nat.le_of_eq (h.unsigned (Nat.le_of_not_lt hlt)).cost
      | _ => exact Nat.le_refl _

/-- Where a starred item keeps no parentheses, something is spared at a slot or as a slice. -/
theorem BareStar.spares {t : Node} (h : t.BareStar) (σ : Toll) :
    t.spared σ = σ.paren
      ∨ ∃ s ∈ t.slots, s.seat = .nested BinaryOp.bitOr.precedence ∧ s.node.isLoose = true := by
  cases h with
  | list hmem hloose | tuple hmem hloose =>
      exact Or.inr ⟨_, List.mem_map_of_mem hmem, rfl, hloose⟩
  | dict hmem hloose =>
      exact Or.inr ⟨_, List.mem_flatMap.mpr ⟨_, hmem, List.mem_singleton_self _⟩, rfl, hloose⟩
  | slice hmem => exact Or.inl (if_pos (List.any_eq_true.mpr ⟨_, hmem, rfl⟩))

/-- The written tokens of a tree cost no more than the tree, and less where a star has too loose an
    operand or a slice is a tuple with a starred item. -/
theorem Lawful.cost_le {t : Node} (h : t.Lawful) (σ : Toll) :
    σ.cost .opened t.tokens ≤ t.toll σ
      ∧ (0 < σ.paren → t.Contains BareStar → σ.cost .opened t.tokens < t.toll σ) := by
  induction t using Node.slotInduction with
  | step t ih =>
      have hcost := h.cost_tokens σ
      have htoll := t.toll_eq σ
      have hle : ∀ s ∈ t.slots, s.cost σ ≤ s.node.toll σ + charge σ s := by
        intro s hs
        have hslot := cost_slot_le σ (h.slot hs)
        have hpart := (ih s hs (h.slot hs)).1
        omega
      have hsum := List.sum_le_sum hle
      refine ⟨by omega, fun hparen hcontains => ?_⟩
      -- something is spared here, or already in a part
      have hstrict (hslot : ∃ s ∈ t.slots, s.cost σ < s.node.toll σ + charge σ s) :
          σ.cost .opened t.tokens < t.toll σ := by
        have := List.sum_lt_sum _ _ hle hslot
        omega
      rcases hcontains.here_or_slot bareStar_seated h.isStarred with hhere | ⟨s, hs, hpart⟩
      · rcases hhere.spares σ with hspared | ⟨s, hs, hbare⟩
        · omega
        · refine hstrict ⟨s, hs, ?_⟩
          have hslot := cost_slot_le σ (h.slot hs)
          rw [if_pos hbare] at hslot
          have hpart := (ih s hs (h.slot hs)).1
          omega
      · refine hstrict ⟨s, hs, ?_⟩
        have hslot := cost_slot_le σ (h.slot hs)
        have hlt := (ih s hs (h.slot hs)).2 hparen hpart
        omega

end Node

end CallSite
