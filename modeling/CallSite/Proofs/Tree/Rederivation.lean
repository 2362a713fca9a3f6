import CallSite.Proofs.Tree.Writing

/-!
# Rederivation — the written tokens derive the tree

Unless a star has too loose an operand, or a slice is a tuple with a starred item, the written tokens
of a tree are a text of it: each part is written as its seat asks for, and the written nesting is all
the depth that is needed (`Grammar.derives_tokens`).  That nesting is the least possible one unless a
sign stands to the right of a power, where it is written in parentheses that are not needed
(`writtenNesting_le`).
-/

namespace CallSite

open Piece Grammar

namespace Grammar

variable {inner : Nat → Language Node}

/-- The written tokens of a tree stand for it on every level up to its own. -/
structure Spelled (inner : Nat → Language Node) (t : Node) : Prop where
  base : Expr.atomPrecedence ≤ t.precedence → Postfix inner t.tokens t
  phrase : ∀ p, p ≤ t.precedence → p ≤ 12 → Phrase inner p t.tokens t

theorem Postfix.spelled {t : Node} (h : Postfix inner t.tokens t) : Spelled inner t :=
  ⟨fun _ => h, fun _ _ hp => Phrase.looser (.operand h) hp⟩

theorem Phrase.spelled {t : Node} (h : Phrase inner t.precedence t.tokens t)
    (hprec : t.precedence ≤ 12) : Spelled inner t := by
  refine ⟨fun h13 => ?_, fun p hp _ => h.looser hp⟩
  have : 13 ≤ t.precedence := h13
  omega

/-! ## Parts in their seats -/

/-- What a slot of a node is known by: its level, and the node, where the part is loose behind a
    star or stands to the right of a power. -/
structure SeatedIn (t : Node) (s : Slot) : Prop where
  level : s.seat = .base ∨ s.seat.level ≤ 12
  star : s.seat = .nested BinaryOp.bitOr.precedence → s.node.isLoose = true → t.BareStar
  exponent : s.seat = .exponent → ∃ left, t = .binary left .pow s.node

theorem seatedIn_of_inside {t : Node} {s : Slot} (h : s.seat = .nested 0) : SeatedIn t s := by
  refine ⟨?_, ?_, ?_⟩ <;> rw [h]
  · exact Or.inr (Nat.zero_le _)
  · exact fun hseat => absurd hseat (by decide)
  · exact nofun

theorem seatedIn_base {t v : Node} : SeatedIn t ⟨.base, v⟩ := ⟨Or.inl rfl, nofun, nofun⟩

theorem seatedIn_operand {t v : Node} {p : Nat} (hp : p ≤ 12) : SeatedIn t ⟨.operand p, v⟩ :=
  ⟨Or.inr hp, nofun, nofun⟩

theorem seatedIn_nested {t v : Node} {p : Nat} (hp : p ≤ 12)
    (h : p = BinaryOp.bitOr.precedence → v.isLoose = true → t.BareStar) :
    SeatedIn t ⟨.nested p, v⟩ :=
  ⟨Or.inr hp, fun hseat => h (Seat.nested.inj hseat), nofun⟩

theorem seatedIn_star {t v : Node} (h : v.isLoose = true → t.BareStar) :
    SeatedIn t ⟨.nested BinaryOp.bitOr.precedence, v⟩ :=
  seatedIn_nested (by decide) fun _ => h

theorem seatedIn_item {t item : Node} (h : ∀ v, item = .starred v → v.isLoose = true → t.BareStar) :
    SeatedIn t item.itemSlot := by
  cases item with
  | starred v => exact seatedIn_star (h v rfl)
  | _ => exact seatedIn_of_inside rfl

/-- Every slot of a node is known. -/
theorem seatedIn_of_slot {t : Node} {s : Slot} (hs : s ∈ t.slots) : SeatedIn t s := by
  match t, hs with
  | .attribute value attr, hs =>
      obtain rfl := List.mem_singleton.mp hs
      exact seatedIn_base
  | .call ⟨func, args, keywords⟩, hs =>
      rcases List.mem_cons.mp hs with rfl | hs
      · exact seatedIn_base
      rcases List.mem_append.mp hs with hs | hs
      · obtain ⟨arg, -, rfl⟩ := List.mem_map.mp hs
        cases arg <;> exact seatedIn_of_inside rfl
      · obtain ⟨k, -, rfl⟩ := List.mem_map.mp hs
        exact seatedIn_of_inside rfl
  | .subscript value slice, hs =>
      rcases List.mem_cons.mp hs with rfl | hs
      · exact seatedIn_base
      · exact seatedIn_of_inside (sliceSlots_nested hs)
  | .list items, hs =>
      obtain ⟨item, hmem, rfl⟩ := List.mem_map.mp hs
      exact seatedIn_item fun v hv => .list (hv ▸ hmem)
  | .tuple items, hs =>
      obtain ⟨item, hmem, rfl⟩ := List.mem_map.mp hs
      exact seatedIn_item fun v hv => .tuple (hv ▸ hmem)
  | .dict entries, hs =>
      obtain ⟨e, he, hs⟩ := List.mem_flatMap.mp hs
      cases e with
      | item key value =>
          simp only [Node.entrySlots, List.mem_cons, List.not_mem_nil, or_false] at hs
          rcases hs with rfl | rfl <;> exact seatedIn_of_inside rfl
      | unpacked value =>
          obtain rfl := List.mem_singleton.mp hs
          exact seatedIn_star (.dict he)
  | .unary op operand, hs =>
      obtain rfl := List.mem_singleton.mp hs
      have hop : op.precedence ≠ BinaryOp.bitOr.precedence := by
        cases op <;> decide
      exact seatedIn_nested (Nat.le_succ_of_le op.precedence_le) fun h => absurd h hop
  | .binary left op right, hs =>
      simp only [Node.slots, List.mem_cons, List.not_mem_nil, or_false] at hs
      rcases hs with rfl | rfl
      · have hleft : (Node.leftSeat op = .base ∨ (Node.leftSeat op).level ≤ 12)
            ∧ Node.leftSeat op ≠ .nested BinaryOp.bitOr.precedence
            ∧ Node.leftSeat op ≠ .exponent := by
          cases op <;> decide
        exact ⟨hleft.1, fun h => absurd h hleft.2.1, fun h => absurd h hleft.2.2⟩
      · have hright : (Node.rightSeat op).level ≤ 12
            ∧ Node.rightSeat op ≠ .nested BinaryOp.bitOr.precedence
            ∧ (Node.rightSeat op = .exponent → op = .pow) := by
          cases op <;> decide
        refine ⟨Or.inr hright.1, fun h => absurd h hright.2.1, fun h => ?_⟩
        obtain rfl := hright.2.2 h
        exact ⟨left, rfl⟩
  | .compare left links, hs =>
      rcases List.mem_cons.mp hs with rfl | hs
      · exact seatedIn_operand (by decide)
      · obtain ⟨link, -, rfl⟩ := List.mem_map.mp hs
        exact seatedIn_operand (by decide)

/-- A part that is spelled out is written in its seat, with parentheses where it binds too
    loosely. -/
theorem text_of_spelled {n : Nat} {s : Slot} (hlevel : s.seat = .base ∨ s.seat.level ≤ 12)
    (hnesting : s.node.nesting Slot.writtenSteps + s.writtenSteps ≤ n)
    (hstar : s.seat = .nested BinaryOp.bitOr.precedence → 5 ≤ s.node.precedence)
    (hspelled : ∀ m, s.node.nesting Slot.writtenSteps ≤ m → Spelled (Derives m) s.node) :
    s.seat.Text (Derives n) s.tokens s.node := by
  obtain ⟨seat, t⟩ := s
  by_cases hlt : t.precedence < seat.writtenLevel
  · -- in parentheses, one level deeper
    have hseat : seat ≠ .nested BinaryOp.bitOr.precedence := by
      rintro rfl
      exact absurd (hstar rfl) (Nat.not_le.mpr hlt)
    have hsteps : Slot.writtenSteps ⟨seat, t⟩ = seat.depth + 1 := by
      rw [Slot.writtenSteps, if_pos hlt]
    rw [hsteps] at hnesting
    obtain ⟨m, hm⟩ : ∃ m, n = m + (seat.depth + 1) :=
      ⟨n - (seat.depth + 1), by omega⟩
    have hgroup : Postfix (Derives (m + 1))
        (.mark .leftParen :: t.tokens ++ [.mark .rightParen]) t :=
      .atom (.group ((hspelled m (by omega)).phrase 0 (Nat.zero_le _) (Nat.zero_le _)))
    have htokens : Slot.tokens ⟨seat, t⟩ = .mark .leftParen :: t.tokens ++ [.mark .rightParen] := by
      rw [Slot.tokens_eq hseat, if_pos hlt]
    rw [htokens, hm]
    cases seat with
    | base => exact hgroup
    | operand level =>
        exact Phrase.looser (.operand hgroup) (hlevel.resolve_left nofun)
    | exponent => exact Phrase.looser (.operand hgroup) (by decide)
    | nested level =>
        exact Phrase.looser (.operand hgroup) (hlevel.resolve_left nofun)
  · have htokens : Slot.tokens ⟨seat, t⟩ = t.tokens := by
      by_cases hseat : seat = .nested BinaryOp.bitOr.precedence
      · exact Slot.tokens_star hseat
      · rw [Slot.tokens_eq hseat, if_neg hlt]
    rw [htokens]
    have hwritten : seat.writtenLevel ≤ t.precedence := Nat.le_of_not_lt hlt
    cases seat with
    | base => exact (hspelled n (by omega)).base hwritten
    | operand level => exact (hspelled n (by omega)).phrase level hwritten (hlevel.resolve_left nofun)
    | exponent =>
        have htwelve : 12 ≤ t.precedence := hwritten
        exact (hspelled n (by omega)).phrase 11 (Nat.le_of_succ_le htwelve) (by decide)
    | nested level =>
        have hsteps : Slot.writtenSteps ⟨.nested level, t⟩ = 1 := by
          rw [Slot.writtenSteps, if_neg hlt]
          rfl
        obtain ⟨m, rfl⟩ : ∃ m, n = m + 1 := ⟨n - 1, by omega⟩
        exact (hspelled m (by omega)).phrase level hwritten (hlevel.resolve_left nofun)

/-! ## Nodes part by part -/

/-- An argument as it is written. -/
def Argument.written : Argument → List Piece
  | .plain value => value.pieces
  | .starred value => .mark .star :: value.pieces
  | .named id value => .token (.ident id) :: .mark .assign :: value.pieces
  | .unpacked value => .mark .doubleStar :: value.pieces

/-- A positional argument as an argument. -/
def Argument.ofNode : Node → Argument
  | .starred value => .starred value
  | value => .plain value

/-- A keyword argument as an argument. -/
def Argument.ofKeyword : Keyword Node → Argument
  | .named id value => .named id value
  | .unpacked value => .unpacked value

theorem Argument.written_ofNode (arg : Node) : (ofNode arg).written = arg.pieces := by
  cases arg with
  | starred v => rw [Node.pieces]; rfl
  | _ => rfl

theorem Argument.written_ofKeyword (k : Keyword Node) :
    (ofKeyword k).written = k.written Node.pieces := by
  cases k <;> rfl

theorem ArgumentText.of_slot {arg : Node}
    (h : arg.argumentSlot.seat.Text inner arg.argumentSlot.tokens arg.argumentSlot.node) :
    ArgumentText inner (tokens (Argument.ofNode arg).written) (.ofNode arg) := by
  cases arg with
  | starred v => exact .starred h
  | _ => exact .plain h

theorem ArgumentText.of_keyword {k : Keyword Node} (h : inner 0 k.value.tokens k.value) :
    ArgumentText inner (tokens (Argument.ofKeyword k).written) (.ofKeyword k) := by
  cases k with
  | named id value => exact .named id h
  | unpacked value => exact .unpacked h

/-- The positional arguments stand in front of the others, so their order is allowed. -/
theorem mayPrecede_written (args : List Node) (keywords : List (Keyword Node)) :
    (args.map Argument.ofNode ++ keywords.map Argument.ofKeyword).Pairwise
      Argument.MayPrecede := by
  rw [List.pairwise_append]
  refine ⟨?_, ?_, ?_⟩
  · refine List.pairwise_map.mpr (List.pairwise_of_forall fun a b => ?_)
    cases a <;> trivial
  · refine List.pairwise_map.mpr (List.pairwise_of_forall fun a b => ?_)
    cases a <;> cases b <;> trivial
  · intro a ha b hb
    obtain ⟨arg, -, rfl⟩ := List.mem_map.mp ha
    cases arg <;> trivial

theorem filterMap_written (args : List Node) (keywords : List (Keyword Node)) :
    (args.map Argument.ofNode ++ keywords.map Argument.ofKeyword).filterMap Argument.positional?
        = args
      ∧ (args.map Argument.ofNode ++ keywords.map Argument.ofKeyword).filterMap Argument.keyword?
        = keywords := by
  have harg (arg : Node) : (Argument.ofNode arg).positional? = some arg
      ∧ (Argument.ofNode arg).keyword? = none := by
    cases arg <;> exact ⟨rfl, rfl⟩
  have hkeyword (k : Keyword Node) : (Argument.ofKeyword k).positional? = none
      ∧ (Argument.ofKeyword k).keyword? = some k := by
    cases k <;> exact ⟨rfl, rfl⟩
  simp only [List.filterMap_append, List.filterMap_map, Function.comp_def, harg, hkeyword]
  simp

theorem Item.of_slot {item : Node}
    (h : item.itemSlot.seat.Text inner item.itemSlot.tokens item.itemSlot.node) :
    Item inner item.tokens item := by
  cases item with
  | starred v => exact .starred h
  | _ => exact .plain h

theorem EntryText.of_slots {e : Entry Node}
    (h : ∀ s ∈ Node.entrySlots e, s.seat.Text inner s.tokens s.node) :
    EntryText inner (tokens (e.written Node.pieces)) e := by
  cases e with
  | item key value =>
      rw [Entry.written, tokens_append]
      exact .item (h key.inside List.mem_cons_self)
        (h value.inside (List.mem_cons_of_mem _ (List.mem_singleton_self _)))
  | unpacked value => exact .unpacked (h _ (List.mem_singleton_self _))

/-- Between the brackets of a subscript stands one index, or the items of a tuple. -/
theorem Slice.of_slots {value slice : Node} (hbare : ¬ (Node.subscript value slice).BareStar)
    (h : ∀ s ∈ slice.sliceSlots, s.seat.Text inner s.tokens s.node) :
    Slice inner (tokens slice.sliced) slice := by
  cases slice with
  | tuple items =>
      cases items with
      | nil => exact .single (h _ (List.mem_singleton_self _))
      | cons item items =>
          have hstar : ¬ (item :: items).any Node.isStarred = true := by
            intro hany
            obtain ⟨v, hmem, hv⟩ := List.any_eq_true.mp hany
            cases v with
            | starred v => exact hbare (.slice hmem)
            | _ => exact absurd hv nofun
          have hslots : Node.sliceSlots (.tuple (item :: items)) = (item :: items).map Node.inside :=
            if_neg hstar
          rw [hslots] at h
          have hitem : ∀ t ∈ item :: items, inner 0 (tokens t.pieces) t :=
            fun t ht => h _ (List.mem_map_of_mem ht)
          show Slice inner (tokens (tupleItems (Node.piecesOfEach (item :: items)))) _
          rw [Node.piecesOfEach_eq, List.map_cons, tokens_tupleItems_cons]
          exact .several (hitem item List.mem_cons_self)
            (row_tokens fun t ht => hitem t (List.mem_cons_of_mem _ ht))
  | _ => exact .single (h _ (List.mem_singleton_self _))

/-- The written arguments of a call, the keyword arguments behind the others. -/
theorem arguments_tokens {func : Node} {args : List Node} {keywords : List (Keyword Node)}
    (hargs : ∀ arg ∈ args,
      arg.argumentSlot.seat.Text inner arg.argumentSlot.tokens arg.argumentSlot.node)
    (hkeywords : ∀ k ∈ keywords, inner 0 k.value.tokens k.value) :
    Arguments inner func
      (tokens (commaSeparated (args.map Node.pieces ++ keywords.map (Keyword.written Node.pieces))))
      ⟨func, args, keywords⟩ := by
  have hwritten : args.map Node.pieces ++ keywords.map (Keyword.written Node.pieces)
      = (args.map Argument.ofNode ++ keywords.map Argument.ofKeyword).map Argument.written := by
    simp only [List.map_append, List.map_map, Function.comp_def, Argument.written_ofNode,
      Argument.written_ofKeyword]
  have hrow : Row (ArgumentText inner)
      (tokens (commaSeparated (args.map Node.pieces ++ keywords.map (Keyword.written Node.pieces))))
      (args.map Argument.ofNode ++ keywords.map Argument.ofKeyword) := by
    rw [hwritten]
    refine row_tokens fun a ha => ?_
    rcases List.mem_append.mp ha with ha | ha
    · obtain ⟨arg, harg, rfl⟩ := List.mem_map.mp ha
      exact .of_slot (hargs arg harg)
    · obtain ⟨k, hk, rfl⟩ := List.mem_map.mp ha
      exact .of_keyword (hkeywords k hk)
  have hmk : Arguments inner func _ _ := .mk hrow (mayPrecede_written args keywords)
  rwa [(filterMap_written args keywords).1, (filterMap_written args keywords).2] at hmk

/-- The written links of a chain. -/
theorem phrase_links {left : Node} {links : List (Link Node)}
    (hfit : (Node.compare left links).Fitting)
    (hleft : Phrase inner 5 (Slot.tokens ⟨.operand 5, left⟩) left)
    (hlinks : ∀ link ∈ links, Phrase inner 5 (Slot.tokens ⟨.operand 5, link.operand⟩) link.operand) :
    Phrase inner 4 (Node.compare left links).tokens (.compare left links) := by
  have hcompare : Phrase inner 4 _ (.compare left _) := .compare
    (links.map fun link => (Slot.tokens ⟨.operand 5, link.operand⟩, link)) hleft
    (by simpa using hfit.1)
    (fun s hs => by
      obtain ⟨link, hlink, rfl⟩ := List.mem_map.mp hs
      exact hfit.2 link hlink)
    (fun s hs => by
      obtain ⟨link, hlink, rfl⟩ := List.mem_map.mp hs
      exact hlinks link hlink)
  rw [List.flatMap_map, List.map_map] at hcompare
  rw [Node.tokens_compare]
  simpa [Function.comp_def] using hcompare

/-- A node whose parts are texts in their seats is spelled out. -/
theorem spelled_of_texts {t : Node} (hfit : t.Fitting) (hbare : ¬ t.BareStar)
    (h : ∀ s ∈ t.slots, s.seat.Text inner s.tokens s.node) : Spelled inner t := by
  match t, hfit, hbare, h with
  | .name id, _, _, _ => exact Postfix.spelled (.atom (.name id))
  | .constant value, _, _, _ =>
      refine Postfix.spelled (.atom ?_)
      cases value with
      | str s => exact .texts [s] (List.cons_ne_nil _ _)
      | bool b => exact .constant (.bool b) nofun
      | _ => exact .constant _ nofun
  | .attribute value attr, _, _, h =>
      refine Postfix.spelled ?_
      rw [Node.tokens_attribute]
      exact .member attr (h _ (List.mem_singleton_self _))
  | .call ⟨func, args, keywords⟩, _, _, h =>
      refine Postfix.spelled ?_
      rw [Node.tokens_call]
      refine .call (h _ List.mem_cons_self) (arguments_tokens (fun arg harg => ?_) fun k hk => ?_)
      · exact h _ (List.mem_cons_of_mem _ (List.mem_append_left _ (List.mem_map_of_mem harg)))
      · exact h k.value.inside (List.mem_cons_of_mem _
          (List.mem_append_right _ (List.mem_map.mpr ⟨k, hk, rfl⟩)))
  | .subscript value slice, _, hbare, h =>
      refine Postfix.spelled ?_
      rw [Node.tokens_subscript]
      exact .subscript (h _ List.mem_cons_self)
        (.of_slots hbare fun s hs => h s (List.mem_cons_of_mem _ hs))
  | .list items, _, _, h =>
      refine Postfix.spelled (.atom ?_)
      rw [Node.tokens_list]
      exact .list (row_tokens fun t ht => Item.of_slot (h _ (List.mem_map_of_mem ht)))
  | .tuple [], _, _, _ => exact Postfix.spelled (.atom .unit)
  | .tuple (item :: items), _, _, h =>
      refine Postfix.spelled (.atom ?_)
      rw [Node.tokens_tuple, List.map_cons, tokens_tupleItems_cons]
      exact .tuple (Item.of_slot (h _ List.mem_cons_self)) (row_tokens fun t ht =>
        Item.of_slot (h _ (List.mem_cons_of_mem _ (List.mem_map_of_mem ht))))
  | .dict entries, _, _, h =>
      refine Postfix.spelled (.atom ?_)
      rw [Node.tokens_dict]
      exact .dict (row_tokens fun e he => EntryText.of_slots fun s hs =>
        h s (List.mem_flatMap.mpr ⟨e, he, hs⟩))
  | .unary op operand, _, _, h =>
      refine Phrase.spelled ?_ (Nat.le_succ_of_le op.precedence_le)
      rw [Node.tokens_unary]
      exact .unary op (h _ (List.mem_singleton_self _))
  | .binary left op right, hfit, _, h =>
      refine Phrase.spelled ?_ op.precedence_le
      rw [Node.tokens_binary]
      have hleft := h _ List.mem_cons_self
      have hright := h _ (List.mem_cons_of_mem _ (List.mem_singleton_self _))
      cases hassoc : op.isRightAssoc with
      | true =>
          obtain rfl := BinaryOp.eq_pow hassoc
          exact .power hleft hright
      | false =>
          simp only [Node.leftSeat_of_left hassoc, Node.rightSeat_of_left hassoc] at hleft hright ⊢
          exact .binary op hfit hassoc hleft hright
  | .compare left links, hfit, _, h =>
      have hfour := hfit.precedence_compare
      refine Phrase.spelled ?_ (by omega)
      rw [hfour]
      exact phrase_links hfit (h _ List.mem_cons_self) fun link hlink =>
        h _ (List.mem_cons_of_mem _ (List.mem_map.mpr ⟨link, hlink, rfl⟩))
  | .starred v, hfit, _, _ => exact hfit.elim

/-! ## The whole tree -/

/-- A lawful tree without bare stars is spelled out within its written nesting. -/
theorem spelled_of_lawful {t : Node} (h : t.Lawful) (hbare : ¬ t.Contains Node.BareStar) {n : Nat}
    (hn : t.nesting Slot.writtenSteps ≤ n) : Spelled (Derives n) t := by
  induction t using Node.slotInduction generalizing n with
  | step t ih =>
      rw [Node.nesting_le] at hn
      refine spelled_of_texts h.fitting (fun hhere => hbare (.here hhere)) fun s hs => ?_
      have hseat := seatedIn_of_slot hs
      refine text_of_spelled hseat.level (hn s hs) (fun hstar => ?_) fun m hm =>
        ih s hs (h.slot hs) (fun hpart => hbare (.of_slot hs hpart)) hm
      refine Nat.le_of_not_lt fun hlt => hbare (.here ?_)
      exact hseat.star hstar ((h.slot hs).isLoose.mpr hlt)

/-- The written tokens of such a tree derive it. -/
theorem derives_tokens {t : Node} (h : t.Lawful) (hbare : ¬ t.Contains Node.BareStar) {n : Nat}
    (hn : t.nesting Slot.writtenSteps < n) : Derives n 0 t.tokens t := by
  obtain ⟨m, rfl⟩ : ∃ m, n = m + 1 := ⟨n - 1, by omega⟩
  exact (spelled_of_lawful h hbare (Nat.le_of_lt_succ hn)).phrase 0 (Nat.zero_le _) (Nat.zero_le _)

end Grammar

/-- On the level of the signs there is nothing else. -/
theorem Node.Lawful.eq_unary {t : Node} (h : t.Lawful) (hprec : t.precedence = 11) :
    ∃ op operand, t = .unary op operand := by
  match t, h, hprec with
  | .unary op operand, _, _ => exact ⟨op, operand, rfl⟩
  | .binary left op right, _, hprec =>
      have hop : op.precedence = 11 := hprec
      cases op <;> exact absurd hop (by decide)
  | .compare left links, h, hprec =>
      exact absurd (h.fitting.precedence_compare.symm.trans hprec) (by decide)

/-- Without a unary operator to the right of a power no more parentheses are written than are
    needed. -/
theorem Node.Lawful.writtenNesting_le {t : Node} (h : t.Lawful)
    (hfree : ¬ t.Contains Node.UnaryExponent) {n : Nat} (hn : t.nesting Slot.tightSteps ≤ n) :
    t.nesting Slot.writtenSteps ≤ n := by
  induction t using Node.slotInduction generalizing n with
  | step t ih =>
      rw [Node.nesting_le] at hn ⊢
      intro s hs
      have hpart := ih s hs (h.slot hs) (fun hpart => hfree (.of_slot hs hpart)) (Nat.le_refl _)
      have hsteps : s.writtenSteps ≤ s.tightSteps := by
        refine Nat.add_le_add_left ?_ _
        cases hseat : s.seat with
        | exponent =>
            obtain ⟨left, rfl⟩ := (Grammar.seatedIn_of_slot hs).exponent hseat
            have hsign : s.node.precedence ≠ 11 := fun heleven => by
              obtain ⟨op, operand, hunary⟩ := (h.slot hs).eq_unary heleven
              exact hfree (.here (hunary ▸ .mk left op operand))
            show (if s.node.precedence < 12 then 1 else 0) ≤ if s.node.precedence < 11 then 1 else 0
            split <;> split <;> omega
        | _ => exact Nat.le_refl _
      have := hn s hs
      omega

end CallSite
