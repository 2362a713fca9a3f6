import CallSite.Proofs.RoundTrip
import CallSite.Proofs.Tree.Imprint

/-!
# Ungrouping — source texts with one pair of parentheses less

When an expression is written as a text, some operands stand in parentheses.  Without one such pair
the text is no longer read as the same tree (`Node.ofSource_ungrouped`), unless the pair stands around
a sign to the right of a power: `a ** (-b)` and `a ** -b` are the same
(`Node.ofSource_ungrouped_signedExponent`).

The pieces that are left still have the tokens of the tree, one pair of parentheses less, so most
often they cost less than any text of the tree (`Toll`).  Only a sign that comes to stand directly
behind a power costs as much as the parentheses, and then the stamps tell the texts apart (`Stamp`).
-/

namespace CallSite

open Grammar Piece

/-! ## Where the parentheses stood -/

namespace Node

variable {t : Node} {s : Slot} {ps qs : List Piece}

/-- In front of a part stands nothing, or what introduces an operand. -/
theorem Lawful.introduces_of_writes (ht : t.Lawful) (h : t.Writes s ps qs) :
    ∀ p ∈ ps.getLast?, p.Introduces := by
  have hbefore {t : Node} (ht : t.Lawful) {u : Slot} {before behind : List Segment}
      (hcut : Cut t.layout before u behind) :
      ∀ p ∈ (Segment.written before).getLast?, p.Introduces := by
    rcases (seating_of_cut ht.fitting hcut).opening with ⟨-, hopening⟩ | ⟨left, -, -, rfl⟩
    · exact hopening.last
    · intro p hp
      rw [Segment.written_part, Segment.written_map_piece, BinaryOp.pieces,
        List.getLast?_append] at hp
      obtain rfl := Option.some.inj hp
      exact Or.inl rfl
  induction h with
  | part hcut => exact hbefore ht hcut
  | @inner t u before behind ps qs hcut _ ih =>
      intro p hp
      rw [List.getLast?_append, Option.mem_def, Option.or_eq_some_iff] at hp
      rcases hp with hp | ⟨-, hp⟩
      · exact ih (ht.of_cut hcut) p hp
      · unfold Slot.opening at hp
        split at hp
        · exact opening_groupStart.last p hp
        · rw [List.append_nil] at hp
          exact hbefore ht hcut p hp

/-- Behind a part stands nothing, a border, or a point. -/
theorem Lawful.bordering_of_writes (ht : t.Lawful) (h : t.Writes s ps qs) : Bordering qs := by
  induction h with
  | part hcut => exact (seating_of_cut ht.fitting hcut).bordering
  | @inner t u before behind ps qs hcut _ ih =>
      intro q hq
      rw [List.append_assoc, List.head?_append, Option.mem_def, Option.or_eq_some_iff] at hq
      rcases hq with hq | ⟨-, hq⟩
      · exact ih (ht.of_cut hcut) q hq
      · unfold Slot.closing at hq
        split at hq
        · obtain rfl := Option.some.inj hq
          exact Or.inl (borders_mark (m := .rightParen) (by decide))
        · exact (seating_of_cut ht.fitting hcut).bordering q hq

/-- No part stands directly behind an operand. -/
theorem Lawful.place_of_writes (ht : t.Lawful) (h : t.Writes s ps qs) :
    Place.opened.behind (Piece.tokens ps) ≠ .closed := by
  have hseat (seat : Seat) : seat.place ≠ .closed := by
    cases seat <;> exact nofun
  induction h with
  | part hcut =>
      rw [ht.place_of_cut hcut]
      exact hseat _
  | @inner t u before behind ps qs hcut _ ih =>
      have hopening : u.seat.place.behind (Piece.tokens u.opening) ≠ .closed := by
        rw [place_opening]
        split
        · exact nofun
        · exact hseat _
      rw [tokens_append, tokens_append, Place.behind_append, Place.behind_append,
        ht.place_of_cut hcut]
      by_cases hps : Piece.tokens ps = []
      · rw [hps]
        exact hopening
      · rw [Place.behind_opened hopening hps]
        exact ih (ht.of_cut hcut)

/-- What a part costs, the tree costs. -/
theorem Lawful.toll_of_writes (ht : t.Lawful) (h : t.Writes s ps qs) (σ : Toll) :
    s.node.toll σ ≤ t.toll σ := by
  have hslot {t : Node} {u : Slot} (hu : u ∈ t.slots) : u.node.toll σ ≤ t.toll σ := by
    have hsum := List.le_sum_of_mem (List.mem_map_of_mem (f := fun s : Slot =>
      s.node.toll σ + charge σ s) hu)
    rw [toll_eq σ t]
    omega
  have hcut {t : Node} (ht : t.Lawful) {u : Slot} {before behind : List Segment}
      (hcut : Cut t.layout before u behind) : u.node.toll σ ≤ t.toll σ := by
    rcases (seating_of_cut ht.fitting hcut).slot with hu | ⟨v, hv, hu⟩
    · exact hslot hu
    · exact Nat.le_trans (hslot hu) (hslot hv)
  induction h with
  | part hpart => exact hcut ht hpart
  | inner hpart _ ih => exact Nat.le_trans (ih (ht.of_cut hpart)) (hcut ht hpart)

/-- What is written for a part begins and ends an operand. -/
theorem Sourced.apart_of_writes (h : t.Sourced) (hw : t.Writes s ps qs) :
    Apart True s.node.pieces := by
  obtain ⟨σ, hσ, hfree⟩ := h.exists_toll
  have hpart := h.lawful.toll_of_writes hw σ
  exact ((h.lawful.of_writes hw).separated hσ (by omega) fun _ => True.intro).apart

/-! ## What is left without the parentheses -/

/-- Without the parentheses the pieces may still stand in their order. -/
theorem Sourced.linked_ungrouped (h : t.Sourced) (hw : t.Writes s ps qs) :
    Linked True (ps ++ s.node.pieces ++ qs) := by
  have hall := (h.separated fun _ => True.intro).apart.toLinked
  rw [hw.pieces_eq, Slot.pieces_eq] at hall
  have hinside := h.apart_of_writes hw
  have hps : Linked True ps :=
    ⟨fun p hp => hall.written p (by simp [hp]), hall.joins.left_of_append.left_of_append⟩
  have hqs : Linked True qs :=
    ⟨fun p hp => hall.written p (by simp [hp]), hall.joins.right_of_append⟩
  have hfront : Linked True (ps ++ s.node.pieces) :=
    hps.append hinside.toLinked fun p hp q hq =>
      (h.lawful.introduces_of_writes hw p hp).joins (hinside.first q hq)
  refine hfront.append hqs fun p hp q hq => ?_
  obtain ⟨init, last, hlast, hends⟩ := hinside.last
  rw [hlast, ← List.append_assoc, List.getLast?_concat] at hp
  obtain rfl := Option.some.inj hp
  rcases h.lawful.bordering_of_writes hw q hq with hborder | rfl
  · exact joins_border hends hborder
  · exact joins_point hends (Or.inl True.intro)

end Node

/-- Where no integer stands in front of a point, none is glued to one. -/
theorem Piece.Linked.clear {ps : List Piece} (h : Linked True ps) (hglued : ¬ GluedIn ps) :
    Linked False ps := by
  induction ps with
  | nil => exact linked_nil
  | cons p ps ih =>
      have hrest : ¬ GluedIn ps := fun hps => hglued (hps.within (List.infix_cons List.infix_rfl))
      obtain ⟨hjoin, hchain⟩ := List.isChain_cons.mp h.joins
      have hps := ih ⟨fun q hq => h.written q (List.mem_cons_of_mem p hq), hchain⟩ hrest
      refine hps.cons (h.written p List.mem_cons_self) fun q hq => ?_
      obtain ⟨hclear | ⟨-, ⟨value, rfl⟩, rfl⟩, hpoint⟩ := hjoin q hq
      · exact ⟨Or.inl hclear, hpoint⟩
      · obtain ⟨rest, rfl⟩ : ∃ rest, ps = mark .dot :: rest := by
          cases ps with
          | nil => exact absurd hq nofun
          | cons p ps => exact ⟨ps, congrArg (· :: ps) (Option.some.inj hq)⟩
        exact absurd ⟨value, [], rest, rfl⟩ hglued

/-- Numbers that are read as names leave the stamps of a text as they are. -/
theorem Place.stamps_asRead {p : Place} (ts : List Token) :
    p.stamps (ts.map Token.asRead) = p.stamps ts := by
  induction ts generalizing p with
  | nil => rfl
  | cons tok ts ih =>
      have hsame : tok.asRead.isSign = tok.isSign ∧ tok.asRead.stamps p = tok.stamps p
          ∧ p.after tok.asRead = p.after tok := by
        cases tok with
        | float x =>
            cases hfinite : x.isFinite with
            | true =>
                rw [Token.asRead_float hfinite]
                exact ⟨rfl, rfl, rfl⟩
            | false =>
                rw [Token.asRead_infinite hfinite]
                exact ⟨rfl, rfl, rfl⟩
        | _ => exact ⟨rfl, rfl, rfl⟩
      rw [List.map_cons, stamps, stamps, hsame.1, hsame.2.1, hsame.2.2, ih]

/-- Only signs cost something for standing behind a power. -/
theorem Toll.cost_power {σ : Toll} {tok : Token} {ts : List Token} (h : tok.isSign = false) :
    σ.cost .power (tok :: ts) = σ.cost .opened (tok :: ts) := by
  have hafter : Place.after .power tok = Place.after .opened tok := by
    simp [Place.after]
  have hone : σ.one .power tok = σ.one .opened tok := by
    cases tok with
    | mark m => cases m <;> first | rfl | exact absurd h (by decide)
    | _ => rfl
  rw [cost_cons, cost_cons, hafter, hone]

namespace Node

variable {t : Node} {s : Slot} {ps qs : List Piece}

/-- Parentheses cost something, and a sign behind a power as much. -/
def parenToll : Toll := ⟨fun _ => 0, 1, 1⟩

/-- A pair of parentheses is paid for. -/
theorem Lawful.cost_grouped (ht : t.Lawful) (hw : t.Writes s ps qs) (hgrouped : s.IsGrouped) :
    parenToll.cost .opened t.tokens
      = parenToll.cost .opened (Piece.tokens ps)
        + (1 + parenToll.cost .opened s.node.tokens + parenToll.cost .closed (Piece.tokens qs)) := by
  have hinside := (ht.of_writes hw).closes
  have htokens : t.tokens = Piece.tokens ps
      ++ .mark .leftParen :: (s.node.tokens ++ .mark .rightParen :: Piece.tokens qs) := by
    rw [tokens, hw.pieces_eq, Slot.pieces_eq, Slot.opening, Slot.closing, if_pos hgrouped,
      if_pos hgrouped]
    simp only [tokens_append, List.append_assoc]
    rfl
  have hclose : parenToll.cost .closed (.mark .rightParen :: Piece.tokens qs)
      = parenToll.cost .closed (Piece.tokens qs) := Nat.zero_add _
  rw [htokens, Toll.cost_append, Toll.cost_leftParen, Toll.cost_closes hinside, hclose,
    Nat.add_assoc 1]
  rfl

/-- What is left without the parentheses is no text of the tree. -/
theorem Sourced.not_derives_ungrouped (h : t.Sourced) (hw : t.Writes s ps qs)
    (hgrouped : s.IsGrouped) (hsign : ¬ t.WritesSign ps qs) (n : Nat) :
    ¬ Derives n 0 ((Piece.tokens (ps ++ s.node.pieces ++ qs)).map Token.asRead) t := by
  intro hderives
  have htokens : Piece.tokens (ps ++ s.node.pieces ++ qs)
      = Piece.tokens ps ++ (s.node.tokens ++ Piece.tokens qs) := by
    rw [tokens_append, tokens_append, List.append_assoc]
    rfl
  have hinside := (h.lawful.of_writes hw).closes
  have hwritten := (h.lawful.cost_le parenToll).1
  have hpays := hderives.toll_le parenToll (Nat.le_refl 1)
  rw [Toll.cost_asRead fun _ => rfl, htokens, Toll.cost_append, Toll.cost_closes hinside] at hpays
  rw [h.lawful.cost_grouped hw hgrouped] at hwritten
  obtain ⟨tok, rest, htok⟩ : ∃ tok rest, s.node.tokens = tok :: rest := by
    obtain ⟨init, last, hlast, -⟩ := hinside
    exact List.exists_cons_of_ne_nil (hlast ▸ List.append_ne_nil_of_right_ne_nil _ (by simp))
  cases hplace : Place.opened.behind (Piece.tokens ps) with
  | closed => exact h.lawful.place_of_writes hw hplace
  | opened =>
      rw [hplace] at hpays
      omega
  | power =>
      rw [hplace] at hpays
      cases hsigned : tok.isSign with
      | false =>
          rw [htok, Toll.cost_power hsigned, ← htok] at hpays
          omega
      | true =>
          -- the sign behind the power costs as much, but the tree has none there
          obtain ⟨as, bs, hstamps, hranks⟩ := h.lawful.stamps_of_writes hw hplace hsign
          have hover := hderives.over
          rw [Place.stamps_asRead, htokens, Place.stamps_append, hplace, htok, List.cons_append,
            Place.stamps_power, hsigned, hstamps] at hover
          exact absurd (hover.signed hranks) nofun

/-- Without the parentheses the pieces do not end with a point. -/
theorem Sourced.last_ungrouped (h : t.Sourced) (hw : t.Writes s ps qs) :
    Piece.mark .dot ∉ (ps ++ s.node.pieces ++ qs).getLast? := by
  obtain ⟨init, p, hinit, hends⟩ := (h.apart_of_writes hw).last
  obtain ⟨init', p', hinit', hends'⟩ := (h.separated fun _ => True.intro).apart.last
  rcases List.eq_nil_or_concat qs with rfl | ⟨front, last, rfl⟩
  · rw [List.append_nil, hinit, ← List.append_assoc, List.getLast?_concat]
    exact fun hdot => hends.ne_dot (Option.some.inj hdot)
  · have hlast : p' = last := by
      rw [hw.pieces_eq, List.concat_eq_append, ← List.append_assoc] at hinit'
      exact (List.cons.inj (List.append_inj' hinit' rfl).2).1.symm
    rw [List.concat_eq_append, ← List.append_assoc, List.getLast?_concat]
    exact fun hdot => hends'.ne_dot (hlast.trans (Option.some.inj hdot))

/-- What is read from the text that is left is some other tree. -/
theorem Sourced.ne_ungrouped (h : t.Sourced) (hw : t.Writes s ps qs) (hgrouped : s.IsGrouped)
    (hsign : ¬ t.WritesSign ps qs) :
    Node.ofSource (String.ofList ((ps ++ s.node.pieces ++ qs).flatMap Piece.chars)) ≠ .ok t := by
  intro hread
  have hlinked := h.linked_ungrouped hw
  by_cases hglued : GluedIn (ps ++ s.node.pieces ++ qs)
  · -- an integer is lost at a point, and the tree needs them all
    have hlost := hlinked.toll_lt (h.last_ungrouped hw) hglued hread
    have hwritten := (h.lawful.cost_le (.counting Token.isInt)).1
    have hcount : (Piece.tokens (ps ++ s.node.pieces ++ qs)).countP Token.isInt
        ≤ t.tokens.countP Token.isInt := by
      rw [tokens, hw.pieces_eq, Slot.pieces_eq]
      simp only [tokens_append, List.countP_append]
      omega
    rw [Toll.cost_counting_isInt] at hwritten
    omega
  · have hderives := (hlinked.clear hglued).ofSource_iff.mp hread
    exact h.not_derives_ungrouped hw hgrouped hsign maxNesting hderives

/-! ## Expressions -/

section

variable {src : String} {scope : Scope} {e : Expr} {before inside behind : List Piece}

/-- Every pair of parentheses around an operand is needed, unless it stands around a sign to the right
    of a power: without it the text is not read as the same tree. -/
theorem ofSource_ungrouped (h : Node.ofSource src = .ok t) (he : t.resolve scope = .ok e)
    (hpieces : e.pieces = before ++ .groupStart :: (inside ++ .groupEnd :: behind))
    (hinside : Balanced inside) (hsign : ¬ t.WritesSign before behind) :
    Node.ofSource (String.ofList ((before ++ inside ++ behind).flatMap Piece.chars)) ≠ .ok t := by
  have hsourced := sourced_of_ofSource h
  rw [(writtenAs_of_resolve he).pieces] at hpieces
  obtain ⟨s, hw, hgrouped, rfl⟩ := hsourced.lawful.writes_of_pair hinside hpieces
  exact hsourced.ne_ungrouped hw hgrouped hsign

/-- The parentheses in `(a + b) * c` are needed. -/
theorem ofSource_ungrouped_sum :
    Node.ofSource "(a + b) * c"
        = .ok (.binary (.binary (.name "a") .add (.name "b")) .mul (.name "c"))
      ∧ Node.ofSource "a + b * c"
        ≠ .ok (.binary (.binary (.name "a") .add (.name "b")) .mul (.name "c")) := by
  have htokens : tokenize "(a + b) * c" = .ok [⟨.mark .leftParen, ⟨1, 1⟩⟩, ⟨.ident "a", ⟨1, 2⟩⟩,
      ⟨.mark .plus, ⟨1, 4⟩⟩, ⟨.ident "b", ⟨1, 6⟩⟩, ⟨.mark .rightParen, ⟨1, 7⟩⟩,
      ⟨.mark .star, ⟨1, 9⟩⟩, ⟨.ident "c", ⟨1, 11⟩⟩, ⟨.eof, ⟨1, 12⟩⟩] := by
    decide +kernel
  have hread : Node.ofSource "(a + b) * c"
      = .ok (.binary (.binary (.name "a") .add (.name "b")) .mul (.name "c")) := by
    rw [Node.ofSource, htokens]
    rfl
  have hresolve : (Node.binary (.binary (.name "a") .add (.name "b")) .mul (.name "c")).resolve
      (.ofModule "m")
      = .ok (.binary (.binary (.name "a" "m.a") .add (.name "b" "m.b")) .mul (.name "c" "m.c")) := rfl
  have hinside : Balanced [.token (.ident "a"), .blank, .token (.mark .plus), .blank,
      .token (.ident "b")] := balanced_plain (by simp)
  -- the first piece behind the parenthesis is no sign
  have hsign : ¬ WritesSign (.binary (.binary (.name "a") .add (.name "b")) .mul (.name "c")) []
      [.blank, .token (.mark .star), .blank, .token (.ident "c")] := by
    rintro ⟨op, operand, hop, hw⟩
    have hpieces := hw.pieces_eq
    have hname (m : Mark) : Piece.token (.ident "a") ≠ .token (.mark m) := by simp
    cases op <;> first
      | exact absurd rfl hop
      | exact absurd (List.cons.inj (List.cons.inj hpieces).2).1 (hname _)
  have htext : String.ofList (([] ++ [Piece.token (.ident "a"), Piece.blank,
      Piece.token (.mark .plus), Piece.blank, Piece.token (.ident "b")] ++ [Piece.blank,
      Piece.token (.mark .star), Piece.blank, Piece.token (.ident "c")]).flatMap Piece.chars)
      = "a + b * c" := by
    decide +kernel
  have hne := ofSource_ungrouped hread hresolve rfl hinside hsign
  rw [htext] at hne
  exact ⟨hread, hne⟩

/-- A sign to the right of a power is written in parentheses that are not needed. -/
theorem ofSource_ungrouped_signedExponent :
    ∃ before inside behind, Node.ofSource "a ** -b"
        = .ok (.binary (.name "a") .pow (.unary .neg (.name "b")))
      ∧ (Node.binary (.name "a") .pow (.unary .neg (.name "b"))).resolve (.ofModule "m")
        = .ok (.binary (.name "a" "m.a") .pow (.unary .neg (.name "b" "m.b")))
      ∧ (Expr.binary (.name "a" "m.a") .pow (.unary .neg (.name "b" "m.b"))).pieces
        = before ++ .groupStart :: (inside ++ .groupEnd :: behind)
      ∧ Balanced inside
      ∧ Node.ofSource (String.ofList ((before ++ inside ++ behind).flatMap Piece.chars))
        = .ok (.binary (.name "a") .pow (.unary .neg (.name "b"))) := by
  have htokens : tokenize "a ** -b" = .ok [⟨.ident "a", ⟨1, 1⟩⟩, ⟨.mark .doubleStar, ⟨1, 3⟩⟩,
      ⟨.mark .minus, ⟨1, 6⟩⟩, ⟨.ident "b", ⟨1, 7⟩⟩, ⟨.eof, ⟨1, 8⟩⟩] := by
    decide +kernel
  have hread : Node.ofSource "a ** -b"
      = .ok (.binary (.name "a") .pow (.unary .neg (.name "b"))) := by
    rw [Node.ofSource, htokens]
    rfl
  have hinside : Balanced [.token (.mark .minus), .token (.ident "b")] := balanced_plain (by simp)
  have htext : String.ofList (([Piece.token (.ident "a"), Piece.blank,
      Piece.token (.mark .doubleStar), Piece.blank] ++ [Piece.token (.mark .minus),
      Piece.token (.ident "b")] ++ []).flatMap Piece.chars) = "a ** -b" := by
    decide +kernel
  refine ⟨[.token (.ident "a"), .blank, .token (.mark .doubleStar), .blank],
    [.token (.mark .minus), .token (.ident "b")], [], hread, rfl, rfl, hinside, ?_⟩
  rw [htext]
  exact hread

end

end Node

end CallSite
