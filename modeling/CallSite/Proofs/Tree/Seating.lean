import CallSite.Proofs.Grammar.Climbing
import CallSite.Proofs.Tree.Layout

/-!
# Seating — what stands around the parts of a node

In front of a part stands nothing, or a piece behind which an operand may begin: a blank, a bracket,
a comma, a sign or a star (`Opening`).  Behind it stands a border or the point of an attribute
(`Bordering`).  Only the right operand of a power is written behind a power (`seating_of_cut`).
-/

namespace CallSite

open Piece Segment Node Grammar

/-! ## In front of a part and behind it -/

namespace Piece

/-- An operand may begin behind the piece. -/
def Introduces (p : Piece) : Prop :=
  p = .blank ∨ ∃ m, p.token? = some (.mark m) ∧ (isQuiet m = true ∨ p = mark .star ∨ p = mark .assign)

/-- What introduces an operand does not take in its first piece. -/
theorem Introduces.joins {glued : Prop} {p q : Piece} (hp : p.Introduces) (hq : q.Opens) :
    Joins glued p q := by
  rcases hp with rfl | ⟨m, hm, hquiet | rfl | rfl⟩
  · exact joins_blank
  · exact joins_quiet hquiet hm
  · exact joins_star (Or.inl rfl) hq
  · exact joins_star (Or.inr rfl) hq

/-- An operand opens behind these pieces, and not behind a power. -/
structure Opening (ps : List Piece) : Prop where
  place : Place.behind .opened (tokens ps) = .opened
  last : ∀ p ∈ ps.getLast?, p.Introduces

variable {ps qs : List Piece}

theorem opening_nil : Opening [] := ⟨rfl, nofun⟩

theorem Opening.append (hps : Opening ps) (hqs : Opening qs) : Opening (ps ++ qs) := by
  refine ⟨?_, fun p hp => ?_⟩
  · rw [tokens_append, Place.behind, List.foldl_append]
    exact (congrArg (List.foldl Place.after · (tokens qs)) hps.place).trans hqs.place
  · rw [List.getLast?_append] at hp
    rcases Option.or_eq_some_iff.mp hp with hp | ⟨-, hp⟩
    · exact hqs.last p hp
    · exact hps.last p hp

theorem Opening.blank (h : Opening ps) : Opening (ps ++ [.blank]) := by
  refine h.append ⟨rfl, fun p hp => ?_⟩
  obtain rfl := Option.some.inj hp
  exact Or.inl rfl

/-- Whatever stands in front of it, behind such a token an operand opens. -/
theorem opening_concat {p : Piece} {tok : Token} (htok : p.token? = some tok)
    (hplace : ∀ place, Place.after place tok = .opened) (hp : p.Introduces) :
    Opening (ps ++ [p]) := by
  refine ⟨?_, fun q hq => ?_⟩
  · have htokens : tokens [p] = [tok] := by simp [tokens, htok]
    rw [tokens_append, htokens, Place.behind, List.foldl_concat]
    exact hplace _
  · rw [List.getLast?_concat] at hq
    exact Option.some.inj hq ▸ hp

/-- The marks behind which an operand opens, whatever stands in front of them. -/
def opensOperand : Mark → Bool
  | .leftParen | .leftBracket | .leftBrace | .comma | .colon | .assign | .star => true
  | _ => false

theorem opening_mark (ps : List Piece) {m : Mark} (hm : opensOperand m = true) : Opening (ps ++ [mark m]) := by
  refine opening_concat rfl (fun place => ?_) (Or.inr ⟨m, rfl, ?_⟩)
  · cases m <;> first
      | exact absurd hm (by decide)
      | simp [Place.after, Token.ends]
  · cases m <;> first
      | exact absurd hm (by decide)
      | exact Or.inl rfl
      | exact Or.inr (Or.inl rfl)
      | exact Or.inr (Or.inr rfl)

theorem opening_groupStart : Opening (ps ++ [.groupStart]) :=
  opening_concat rfl (fun place => by simp [Place.after, Token.ends])
    (Or.inr ⟨.leftParen, rfl, Or.inl rfl⟩)

/-- Behind a comma and the blank behind it an operand opens. -/
theorem opening_between (ps : List Piece) {m : Mark} (hm : opensOperand m = true) {α : Type}
    (as : List α) (write : α → List Segment) :
    Opening (ps ++ mark m :: written (as.flatMap fun a => write a ++ between)) := by
  rcases List.eq_nil_or_concat as with rfl | ⟨as, a, rfl⟩
  · exact opening_mark ps hm
  · have hsplit : ps ++ mark m :: written ((as ++ [a]).flatMap fun a => write a ++ between)
        = ps ++ mark m :: written (as.flatMap fun a => write a ++ between) ++ written (write a)
          ++ [mark .comma] ++ [.blank] := by
      simp [between]
    rw [List.concat_eq_append, hsplit]
    exact (opening_mark _ rfl).blank

theorem opening_star (t : Node) : Opening (Node.star t) := by
  unfold Node.star
  split
  · exact opening_mark [] rfl
  · exact opening_nil

theorem opening_doubleStar : Opening [mark .doubleStar] := by
  refine ⟨rfl, fun p hp => ?_⟩
  obtain rfl := Option.some.inj hp
  exact Or.inr ⟨.doubleStar, rfl, Or.inl rfl⟩

theorem opening_lead (a : Argument) : Opening a.lead := by
  cases a with
  | plain v => exact opening_nil
  | starred v => exact opening_mark [] rfl
  | named id v => exact opening_mark [.token (.ident id)] rfl
  | unpacked v => exact opening_doubleStar

theorem opening_unary (op : UnaryOp) : Opening op.pieces := by
  refine ⟨by cases op <;> rfl, fun p hp => ?_⟩
  cases op with
  | not =>
      obtain rfl := Option.some.inj hp
      exact Or.inl rfl
  | neg =>
      obtain rfl := Option.some.inj hp
      exact Or.inr ⟨.minus, rfl, Or.inl rfl⟩
  | pos =>
      obtain rfl := Option.some.inj hp
      exact Or.inr ⟨.plus, rfl, Or.inl rfl⟩
  | invert =>
      obtain rfl := Option.some.inj hp
      exact Or.inr ⟨.tilde, rfl, Or.inl rfl⟩

theorem opening_binary {op : BinaryOp} (hop : op.isRightAssoc = false) :
    Opening (ps ++ op.pieces) := by
  have hplace (place : Place) : Place.after place op.token = .opened := by
    cases op <;> first
      | exact absurd hop (by decide)
      | simp [Place.after, Token.ends, BinaryOp.token]
  refine ⟨?_, fun p hp => ?_⟩
  · rw [tokens_append, tokens_binary, Place.behind, List.foldl_concat]
    exact hplace _
  · rw [BinaryOp.pieces, List.getLast?_append] at hp
    obtain rfl := Option.some.inj hp
    exact Or.inl rfl

/-- What stands behind a part: a border, or the point of an attribute. -/
def Bordering (ps : List Piece) : Prop := ∀ q ∈ ps.head?, q.Borders ∨ q = mark .dot

theorem bordering_nil : Bordering [] := nofun

theorem bordering_cons {p : Piece} (h : p.Borders) : Bordering (p :: ps) := by
  intro q hq
  obtain rfl := Option.some.inj hq
  exact Or.inl h

theorem bordering_blank : Bordering (.blank :: ps) := by
  refine bordering_cons fun c hc => ?_
  obtain rfl := Option.some.inj hc
  decide

theorem bordering_mark {m : Mark} (h : m.chars.head?.all (· ∈ borders) = true) :
    Bordering (mark m :: ps) := bordering_cons (borders_mark h)

theorem bordering_between {α : Type} (as : List α) (write : α → List Segment)
    (h : Bordering ps) :
    Bordering (written (as.flatMap fun a => between ++ write a) ++ ps) := by
  cases as with
  | nil => exact h
  | cons a as => exact bordering_mark (by decide)

end Piece

/-! ## Places of parts -/

namespace Node

/-- What is known of the place of a part: it is a part of the node, perhaps as an item of the tuple
    in a subscript; in front of it an operand opens, unless it is the right operand of a power; and
    behind it stands a border or a point. -/
structure Seating (t : Node) (before : List Segment) (s : Slot) (behind : List Segment) : Prop where
  slot : s ∈ t.slots ∨ ∃ u ∈ t.slots, s ∈ u.node.slots
  opening : s.seat.place = .opened ∧ Opening (written before)
    ∨ ∃ left, t = .binary left .pow s.node ∧ s.seat = .exponent
      ∧ before = .part ⟨.base, left⟩ :: BinaryOp.pow.pieces.map .piece
  bordering : Bordering (written behind)

section

variable {before behind : List Segment} {s : Slot} {ps qs : List Piece} {m : Mark}

theorem place_of_item {items : List Node} (h : s ∈ items.map itemSlot) :
    s.seat.place = .opened := by
  obtain ⟨item, -, rfl⟩ := List.mem_map.mp h
  cases item <;> rfl

theorem place_of_entry {e : Entry Node} (h : s ∈ entrySlots e) : s.seat.place = .opened := by
  cases e with
  | item key value => rcases List.mem_pair.mp h with rfl | rfl <;> rfl
  | unpacked value =>
      obtain rfl := List.mem_singleton.mp h
      rfl

/-- The place of a part behind what leads it. -/
theorem seating_of_led {lead : List Piece} {u : Slot} (hlead : Opening lead) (hps : Opening ps)
    (hqs : Bordering qs) (h : Cut (led lead u) before s behind) :
    u = s ∧ Opening (ps ++ written before) ∧ Bordering (written behind ++ qs) := by
  obtain ⟨rfl, rfl, rfl⟩ := h.of_led
  rw [written_map_piece]
  exact ⟨rfl, hps.append hlead, hqs⟩

/-- The place of a part between brackets: rows with commas between them keep what is known of the
    parts of one row. -/
theorem seating_of_rows {α : Type} {layout : α → List Segment} {P : α → Prop} {as : List α}
    (hrow : ∀ a {before behind ps qs}, Opening ps → Bordering qs → Cut (layout a) before s behind →
      P a ∧ Opening (ps ++ written before) ∧ Bordering (written behind ++ qs))
    (ps : List Piece) (hm : opensOperand m = true) (hqs : Bordering qs)
    (h : Cut (separated (as.map layout)) before s behind) :
    (∃ a ∈ as, P a) ∧ Opening (ps ++ mark m :: written before)
      ∧ Bordering (written behind ++ qs) := by
  obtain ⟨_, _, _, before', behind', hsplit, rfl, rfl, hcut⟩ := h.of_separated
  obtain ⟨front, rest, rfl, rfl, hrest⟩ := List.map_eq_append_iff.mp hsplit
  obtain ⟨a, back, rfl, rfl, rfl⟩ := List.map_eq_cons_iff.mp hrest
  obtain ⟨ha, hopening, hborder⟩ := hrow a (opening_between ps hm front layout)
    (bordering_between back layout hqs) hcut
  refine ⟨⟨a, List.mem_append_right _ List.mem_cons_self, ha⟩, ?_, ?_⟩
  · rw [List.flatMap_map, written_append]
    rwa [List.append_assoc] at hopening
  · rw [List.flatMap_map, written_append, List.append_assoc]
    exact hborder

/-- The place of an item of a list. -/
theorem seating_of_items {items : List Node} (ps : List Piece) (hm : opensOperand m = true)
    (hqs : Bordering qs) (h : Cut (separated (items.map itemLayout)) before s behind) :
    s ∈ items.map itemSlot ∧ Opening (ps ++ mark m :: written before)
      ∧ Bordering (written behind ++ qs) := by
  obtain ⟨hmem, hseating⟩ :=
    seating_of_rows (fun item => seating_of_led (opening_star item)) ps hm hqs h
  exact ⟨List.mem_map.mpr hmem, hseating⟩

theorem bordering_lastComma {items : List Node} (hqs : Bordering qs) :
    Bordering (written ((lastComma items).map .piece) ++ qs) := by
  rw [written_map_piece, lastComma]
  split
  · exact bordering_mark (by decide)
  · exact hqs

/-- The place of an item of a tuple. -/
theorem seating_of_tuple {items : List Node} (ps : List Piece) (hm : opensOperand m = true) (hqs : Bordering qs)
    (h : Cut (tupleLayout items) before s behind) :
    s ∈ items.map itemSlot ∧ Opening (ps ++ mark m :: written before)
      ∧ Bordering (written behind ++ qs) := by
  obtain ⟨behind', rfl, hcut⟩ := h.of_tupleLayout
  rw [written_append, List.append_assoc]
  exact seating_of_items ps hm (bordering_lastComma hqs) hcut

theorem seating_of_entry {e : Entry Node} (hps : Opening ps) (hqs : Bordering qs)
    (h : Cut (entryLayout e) before s behind) :
    s ∈ entrySlots e ∧ Opening (ps ++ written before) ∧ Bordering (written behind ++ qs) := by
  cases e with
  | item key value =>
      rcases cut_part.mp h with ⟨rfl, rfl, rfl⟩ | ⟨before', rfl, hvalue⟩
      · exact ⟨List.mem_cons_self, by rwa [written_nil, List.append_nil],
          bordering_mark (by decide)⟩
      · obtain ⟨rfl, rfl, rfl⟩ := hvalue.of_led
        refine ⟨List.mem_cons_of_mem _ (List.mem_singleton_self _), ?_, hqs⟩
        have hcolon := (@opening_mark (ps ++ key.inside.pieces) .colon rfl).blank
        simpa using hcolon
  | unpacked value =>
      obtain ⟨rfl, hseating⟩ := seating_of_led opening_doubleStar hps hqs h
      exact ⟨List.mem_singleton_self _, hseating⟩

theorem seating_of_slice {slice : Node} (ps : List Piece) (hm : opensOperand m = true) (hqs : Bordering qs)
    (h : Cut slice.sliceLayout before s behind) :
    ((s ∈ slice.sliceSlots ∨ ∃ u ∈ slice.sliceSlots, s ∈ u.node.slots) ∧ s.seat.place = .opened)
      ∧ Opening (ps ++ mark m :: written before) ∧ Bordering (written behind ++ qs) := by
  have hwhole (hcut : Cut [.part slice.inside] before s behind)
      (hslots : slice.sliceSlots = [slice.inside]) :
      ((s ∈ slice.sliceSlots ∨ ∃ u ∈ slice.sliceSlots, s ∈ u.node.slots) ∧ s.seat.place = .opened)
        ∧ Opening (ps ++ mark m :: written before) ∧ Bordering (written behind ++ qs) := by
    rcases cut_part.mp hcut with ⟨rfl, rfl, rfl⟩ | ⟨_, -, hnil⟩
    · exact ⟨⟨Or.inl (hslots ▸ List.mem_singleton_self _), rfl⟩, opening_mark ps hm, hqs⟩
    · exact absurd hnil cut_nil
  cases slice with
  | tuple items =>
      cases items with
      | nil => exact hwhole h rfl
      | cons item items =>
          obtain ⟨hmem, hseating⟩ := seating_of_tuple ps hm hqs h
          refine ⟨⟨?_, place_of_item hmem⟩, hseating⟩
          by_cases hstar : (item :: items).any isStarred = true
          · right
            refine ⟨inside (.tuple (item :: items)), ?_, hmem⟩
            rw [sliceSlots, if_pos hstar]
            exact List.mem_singleton_self _
          · left
            obtain ⟨t, ht, rfl⟩ := List.mem_map.mp hmem
            have hplain : t.itemSlot = t.inside := by
              cases t with
              | starred v => exact absurd (List.any_eq_true.mpr ⟨_, ht, rfl⟩) hstar
              | _ => rfl
            rw [sliceSlots, if_neg hstar, hplain]
            exact List.mem_map_of_mem ht
  | _ => exact hwhole h rfl

/-- What an argument takes is a part of the call. -/
theorem mem_slots_of_argument {site : Call Node} {a : Argument} (h : a ∈ site.arguments) :
    a.slot ∈ site.args.map argumentSlot ++ site.keywords.map fun k => k.value.inside := by
  rcases List.mem_append.mp h with h | h
  · obtain ⟨arg, harg, rfl⟩ := List.mem_map.mp h
    refine List.mem_append_left _ (List.mem_map.mpr ⟨arg, harg, ?_⟩)
    cases arg <;> rfl
  · obtain ⟨k, hk, rfl⟩ := List.mem_map.mp h
    refine List.mem_append_right _ (List.mem_map.mpr ⟨k, hk, ?_⟩)
    cases k <;> rfl

/-- Every cut of a node that fits goes through a part in its place. -/
theorem seating_of_cut {t : Node} (ht : t.Fitting)
    (h : Cut t.layout before s behind) : t.Seating before s behind := by
  have hclose (m : Mark) (hm : m.chars.head?.all (· ∈ borders) = true) : Bordering [mark m] :=
    bordering_mark hm
  cases t with
  | name id => exact absurd h (not_cut_pieces [.token (.ident id)])
  | constant value => exact absurd h (not_cut_pieces [.token value.token])
  | «attribute» value attr =>
      rcases cut_part.mp h with ⟨rfl, rfl, rfl⟩ | ⟨_, -, hrest⟩
      · refine ⟨Or.inl List.mem_cons_self, Or.inl ⟨rfl, opening_nil⟩, fun q hq => ?_⟩
        exact Or.inr (Option.some.inj hq).symm
      · exact absurd hrest (not_cut_pieces [.mark .dot, .token (.ident attr)])
  | call site =>
      rcases cut_part.mp h with ⟨rfl, rfl, rfl⟩ | ⟨_, rfl, hrest⟩
      · exact ⟨Or.inl List.mem_cons_self, Or.inl ⟨rfl, opening_nil⟩, bordering_mark (by decide)⟩
      · obtain ⟨_, behind', rfl, rfl, hrow⟩ := hrest.of_bracketed
        obtain ⟨⟨a, ha, rfl⟩, hopening, hborder⟩ := seating_of_rows (m := .leftParen)
          (fun a => seating_of_led (opening_lead a)) (Slot.pieces ⟨.base, site.func⟩) rfl
          (hclose .rightParen (by decide)) hrow
        have hseat : a.slot.seat.place = .opened := by
          cases a <;> rfl
        refine ⟨Or.inl (List.mem_cons_of_mem _ (mem_slots_of_argument ha)),
          Or.inl ⟨hseat, hopening⟩, ?_⟩
        rw [written_append]
        exact hborder
  | subscript value slice =>
      rcases cut_part.mp h with ⟨rfl, rfl, rfl⟩ | ⟨_, rfl, hrest⟩
      · exact ⟨Or.inl List.mem_cons_self, Or.inl ⟨rfl, opening_nil⟩, bordering_mark (by decide)⟩
      · obtain ⟨_, behind', rfl, rfl, hslice⟩ := hrest.of_bracketed
        obtain ⟨hmem, hopening, hborder⟩ := seating_of_slice (m := .leftBracket)
          (Slot.pieces ⟨.base, value⟩) rfl (hclose .rightBracket (by decide)) hslice
        obtain ⟨hmem, hseat⟩ := hmem
        refine ⟨?_, Or.inl ⟨hseat, hopening⟩, by rw [written_append]; exact hborder⟩
        rcases hmem with hs | ⟨u, hu, hs⟩
        · exact Or.inl (List.mem_cons_of_mem _ hs)
        · exact Or.inr ⟨u, List.mem_cons_of_mem _ hu, hs⟩
  | list items =>
      obtain ⟨_, behind', rfl, rfl, hrow⟩ := h.of_bracketed
      obtain ⟨hmem, hopening, hborder⟩ := seating_of_items (m := .leftBracket) [] rfl
        (hclose .rightBracket (by decide)) hrow
      refine ⟨Or.inl hmem, Or.inl ⟨place_of_item hmem, hopening⟩, ?_⟩
      rw [written_append]
      exact hborder
  | tuple items =>
      obtain ⟨_, behind', rfl, rfl, hrow⟩ := h.of_bracketed
      obtain ⟨hmem, hopening, hborder⟩ := seating_of_tuple (m := .leftParen) [] rfl
        (hclose .rightParen (by decide)) hrow
      refine ⟨Or.inl hmem, Or.inl ⟨place_of_item hmem, hopening⟩, ?_⟩
      rw [written_append]
      exact hborder
  | dict entries =>
      obtain ⟨_, behind', rfl, rfl, hrows⟩ := h.of_bracketed
      obtain ⟨⟨e, he, hmem⟩, hopening, hborder⟩ := seating_of_rows (m := .leftBrace)
        (fun _ => seating_of_entry) [] rfl (hclose .rightBrace (by decide)) hrows
      refine ⟨Or.inl (List.mem_flatMap.mpr ⟨e, he, hmem⟩),
        Or.inl ⟨place_of_entry hmem, hopening⟩, ?_⟩
      rw [written_append]
      exact hborder
  | unary op operand =>
      obtain ⟨rfl, rfl, rfl⟩ := h.of_led
      refine ⟨Or.inl (List.mem_singleton_self _), Or.inl ⟨rfl, ?_⟩, bordering_nil⟩
      rw [written_map_piece]
      exact opening_unary op
  | binary left op right =>
      rcases cut_part.mp h with ⟨rfl, rfl, rfl⟩ | ⟨_, rfl, hright⟩
      · exact ⟨Or.inl List.mem_cons_self, Or.inl ⟨place_leftSeat op, opening_nil⟩, bordering_blank⟩
      · obtain ⟨rfl, rfl, rfl⟩ := hright.of_led
        refine ⟨Or.inl (List.mem_cons_of_mem _ (List.mem_singleton_self _)), ?_, bordering_nil⟩
        cases hop : op.isRightAssoc with
        | false =>
            rw [written_part, written_map_piece]
            refine Or.inl ⟨?_, opening_binary hop⟩
            rw [rightSeat_of_left hop]
            rfl
        | true =>
            obtain rfl := BinaryOp.eq_pow hop
            exact Or.inr ⟨left, rfl, rfl, rfl⟩
  | compare left links =>
      rcases cut_part.mp h with ⟨rfl, rfl, rfl⟩ | ⟨_, rfl, hlinks⟩
      · refine ⟨Or.inl List.mem_cons_self, Or.inl ⟨rfl, opening_nil⟩, ?_⟩
        cases links with
        | nil => exact bordering_nil
        | cons link links => exact bordering_blank
      · obtain ⟨front, link, back, _, _, rfl, rfl, rfl, hcut⟩ := hlinks.of_flatMap
        obtain ⟨rfl, rfl, rfl⟩ := hcut.of_led
        have hlink : link ∈ front ++ link :: back := List.mem_append_right _ List.mem_cons_self
        have hop := BinaryOp.not_rightAssoc_of_comparison (ht.2 link hlink)
        refine ⟨Or.inl (List.mem_cons_of_mem _ (List.mem_map.mpr ⟨link, hlink, rfl⟩)),
          Or.inl ⟨rfl, ?_⟩, ?_⟩
        · rw [written_part, written_append, written_map_piece, ← List.append_assoc]
          exact opening_binary hop
        · cases back with
          | nil => exact bordering_nil
          | cons link' back => exact bordering_blank
  | starred value => exact ht.elim

end

end Node

end CallSite
