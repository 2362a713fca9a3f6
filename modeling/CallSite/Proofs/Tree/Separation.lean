import CallSite.Proofs.Lexing.Piece
import CallSite.Proofs.Tree.Writing

/-!
# Separation — the pieces of a tree keep clear of each other

Between the pieces of a tree stand blanks, brackets and commas, which no name or literal takes in
(`Lawful.apart`).  So the text of a tree is cut into its tokens again, unless an integer stands in
front of an attribute.
-/

namespace CallSite

open Piece

variable {glued : Prop}

/-! ## Single tokens -/

namespace Piece

/-- A token that ends an operand may begin one, too. -/
theorem opens_of_lexed {tok : Token} (h : tok.Lexed) (hends : tok.ends = true) :
    Opens (.token tok) := by
  have hdigit {c : Char} (hc : c.isDigit = true) : c ≠ '*' ∧ c ≠ '=' := by
    refine ⟨?_, ?_⟩ <;> rintro rfl <;> exact absurd hc (by decide)
  intro c hc
  cases tok with
  | ident name =>
      obtain ⟨d, ds, hname, hd, -, -⟩ := h
      have hhead : name.toList.head? = some c := hc
      rw [hname] at hhead
      obtain rfl := Option.some.inj hhead
      exact ⟨ne_of_opensWord hd.opens (by decide), ne_of_opensWord hd.opens (by decide)⟩
  | str text =>
      obtain rfl := Option.some.inj hc
      decide
  | bytes text =>
      obtain rfl := Option.some.inj hc
      decide
  | int value =>
      obtain ⟨n, rfl⟩ := Int.eq_ofNat_of_zero_le h.1
      have hchars : (Token.int n).chars = Nat.toDigits 10 n := Nat.toList_repr
      have hmem : c ∈ (Token.int n).chars := List.mem_of_mem_head? hc
      rw [hchars] at hmem
      exact hdigit (isDigit_toDigits n c hmem)
  | float value =>
      have hhead : (Token.float value).chars.head? = some c := hc
      cases hfinite : value.isFinite with
      | true =>
          obtain ⟨d, ⟨ds, places, hsplit, hds, hne, -⟩, -⟩ := Binary64.literal_eq hfinite h.1
          obtain ⟨e, es, rfl⟩ := List.exists_cons_of_ne_nil hne
          have hchars : (Token.float value).chars = e :: es ++ '.' :: places := hsplit
          rw [hchars] at hhead
          obtain rfl := Option.some.inj hhead
          exact hdigit (hds e List.mem_cons_self)
      | false =>
          rw [Token.chars_infinite h.1 h.2 hfinite] at hhead
          obtain rfl := Option.some.inj hhead
          decide
  | word w =>
      have hhead : w.chars.head? = some c := hc
      cases w <;> obtain rfl := Option.some.inj hhead <;> decide
  | mark m =>
      have hhead : m.chars.head? = some c := hc
      cases m <;> first
        | exact absurd hends (by decide)
        | (obtain rfl := Option.some.inj hhead; decide)
  | eof => exact h.elim

theorem apart_token {tok : Token} (h : tok.Lexed) (hends : tok.ends = true) :
    Apart glued [.token tok] := by
  refine ⟨⟨linked_nil.cons (written_of_lexed h rfl) nofun, [], _, rfl, tok, rfl, hends⟩, ?_⟩
  intro p hp
  obtain rfl := Option.some.inj hp
  exact opens_of_lexed h hends

/-- An operator joins two operands. -/
theorem Ended.operator {ps qs : List Piece} (hps : Ended glued ps) (op : BinaryOp)
    (hqs : Ended glued qs) : Ended glued (ps ++ op.pieces ++ qs) := by
  have hwritten : Written (.token op.token) :=
    written_of_lexed (show op.token.Lexed by cases op <;> trivial) rfl
  have hop : Linked glued (.blank :: .token op.token :: .blank :: qs) := by
    refine (hqs.toLinked.blank.cons hwritten fun q hq => ?_).blank
    obtain rfl := Option.some.inj hq
    exact joins_operator op
  have hborder : Borders .blank := fun c hc => by
    obtain rfl := Option.some.inj hc
    decide
  have hlinked := hps.border hop hborder
  rw [List.append_assoc]
  refine Linked.ended hlinked ?_
  obtain ⟨init, p, rfl, hp⟩ := hqs.last
  exact ⟨.blank :: .token op.token :: .blank :: init, p, rfl, hp⟩

theorem linked_mark {m : Mark} (hm : isQuiet m = true) : Linked glued [mark m] :=
  linked_nil.quiet hm rfl

/-- Whatever stands between brackets, they begin and end an operand. -/
theorem Linked.brackets {ps : List Piece} {m m' : Mark} (h : Linked glued (ps ++ [mark m']))
    (hm : isQuiet m = true) (hm' : Token.ends (.mark m') = true)
    (hopens : (mark m).Opens) :
    Apart glued (mark m :: ps ++ [mark m']) := by
  refine ⟨Linked.ended (h.quiet hm rfl) ⟨[], _, rfl, ends_mark hm'⟩, fun p hp => ?_⟩
  obtain rfl := Option.some.inj hp
  exact hopens

/-- Brackets behind an operand make an operand of both. -/
theorem Apart.bracketed {ps qs : List Piece} {m m' : Mark} (hps : Apart glued ps)
    (h : Linked glued (qs ++ [mark m'])) (hm : isQuiet m = true)
    (hm' : Token.ends (.mark m') = true) (hborders : (mark m).Borders) :
    Apart glued (ps ++ mark m :: qs ++ [mark m']) := by
  have hboth := hps.toEnded.border (h.quiet hm (p := mark m) rfl) hborders
  rw [List.append_assoc]
  exact Ended.apart (Linked.ended hboth ⟨mark m :: qs, _, rfl, ends_mark hm'⟩) hps

/-- A point and a name behind an operand make an operand of both; only an integer in front of the
    point is glued to it. -/
theorem Apart.attribute {ps : List Piece} {attr : String} (hps : Apart glued ps)
    (hattr : (Token.ident attr).Lexed)
    (hint : ∀ v, ps.getLast? = some (.token (.int v)) → glued) :
    Apart glued (ps ++ [mark .dot, .token (.ident attr)]) := by
  have hname : Apart glued [.token (.ident attr)] := apart_token hattr rfl
  have hdot : Linked glued [mark .dot, .token (.ident attr)] := by
    refine hname.toLinked.cons (written_mark rfl) fun q hq => ?_
    obtain rfl := Option.some.inj hq
    exact joins_name (hname.written _ (List.mem_singleton_self _))
  refine Ended.apart (Linked.ended (hps.toLinked.append hdot fun p hp q hq => ?_)
    ⟨[mark .dot], _, rfl, .ident attr, rfl, rfl⟩) hps
  obtain rfl := Option.some.inj hq
  obtain ⟨init, last, hlast, hends⟩ := hps.last
  have hget : ps.getLast? = some last := by rw [hlast, List.getLast?_concat]
  rw [hget] at hp
  obtain rfl := Option.some.inj hp
  refine joins_point hends ?_
  by_cases hisInt : ∃ v, last = .token (.int v)
  · obtain ⟨v, rfl⟩ := hisInt
    exact Or.inl (hint v hget)
  · exact Or.inr fun v hv => hisInt ⟨v, hv⟩

/-- A unary operator stands directly in front of its operand; only a word needs a blank. -/
theorem Apart.unary {ps : List Piece} (h : Apart glued ps) (op : UnaryOp) :
    Apart glued (op.pieces ++ ps) := by
  have hlinked : Linked glued (op.pieces ++ ps) := by
    cases op with
    | not =>
        refine h.toLinked.blank.cons (written_of_lexed (show Token.Lexed (.word .notWord) from trivial) rfl) ?_
        intro q hq
        obtain rfl := Option.some.inj hq
        refine ⟨Or.inl fun tok htok => ?_, nofun⟩
        obtain rfl := Option.some.inj htok
        exact stops_cons.mpr (by decide)
    | neg => exact h.toLinked.quiet (m := .minus) rfl rfl
    | pos => exact h.toLinked.quiet (m := .plus) rfl rfl
    | invert => exact h.toLinked.quiet (m := .tilde) rfl rfl
  refine ⟨hlinked.ended h.last, fun p hp => ?_⟩
  cases op <;> obtain rfl := Option.some.inj hp <;> intro c hc <;>
    obtain rfl := Option.some.inj hc <;> decide

/-- What is written behind a star ends as its operand does. -/
theorem Apart.star {ps : List Piece} (h : Apart glued ps) {m : Mark} (hm : m = .star ∨ m = .assign) :
    Ended glued (mark m :: ps) := by
  have hlinked : Linked glued ([mark m] ++ ps) :=
    h.toLinked.cons (written_mark rfl) fun q hq => joins_star hm (h.first q hq)
  exact hlinked.ended h.last

end Piece

namespace Node

/-! ## Parts -/

theorem apart_slot {s : Slot} (h : Apart glued s.node.pieces) : Apart glued s.pieces := by
  unfold Slot.pieces
  split
  · exact h
  · exact h.groupedIf _

theorem ended_item {t : Node} (h : Apart glued t.itemSlot.pieces) : Ended glued t.pieces := by
  rw [pieces_itemSlot]
  split
  · exact h.star (Or.inl rfl)
  · exact h.toEnded

theorem ended_argument {t : Node} (h : Apart glued t.argumentSlot.pieces) :
    Ended glued t.pieces := by
  rw [pieces_argumentSlot]
  split
  · exact h.star (Or.inl rfl)
  · exact h.toEnded

theorem ended_keyword {k : Keyword Node} (h : Apart glued k.value.pieces)
    (hname : ∀ id value, k = .named id value → (Token.ident id).Lexed) :
    Ended glued (k.written pieces) := by
  cases k with
  | named id value =>
      have hid : Apart glued [.token (.ident id)] := apart_token (hname id value rfl) rfl
      have hassign := h.star (m := .assign) (Or.inr rfl)
      exact (hid.toEnded.border hassign.toLinked (borders_mark (by decide))).ended hassign.last
  | unpacked value =>
      have hlinked : Linked glued ([mark .doubleStar] ++ value.pieces) :=
        h.toLinked.quiet (m := .doubleStar) rfl rfl
      exact hlinked.ended h.last

/-- The arguments of a call are linked up to the mark that closes it. -/
theorem linked_arguments {args : List Node} {keywords : List (Keyword Node)}
    (hargs : ∀ arg ∈ args, Ended glued arg.pieces)
    (hkeywords : ∀ k ∈ keywords, Ended glued (k.written pieces)) :
    Linked glued (commaSeparated (args.map pieces ++ keywords.map (Keyword.written pieces))
      ++ [mark .rightParen]) := by
  have hitems : ∀ ps ∈ args.map pieces ++ keywords.map (Keyword.written pieces),
      Ended glued (id ps) := by
    intro ps hps
    rcases List.mem_append.mp hps with hps | hps
    · obtain ⟨arg, harg, rfl⟩ := List.mem_map.mp hps
      exact hargs arg harg
    · obtain ⟨k, hk, rfl⟩ := List.mem_map.mp hps
      exact hkeywords k hk
  have hrow := linked_row hitems (linked_mark (m := .rightParen) rfl) (borders_mark (by decide))
  rwa [List.map_id] at hrow

theorem ended_entry {e : Entry Node} (h : ∀ s ∈ entrySlots e, Apart glued s.node.pieces) :
    Ended glued (e.written pieces) := by
  cases e with
  | item key value =>
      have hkey := h key.inside List.mem_cons_self
      have hvalue := h value.inside (List.mem_cons_of_mem _ (List.mem_singleton_self _))
      have hcolon := hvalue.toLinked.blank.quiet (m := .colon) (p := mark .colon) rfl rfl
      refine Linked.ended (hkey.toEnded.border hcolon (borders_mark (by decide))) ?_
      obtain ⟨init, p, hinit, hp⟩ := hvalue.last
      exact ⟨mark .colon :: .blank :: init, p, by rw [show value.pieces = _ from hinit]; rfl, hp⟩
  | unpacked value =>
      have hvalue := h _ (List.mem_singleton_self _)
      have hlinked : Linked glued ([mark .doubleStar] ++ value.pieces) :=
        hvalue.toLinked.quiet (m := .doubleStar) rfl rfl
      exact hlinked.ended hvalue.last

theorem ended_links {ps : List Piece} (hps : Ended glued ps) {links : List (Link Node)}
    (h : ∀ link ∈ links, Apart glued (Slot.pieces ⟨.operand 5, link.operand⟩)) :
    Ended glued (ps ++ links.flatMap fun link =>
      link.op.pieces ++ Slot.pieces ⟨.operand 5, link.operand⟩) := by
  induction links generalizing ps with
  | nil =>
      rw [List.flatMap_nil, List.append_nil]
      exact hps
  | cons link links ih =>
      have hlink := hps.operator link.op (h link List.mem_cons_self).toEnded
      have hrest := ih hlink fun l hl => h l (List.mem_cons_of_mem _ hl)
      rw [List.flatMap_cons, ← List.append_assoc, ← List.append_assoc]
      exact hrest

/-- Only an integer itself ends with an integer where it needs no parentheses. -/
theorem eq_int_of_last {value : Node} (hvalue : value.Lawful) {v : Int}
    (h : (Slot.pieces ⟨.base, value⟩).getLast? = some (.token (.int v))) :
    value = .constant (.int v) := by
  have hpieces : Slot.pieces ⟨.base, value⟩
      = groupedIf (value.precedence < 13) value.pieces := rfl
  rw [hpieces] at h
  by_cases hlt : value.precedence < 13
  · rw [decide_eq_true hlt, groupedIf, if_pos rfl, List.getLast?_concat] at h
    cases h
  · rw [decide_eq_false hlt, groupedIf, if_neg Bool.false_ne_true] at h
    match value, hlt, h with
    | .constant c, _, h =>
        cases c with
        | int w =>
            have hw : w = v := by simpa [pieces, Constant.token] using h
            rw [hw]
        | bool b => cases b <;> cases h
        | _ => cases h
    | .name id, _, h => cases h
    | .attribute value attr, _, h =>
        rw [pieces_attribute] at h
        simp at h
    | .call ⟨func, args, keywords⟩, _, h =>
        rw [pieces_call, List.getLast?_concat] at h
        cases h
    | .subscript value slice, _, h =>
        rw [pieces_subscript, List.getLast?_concat] at h
        cases h
    | .list items, _, h =>
        rw [pieces_list, List.getLast?_concat] at h
        cases h
    | .tuple items, _, h =>
        rw [pieces_tuple, List.getLast?_concat] at h
        cases h
    | .dict entries, _, h =>
        rw [pieces_dict, List.getLast?_concat] at h
        cases h
    | .unary op operand, hlt, _ =>
        have hop := op.precedence_le
        exact absurd (show op.precedence < 13 by omega) hlt
    | .binary left op right, hlt, _ =>
        have hop := op.precedence_le
        exact absurd (show op.precedence < 13 by omega) hlt
    | .compare left links, hlt, _ =>
        have hfour := hvalue.fitting.precedence_compare
        exact absurd (by omega) hlt
    | .starred v, hlt, _ => exact absurd (Nat.zero_lt_succ 12) hlt

/-! ## The whole tree -/

/-- A tree keeps its tokens apart, and between the brackets of a subscript as well. -/
structure Separated (glued : Prop) (t : Node) : Prop where
  apart : Apart glued t.pieces
  sliced : ∀ {q : Piece} {qs : List Piece}, Linked glued (q :: qs) → q.Borders →
    Linked glued (t.sliced ++ q :: qs)

variable {σ : Toll}

/-- A tree whose names and numbers cost nothing has none at its root. -/
theorem lexed_of_own {value : Constant} (hσ : ∀ tok, σ.leaf tok = 0 → tok.Lexed)
    (h : (Node.constant value).own σ = 0) : value.token.Lexed := by
  cases value with
  | bool b => cases b <;> trivial
  | int v => exact hσ _ h
  | float x => exact hσ _ h
  | bytes text => exact hσ _ h
  | _ => trivial

/-- Between the brackets of a subscript the parts stand like the items of a tuple. -/
theorem linked_slice {slice : Node} (h : ∀ s ∈ slice.sliceSlots, Separated glued s.node)
    {q : Piece} {qs : List Piece} (hqs : Linked glued (q :: qs)) (hq : q.Borders) :
    Linked glued (slice.sliced ++ q :: qs) := by
  have hwhole (hmem : slice.inside ∈ slice.sliceSlots) : Linked glued (slice.sliced ++ q :: qs) :=
    (h _ hmem).sliced hqs hq
  cases slice with
  | tuple items =>
      cases items with
      | nil => exact hwhole (List.mem_singleton_self _)
      | cons item items =>
          by_cases hstar : (item :: items).any isStarred = true
          · refine hwhole ?_
            rw [sliceSlots, if_pos hstar]
            exact List.mem_singleton_self _
          · have hslots : sliceSlots (.tuple (item :: items)) = (item :: items).map inside :=
              if_neg hstar
            rw [hslots] at h
            have hitems : ∀ t ∈ item :: items, Ended glued t.pieces :=
              fun t ht => (h _ (List.mem_map_of_mem ht)).apart.toEnded
            show Linked glued (tupleItems (piecesOfEach (item :: items)) ++ _)
            rw [piecesOfEach_eq]
            exact linked_tupleItems hitems hqs hq
  | _ => exact hwhole (List.mem_singleton_self _)

/-- The pieces of a lawful tree keep clear of each other, if all its names and numbers may come out
    of a text; only in front of an attribute an integer may be glued to the point. -/
theorem Lawful.separated {t : Node} (h : t.Lawful) (hσ : ∀ tok, σ.leaf tok = 0 → tok.Lexed)
    (hfree : t.toll σ = 0) (hglued : t.Contains IntegerBase → glued) : Separated glued t := by
  induction t using Node.slotInduction with
  | step t ih =>
      rw [toll_eq] at hfree
      have hown : t.own σ = 0 := by omega
      have hpart : ∀ s ∈ t.slots, Separated glued s.node := by
        intro s hs
        refine ih s hs (h.slot hs) ?_ fun hcontains => hglued (.of_slot hs hcontains)
        have := List.le_sum_of_mem (List.mem_map_of_mem (f := fun s : Slot =>
          s.node.toll σ + charge σ s) hs)
        omega
      have hslot : ∀ s ∈ t.slots, Apart glued s.pieces := fun s hs => apart_slot (hpart s hs).apart
      -- between brackets only a tuple is written differently
      have hplain (hapart : Apart glued t.pieces) (hsliced : t.sliced = t.pieces) :
          Separated glued t :=
        ⟨hapart, fun hqs hq => hsliced ▸ hapart.toEnded.border hqs hq⟩
      match t, h, hown, hpart, hslot, hplain with
      | .name id, _, hown, _, _, hplain => exact hplain (apart_token (hσ _ hown) rfl) rfl
      | .constant value, _, hown, _, _, hplain =>
          refine hplain (apart_token (lexed_of_own hσ hown) ?_) rfl
          cases value with
          | bool b => cases b <;> rfl
          | _ => rfl
      | .attribute value attr, h, hown, _, hslot, hplain =>
          refine hplain ?_ rfl
          rw [pieces_attribute]
          refine (hslot _ (List.mem_singleton_self _)).attribute (hσ (.ident attr) hown) ?_
          intro v hlast
          obtain rfl : value = .constant (.int v) :=
            eq_int_of_last (h.slot (List.mem_singleton_self _)) hlast
          exact hglued (.here (.mk v attr))
      | .call ⟨func, args, keywords⟩, _, hown, hpart, hslot, hplain =>
          refine hplain ?_ rfl
          have hargs : ∀ arg ∈ args, Ended glued arg.pieces := fun arg harg =>
            ended_argument (hslot _ (List.mem_cons_of_mem _
              (List.mem_append_left _ (List.mem_map_of_mem harg))))
          have hkeywords : ∀ k ∈ keywords, Ended glued (k.written pieces) := by
            intro k hk
            refine ended_keyword (hpart k.value.inside (List.mem_cons_of_mem _
              (List.mem_append_right _ (List.mem_map.mpr ⟨k, hk, rfl⟩)))).apart ?_
            rintro id value rfl
            have hprices : (keywords.map (Keyword.price σ)).sum = 0 :=
              (Nat.add_eq_zero_iff.mp hown).2
            have hprice := List.le_sum_of_mem (List.mem_map_of_mem (f := Keyword.price σ) hk)
            exact hσ _ (Nat.le_zero.mp (hprices ▸ hprice))
          rw [pieces_call]
          exact (hslot _ List.mem_cons_self).bracketed (linked_arguments hargs hkeywords)
            rfl rfl (borders_mark (by decide))
      | .subscript value slice, _, _, hpart, hslot, hplain =>
          refine hplain ?_ rfl
          have hslice : Linked glued (slice.sliced ++ [mark .rightBracket]) :=
            linked_slice (fun s hs => hpart s (List.mem_cons_of_mem _ hs))
              (linked_mark rfl) (borders_mark (by decide))
          rw [pieces_subscriptSlots]
          exact (hslot _ List.mem_cons_self).bracketed hslice rfl rfl (borders_mark (by decide))
      | .list items, _, _, _, hslot, hplain =>
          refine hplain ?_ rfl
          have hitems : ∀ item ∈ items, Ended glued item.pieces := fun item hitem =>
            ended_item (hslot _ (List.mem_map_of_mem hitem))
          rw [pieces_list]
          exact (linked_row hitems (linked_mark rfl) (borders_mark (by decide))).brackets
            rfl rfl (opens_mark (by decide))
      | .tuple items, _, _, _, hslot, _ =>
          have hitems : ∀ item ∈ items, Ended glued item.pieces := fun item hitem =>
            ended_item (hslot _ (List.mem_map_of_mem hitem))
          have htuple : Apart glued (tuple items).pieces := by
            rw [pieces_tuple]
            exact (linked_tupleItems hitems (linked_mark rfl)
              (borders_mark (by decide))).brackets rfl rfl (opens_mark (by decide))
          refine ⟨htuple, fun hqs hq => ?_⟩
          cases items with
          | nil => exact htuple.toEnded.border hqs hq
          | cons item items =>
              show Linked glued (tupleItems (piecesOfEach (item :: items)) ++ _)
              rw [piecesOfEach_eq]
              exact linked_tupleItems hitems hqs hq
      | .dict entries, _, _, hpart, _, hplain =>
          refine hplain ?_ rfl
          have hentries : ∀ e ∈ entries, Ended glued (e.written pieces) := fun e he =>
            ended_entry fun s hs => (hpart s (List.mem_flatMap.mpr ⟨e, he, hs⟩)).apart
          rw [pieces_dict]
          exact (linked_row hentries (linked_mark rfl) (borders_mark (by decide))).brackets
            rfl rfl (opens_mark (by decide))
      | .unary op operand, _, _, _, hslot, hplain =>
          refine hplain ?_ rfl
          rw [pieces_unary]
          exact (hslot _ (List.mem_singleton_self _)).unary op
      | .binary left op right, _, _, _, hslot, hplain =>
          refine hplain ?_ rfl
          have hleft := hslot _ List.mem_cons_self
          have hright := hslot _ (List.mem_cons_of_mem _ (List.mem_singleton_self _))
          have hended := hleft.toEnded.operator op hright.toEnded
          rw [List.append_assoc] at hended
          rw [pieces_binary, List.append_assoc]
          exact hended.apart hleft
      | .compare left links, _, _, _, hslot, hplain =>
          refine hplain ?_ rfl
          have hleft := hslot _ List.mem_cons_self
          have hended := ended_links hleft.toEnded fun link hlink =>
            hslot _ (List.mem_cons_of_mem _ (List.mem_map.mpr ⟨link, hlink, rfl⟩))
          rw [pieces_compare]
          exact hended.apart hleft
      | .starred v, h, _, _, _, _ => exact h.fitting.elim

/-! ## Integers in front of attributes -/

section

variable {ps : List Piece}

theorem within_commaSeparated {pss : List (List Piece)} (h : ps ∈ pss) :
    ps <:+: commaSeparated pss := by
  induction pss with
  | nil => exact absurd h List.not_mem_nil
  | cons qs pss ih =>
      cases pss with
      | nil =>
          obtain rfl := List.mem_singleton.mp h
          have hsingle : commaSeparated [ps] = ps := List.intercalate_singleton
          exact hsingle.symm ▸ List.infix_refl ps
      | cons rs pss =>
          rw [commaSeparated, List.intercalate_cons_cons]
          rcases List.mem_cons.mp h with rfl | h
          · rw [List.append_assoc]
            exact List.infix_append_left
          · exact List.infix_append_of_infix_right (ih h)

theorem within_groupedIf (needed : Bool) : ps <:+: groupedIf needed ps := by
  cases needed with
  | false => exact List.infix_rfl
  | true => exact List.infix_append [groupStart] ps [groupEnd]

/-- Between brackets a tuple is written without its own. -/
theorem sliced_within (t : Node) : t.sliced <:+: t.pieces := by
  unfold sliced
  split
  · rename_i item items
    rw [pieces_tuple, piecesOfEach_eq]
    exact List.infix_append [mark .leftParen] _ [mark .rightParen]
  · exact List.infix_rfl

theorem sliced_within_slot (s : Slot) : s.node.sliced <:+: s.pieces := by
  refine (sliced_within s.node).trans ?_
  unfold Slot.pieces
  split
  · exact List.infix_rfl
  · exact within_groupedIf _

theorem sliced_within_item (t : Node) : t.itemSlot.node.sliced <:+: t.pieces := by
  refine (sliced_within_slot t.itemSlot).trans ?_
  rw [pieces_itemSlot]
  split
  · exact List.infix_cons List.infix_rfl
  · exact List.infix_rfl

theorem sliced_within_argument (t : Node) : t.argumentSlot.node.sliced <:+: t.pieces := by
  refine (sliced_within_slot t.argumentSlot).trans ?_
  rw [pieces_argumentSlot]
  split
  · exact List.infix_cons List.infix_rfl
  · exact List.infix_rfl

theorem sliced_within_keyword (k : Keyword Node) : k.value.sliced <:+: k.written pieces := by
  cases k with
  | named id value => exact List.infix_cons (List.infix_cons (sliced_within value))
  | unpacked value => exact List.infix_cons (sliced_within value)

theorem sliced_within_entry {e : Entry Node} {s : Slot} (h : s ∈ entrySlots e) :
    s.node.sliced <:+: e.written pieces := by
  refine (sliced_within s.node).trans ?_
  cases e with
  | item key value =>
      rcases List.mem_cons.mp h with rfl | h
      · exact List.infix_append_left
      · obtain rfl := List.mem_singleton.mp h
        exact List.infix_append_of_infix_right (List.infix_cons (List.infix_cons List.infix_rfl))
  | unpacked value =>
      obtain rfl := List.mem_singleton.mp h
      exact List.infix_cons List.infix_rfl

theorem sliced_within_slice {slice : Node} {s : Slot} (h : s ∈ slice.sliceSlots) :
    s.node.sliced <:+: slice.sliced := by
  unfold sliceSlots at h
  split at h
  · split at h
    · obtain rfl := List.mem_singleton.mp h
      exact List.infix_rfl
    · rename_i item items _
      obtain ⟨t, ht, rfl⟩ := List.mem_map.mp h
      show t.sliced <:+: tupleItems (piecesOfEach (item :: items))
      rw [piecesOfEach_eq]
      exact (sliced_within t).trans
        ((within_commaSeparated (List.mem_map_of_mem ht)).trans List.infix_append_left)
  · obtain rfl := List.mem_singleton.mp h
    exact List.infix_rfl

/-- What stands in a slot is written inside the text of the node, a tuple perhaps without its own
    parentheses. -/
theorem sliced_within_of_slot {t : Node} {s : Slot} (h : s ∈ t.slots) :
    s.node.sliced <:+: t.pieces := by
  have hbetween {ps rs : List Piece} (p q : Piece) (h : ps <:+: rs) : ps <:+: p :: rs ++ [q] :=
    h.trans (List.infix_append [p] rs [q])
  match t, h with
  | .attribute value attr, h =>
      obtain rfl := List.mem_singleton.mp h
      rw [pieces_attribute]
      exact (sliced_within_slot _).trans List.infix_append_left
  | .call ⟨func, args, keywords⟩, h =>
      rw [pieces_call, List.append_assoc]
      rcases List.mem_cons.mp h with rfl | h
      · exact (sliced_within_slot _).trans List.infix_append_left
      refine List.infix_append_of_infix_right (hbetween _ _ ?_)
      rcases List.mem_append.mp h with h | h
      · obtain ⟨arg, harg, rfl⟩ := List.mem_map.mp h
        exact (sliced_within_argument arg).trans
          (within_commaSeparated (List.mem_append_left _ (List.mem_map_of_mem harg)))
      · obtain ⟨k, hk, rfl⟩ := List.mem_map.mp h
        exact (sliced_within_keyword k).trans
          (within_commaSeparated (List.mem_append_right _ (List.mem_map_of_mem hk)))
  | .subscript value slice, h =>
      rw [pieces_subscript, List.append_assoc]
      rcases List.mem_cons.mp h with rfl | h
      · exact (sliced_within_slot ⟨.base, value⟩).trans List.infix_append_left
      · exact List.infix_append_of_infix_right (hbetween _ _ (sliced_within_slice h))
  | .list items, h =>
      obtain ⟨item, hitem, rfl⟩ := List.mem_map.mp h
      rw [pieces_list]
      exact hbetween _ _ ((sliced_within_item item).trans
        (within_commaSeparated (List.mem_map_of_mem hitem)))
  | .tuple items, h =>
      obtain ⟨item, hitem, rfl⟩ := List.mem_map.mp h
      rw [pieces_tuple]
      exact hbetween _ _ ((sliced_within_item item).trans
        ((within_commaSeparated (List.mem_map_of_mem hitem)).trans List.infix_append_left))
  | .dict entries, h =>
      obtain ⟨e, he, hs⟩ := List.mem_flatMap.mp h
      rw [pieces_dict]
      exact hbetween _ _ ((sliced_within_entry hs).trans
        (within_commaSeparated (List.mem_map_of_mem he)))
  | .unary op operand, h =>
      obtain rfl := List.mem_singleton.mp h
      rw [pieces_unary]
      exact List.infix_append_of_infix_right (sliced_within_slot _)
  | .binary left op right, h =>
      rw [pieces_binary]
      rcases List.mem_cons.mp h with rfl | h
      · rw [List.append_assoc]
        exact (sliced_within_slot _).trans List.infix_append_left
      · obtain rfl := List.mem_singleton.mp h
        exact List.infix_append_of_infix_right (sliced_within_slot _)
  | .compare left links, h =>
      rw [pieces_compare]
      rcases List.mem_cons.mp h with rfl | h
      · exact (sliced_within_slot _).trans List.infix_append_left
      · obtain ⟨link, hlink, rfl⟩ := List.mem_map.mp h
        refine List.infix_append_of_infix_right ?_
        rw [List.flatMap_def]
        exact ((sliced_within_slot ⟨.operand 5, link.operand⟩).trans List.infix_append_right).trans
          (List.infix_of_mem_flatten (List.mem_map_of_mem hlink))

/-- No integer is glued to the parentheses of a tuple. -/
theorem gluedIn_sliced {t : Node} (h : GluedIn t.pieces) : GluedIn t.sliced := by
  unfold Node.sliced
  split
  · rename_i item items
    obtain ⟨value, hvalue⟩ := h
    rw [pieces_tuple] at hvalue
    rw [piecesOfEach_eq]
    refine ⟨value, ?_⟩
    rw [List.cons_append] at hvalue
    rcases List.infix_cons_iff.mp hvalue with ⟨rest, hrest⟩ | hvalue
    · exact absurd (List.cons.inj hrest).1 nofun
    · rcases List.infix_concat_iff.mp hvalue with hlast | hvalue
      · obtain ⟨init, hinit⟩ := hlast
        have hdot : [mark .dot] = [mark .rightParen] :=
          (List.append_inj' ((List.append_assoc init [.token (.int value)] _).trans hinit) rfl).2
        exact absurd hdot nofun
      · exact hvalue
  · exact h

/-- An integer in front of an attribute is glued to the point. -/
theorem Contains.gluedIn {t : Node} (h : t.Lawful) (hbase : t.Contains IntegerBase) :
    GluedIn t.pieces := by
  induction t using Node.slotInduction with
  | step t ih =>
      rcases hbase.here_or_slot integerBase_seated h.isStarred with hhere | ⟨s, hs, hpart⟩
      · obtain ⟨value, attr⟩ := hhere
        exact ⟨value, [], [.token (.ident attr)], by rw [pieces_attribute]; rfl⟩
      · exact (gluedIn_sliced (ih s hs (h.slot hs) hpart)).within (sliced_within_of_slot hs)

end

end Node

end CallSite
