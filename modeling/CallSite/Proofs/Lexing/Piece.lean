import CallSite.Expr.Source
import CallSite.Proofs.Lexing.Stream
import CallSite.Proofs.Tree.Toll

/-!
# Pieces — texts of pieces that are cut apart again

A text of pieces that keep clear of each other is cut into their tokens (`lexes_pieces`).  Operands
keep clear of the blanks, brackets and commas at their borders, so the texts of operands are put
together without looking into them (`Linked`, `Ended`, `Apart`).  The one piece that takes in the
next is an integer in front of a point.
-/

namespace CallSite

/-! ## Texts of pieces -/

namespace Piece

/-- A piece whose spelling is read, if not as the piece itself. -/
def Written (p : Piece) : Prop :=
  ∀ tok ∈ p.token?, tok.asRead.Legible ∧ tok.asRead.chars = tok.chars

/-- A piece does not take in the next one. -/
def Clear (p q : Piece) : Prop := ∀ tok ∈ p.token?, Stops tok.asRead.runsInto q.chars

/-- An integer in front of the point of an attribute. -/
def Glued (p q : Piece) : Prop := (∃ value, p = .token (.int value)) ∧ q = mark .dot

/-- Somewhere in the text an integer stands in front of a point. -/
def GluedIn (ps : List Piece) : Prop := ∃ value, [.token (.int value), mark .dot] <:+: ps

/-- A piece may stand in front of another: it does not take it in, unless integers may be glued to
    points, and behind a point stands a name. -/
def Joins (glued : Prop) (p q : Piece) : Prop :=
  (Clear p q ∨ glued ∧ Glued p q) ∧ (p = mark .dot → ∃ name, q = .token (.ident name))

theorem GluedIn.within {ps qs : List Piece} (h : GluedIn ps) (hwithin : ps <:+: qs) : GluedIn qs := by
  obtain ⟨value, hvalue⟩ := h
  exact ⟨value, hvalue.trans hwithin⟩

/-- Every piece has characters. -/
theorem Written.chars_ne_nil {p : Piece} (h : p.Written) : p.chars ≠ [] := by
  unfold chars
  cases htok : p.token? with
  | none => exact List.cons_ne_nil _ _
  | some tok =>
      obtain ⟨hlegible, hchars⟩ := h tok htok
      obtain ⟨c, cs, hcons, -⟩ := hlegible.ofText stops_nil
      show tok.chars ≠ []
      rw [← hchars, hcons]
      exact List.cons_ne_nil _ _

theorem stops_append {p : Char → Bool} {cs ds : List Char} (hcs : cs ≠ []) (h : Stops p cs) :
    Stops p (cs ++ ds) := by
  cases cs with
  | nil => exact absurd rfl hcs
  | cons c cs => exact stops_cons.mpr (stops_cons.mp h)

/-- Pieces that keep clear of each other are cut apart into what is read for them. -/
theorem lexes_pieces {ps : List Piece} (hps : ∀ p ∈ ps, p.Written)
    (hjoins : ps.IsChain (Joins False)) :
    Lexes (ps.flatMap chars) ((ps.filterMap token?).map Token.asRead) := by
  induction ps with
  | nil => exact lexes_nil
  | cons p ps ih =>
      have hrest := ih (fun q hq => hps q (List.mem_cons_of_mem p hq)) hjoins.tail
      have hp := hps p List.mem_cons_self
      rw [List.flatMap_cons, List.filterMap_cons]
      cases htok : p.token? with
      | none =>
          have hchars : p.chars = [' '] := by
            rw [chars, htok]
          rw [hchars]
          exact hrest.blank
      | some tok =>
          obtain ⟨hlegible, hspelled⟩ := hp tok htok
          have hchars : p.chars = tok.asRead.chars := by
            rw [chars, htok]
            exact hspelled.symm
          rw [hchars]
          refine hrest.token hlegible ?_
          cases ps with
          | nil => exact stops_nil
          | cons q ps =>
              have hq := hps q (List.mem_cons_of_mem p List.mem_cons_self)
              rcases (List.isChain_cons_cons.mp hjoins).1.1 with hclear | hglued
              · exact stops_append hq.chars_ne_nil (hclear tok htok)
              · exact hglued.1.elim

end Piece

/-! ## Characters at borders -/

/-- The characters that may follow an operand. -/
def borders : List Char := [' ', ',', ')', ']', '\x7d', ':', '=', '(', '[']

namespace Piece

variable {glued : Prop} {p q : Piece} {ps qs : List Piece}

/-- The piece ends an operand. -/
def Ends (p : Piece) : Prop := ∃ tok, p.token? = some tok ∧ tok.ends = true

/-- The piece may follow an operand. -/
def Borders (p : Piece) : Prop := ∀ c ∈ p.chars.head?, c ∈ borders

/-- The piece may stand behind a star or an equals sign. -/
def Opens (p : Piece) : Prop := ∀ c ∈ p.chars.head?, c ≠ '*' ∧ c ≠ '='

theorem Ends.ne_dot (h : p.Ends) : p ≠ mark .dot := by
  rintro rfl
  obtain ⟨tok, htok, hends⟩ := h
  cases htok
  exact absurd hends (by decide)

/-- What ends an operand does not take in a border. -/
theorem runsInto_border {tok : Token} (h : tok.ends = true) {c : Char} (hc : c ∈ borders) :
    tok.asRead.runsInto c = false := by
  have hword : ((continuesWord c || isQuote c) || (c == '+' || c == '-')) = false := by
    have hall : borders.all (fun c =>
        !((continuesWord c || isQuote c) || (c == '+' || c == '-'))) = true := by decide
    exact (Bool.not_eq_true' _).mp (List.all_eq_true.mp hall c hc)
  have hnumber : continuesWord c = false ∧ (continuesWord c || c == '.') = false := by
    have hall : borders.all (fun c =>
        !continuesWord c && !(continuesWord c || c == '.')) = true := by decide
    simpa only [Bool.and_eq_true, Bool.not_eq_true'] using List.all_eq_true.mp hall c hc
  cases tok with
  | ident name => exact hword
  | str text => rfl
  | bytes text => rfl
  | int value => exact hnumber.2
  | float value =>
      cases hfinite : value.isFinite with
      | true =>
          rw [Token.asRead_float hfinite]
          exact hnumber.1
      | false =>
          rw [Token.asRead_infinite hfinite]
          exact hword
  | word w => exact hword
  | mark m =>
      have hall : ∀ m ∈ Mark.all, Token.ends (.mark m) = true →
          borders.all (fun c => !m.runsInto c) = true := by decide
      exact (Bool.not_eq_true' _).mp (List.all_eq_true.mp (hall m (Mark.mem_all m) h) c hc)
  | eof => exact absurd h (by decide)

/-- Only an integer takes in a point. -/
theorem runsInto_point {tok : Token} (h : tok.ends = true) (hint : ∀ value, tok ≠ .int value) :
    tok.asRead.runsInto '.' = false := by
  have hword : ((continuesWord '.' || isQuote '.') || ('.' == '+' || '.' == '-')) = false := by
    decide
  have hnumber : continuesWord '.' = false := by decide
  cases tok with
  | int value => exact absurd rfl (hint value)
  | ident name => exact hword
  | str text => rfl
  | bytes text => rfl
  | float value =>
      cases hfinite : value.isFinite with
      | true =>
          rw [Token.asRead_float hfinite]
          exact hnumber
      | false =>
          rw [Token.asRead_infinite hfinite]
          exact hword
  | word w => exact hword
  | mark m =>
      have hall : ∀ m ∈ Mark.all, Token.ends (.mark m) = true → m.runsInto '.' = false := by decide
      exact hall m (Mark.mem_all m) h
  | eof => exact absurd h (by decide)

theorem joins_border (hp : p.Ends) (hq : q.Borders) : Joins glued p q := by
  refine ⟨Or.inl fun tok htok c hc => ?_, fun hdot => absurd hdot hp.ne_dot⟩
  obtain ⟨tok', htok', hends⟩ := hp
  obtain rfl := Option.some.inj (htok'.symm.trans htok)
  exact runsInto_border hends (hq c hc)

theorem joins_point (hp : p.Ends) (hint : glued ∨ ∀ value, p ≠ .token (.int value)) :
    Joins glued p (mark .dot) := by
  refine ⟨?_, fun hdot => absurd hdot hp.ne_dot⟩
  by_cases hglued : ∃ value, p = .token (.int value)
  · rcases hint with hint | hint
    · exact Or.inr ⟨hint, hglued, rfl⟩
    · obtain ⟨value, hvalue⟩ := hglued
      exact absurd hvalue (hint value)
  · refine Or.inl fun tok htok => stops_cons.mpr ?_
    obtain ⟨tok', htok', hends⟩ := hp
    obtain rfl := Option.some.inj (htok'.symm.trans htok)
    refine runsInto_point hends fun value hvalue => hglued ⟨value, ?_⟩
    subst hvalue
    cases p <;> cases htok
    rfl

/-- The marks that take in nothing. -/
def isQuiet : Mark → Bool
  | .dot | .star | .slash | .less | .greater | .assign => false
  | _ => true

theorem runsInto_quiet {m : Mark} (h : isQuiet m = true) (c : Char) : m.runsInto c = false := by
  cases m <;> first
    | exact absurd h (by decide)
    | rfl

theorem joins_quiet {m : Mark} (h : isQuiet m = true) (hp : p.token? = some (.mark m)) :
    Joins glued p q := by
  refine ⟨Or.inl fun tok htok c _ => ?_, ?_⟩
  · obtain rfl := Option.some.inj (hp.symm.trans htok)
    exact runsInto_quiet h c
  · rintro rfl
    cases hp
    exact absurd h (by decide)

theorem joins_blank : Joins glued .blank q := ⟨Or.inl nofun, nofun⟩

/-- No operator takes in a blank. -/
theorem joins_operator (op : BinaryOp) : Joins glued (.token op.token) .blank := by
  refine ⟨Or.inl fun tok htok => ?_, fun hdot => ?_⟩
  · obtain rfl := Option.some.inj htok
    refine stops_cons.mpr ?_
    cases op <;> decide
  · cases op <;> exact absurd hdot (by decide)

theorem joins_star {m : Mark} (hm : m = .star ∨ m = .assign) (hq : q.Opens) :
    Joins glued (mark m) q := by
  refine ⟨Or.inl fun tok htok c hc => ?_, ?_⟩
  · obtain rfl := Option.some.inj htok
    obtain ⟨hstar, hassign⟩ := hq c hc
    rcases hm with rfl | rfl <;>
      simp [Token.asRead, Token.runsInto, Mark.runsInto, Mark.all, Mark.chars,
        List.isPrefixOf, hstar, hassign]
  · rcases hm with rfl | rfl <;> rintro ⟨⟩

/-- A point does not take in a name. -/
theorem joins_name {name : String} (h : Written (.token (.ident name))) :
    Joins glued (mark .dot) (.token (.ident name)) := by
  refine ⟨Or.inl fun tok htok c hc => ?_, fun _ => ⟨name, rfl⟩⟩
  obtain rfl := Option.some.inj htok
  obtain ⟨⟨d, ds, hname, hd, -, -⟩, -⟩ := h _ rfl
  obtain rfl : d = c := by
    have hhead : name.toList.head? = some c := hc
    rw [hname] at hhead
    exact Option.some.inj hhead
  have hpoint : d ≠ '.' := ne_of_opensWord hd.opens (by decide)
  simp [Token.asRead, Token.runsInto, Mark.runsInto, Mark.all, Mark.chars, List.isPrefixOf, hd.digit,
    hpoint]

end Piece

/-! ## Putting texts together -/

namespace Piece

variable {glued : Prop} {p q : Piece} {ps qs : List Piece}

theorem written_of_lexed {tok : Token} (h : tok.Lexed) (hp : p.token? = some tok) : p.Written := by
  intro tok' htok'
  obtain rfl := Option.some.inj (hp.symm.trans htok')
  exact h.asRead

theorem written_mark {m : Mark} (hp : p.token? = some (.mark m)) : p.Written :=
  written_of_lexed (show Token.Lexed (.mark m) from trivial) hp

theorem written_blank : Written .blank := nofun

/-- Pieces that may stand in this order. -/
structure Linked (glued : Prop) (ps : List Piece) : Prop where
  written : ∀ p ∈ ps, p.Written
  joins : ps.IsChain (Joins glued)

/-- Pieces that end an operand. -/
structure Ended (glued : Prop) (ps : List Piece) : Prop extends Linked glued ps where
  last : ∃ init p, ps = init ++ [p] ∧ p.Ends

/-- Pieces of an operand that may stand behind a star. -/
structure Apart (glued : Prop) (ps : List Piece) : Prop extends Ended glued ps where
  first : ∀ p ∈ ps.head?, p.Opens

theorem linked_nil : Linked glued [] := ⟨nofun, .nil⟩

theorem Linked.cons (h : Linked glued ps) (hp : p.Written) (hjoin : ∀ q ∈ ps.head?, Joins glued p q) :
    Linked glued (p :: ps) := by
  refine ⟨fun q hq => ?_, List.isChain_cons.mpr ⟨hjoin, h.joins⟩⟩
  rcases List.mem_cons.mp hq with rfl | hq
  · exact hp
  · exact h.written q hq

theorem Linked.tail (h : Linked glued (p :: ps)) : Linked glued ps :=
  ⟨fun q hq => h.written q (List.mem_cons_of_mem p hq), h.joins.tail⟩

theorem Linked.append (hps : Linked glued ps) (hqs : Linked glued qs)
    (hjoin : ∀ p ∈ ps.getLast?, ∀ q ∈ qs.head?, Joins glued p q) : Linked glued (ps ++ qs) := by
  refine ⟨fun q hq => ?_, hps.joins.append hqs.joins hjoin⟩
  rcases List.mem_append.mp hq with hq | hq
  · exact hps.written q hq
  · exact hqs.written q hq

/-- A bracket or a comma may stand in front of anything. -/
theorem Linked.quiet {m : Mark} (h : Linked glued ps) (hm : isQuiet m = true)
    (hp : p.token? = some (.mark m)) : Linked glued (p :: ps) :=
  h.cons (written_mark hp) fun _ _ => joins_quiet hm hp

theorem Linked.blank (h : Linked glued ps) : Linked glued (.blank :: ps) :=
  h.cons written_blank fun _ _ => joins_blank

/-- Behind an operand stands a border. -/
theorem Ended.border (hps : Ended glued ps) (hqs : Linked glued (q :: qs)) (hq : q.Borders) :
    Linked glued (ps ++ q :: qs) := by
  refine hps.toLinked.append hqs fun p hp q' hq' => ?_
  obtain ⟨init, last, rfl, hends⟩ := hps.last
  rw [List.getLast?_concat] at hp
  obtain rfl := Option.some.inj hp
  obtain rfl := Option.some.inj hq'
  exact joins_border hends hq

theorem Linked.ended (h : Linked glued (ps ++ qs))
    (hlast : ∃ init p, qs = init ++ [p] ∧ p.Ends) : Ended glued (ps ++ qs) := by
  obtain ⟨init, p, rfl, hp⟩ := hlast
  exact ⟨h, ps ++ init, p, (List.append_assoc ..).symm, hp⟩

/-- What begins like an operand may stand where the operand may. -/
theorem Ended.apart (h : Ended glued (ps ++ qs)) (hps : Apart glued ps) : Apart glued (ps ++ qs) := by
  refine ⟨h, fun p hp => hps.first p ?_⟩
  obtain ⟨init, last, rfl, -⟩ := hps.last
  cases init <;> exact hp

theorem borders_mark {m : Mark} (h : m.chars.head?.all (· ∈ borders) = true) :
    (mark m).Borders := fun c hc => of_decide_eq_true ((Option.all_eq_true _ _).mp h c hc)

theorem opens_mark {m : Mark} (h : m.chars.head?.all (fun c => c ≠ '*' ∧ c ≠ '=') = true) :
    (mark m).Opens := fun c hc => of_decide_eq_true ((Option.all_eq_true _ _).mp h c hc)

theorem ends_mark {m : Mark} (h : Token.ends (.mark m) = true) : (mark m).Ends := ⟨.mark m, rfl, h⟩

/-- An operand in parentheses is one as well. -/
theorem Apart.groupedIf (h : Apart glued ps) (needed : Bool) :
    Apart glued (groupedIf needed ps) := by
  cases needed with
  | false => exact h
  | true =>
      have hend : Linked glued [groupEnd] := linked_nil.quiet (m := .rightParen) rfl rfl
      have hborder : groupEnd.Borders := borders_mark (m := .rightParen) (by decide)
      have hopens : groupStart.Opens := opens_mark (m := .leftParen) (by decide)
      have hlinked := (h.toEnded.border hend hborder).quiet (m := .leftParen) (p := groupStart)
        rfl rfl
      refine ⟨⟨hlinked, groupStart :: ps, groupEnd, rfl, .mark .rightParen, rfl, rfl⟩, ?_⟩
      intro p hp
      obtain rfl := Option.some.inj hp
      exact hopens

variable {α : Type} {write : α → List Piece} {as : List α}

/-- A row of operands may stand between brackets. -/
theorem linked_row (h : ∀ a ∈ as, Ended glued (write a)) (hqs : Linked glued (q :: qs))
    (hq : q.Borders) : Linked glued (commaSeparated (as.map write) ++ q :: qs) := by
  induction as with
  | nil => exact hqs
  | cons a as ih =>
      have ha := h a List.mem_cons_self
      have hrest := ih fun b hb => h b (List.mem_cons_of_mem a hb)
      cases as with
      | nil =>
          rw [List.map_cons, List.map_nil, commaSeparated, List.intercalate_singleton]
          exact ha.border hqs hq
      | cons b as =>
          have hcomma := hrest.blank.quiet (m := .comma) (p := mark .comma) rfl rfl
          rw [List.map_cons, List.map_cons, commaSeparated, List.intercalate_cons_cons,
            List.append_assoc, List.append_assoc]
          exact ha.border hcomma (borders_mark (by decide))

theorem linked_tupleItems (h : ∀ a ∈ as, Ended glued (write a)) (hqs : Linked glued (q :: qs))
    (hq : q.Borders) : Linked glued (tupleItems (as.map write) ++ q :: qs) := by
  unfold tupleItems
  split
  · rw [List.append_assoc]
    exact linked_row h (hqs.quiet rfl rfl) (borders_mark (by decide))
  · rw [List.append_nil]
    exact linked_row h hqs hq

end Piece

end CallSite
