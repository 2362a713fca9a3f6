import CallSite.Parser.Source

/-!
# Likeness — one reader over two kinds of states

The readers of expressions are built from a few primitives and from readers of nested operands.  In
states with the same cursor the primitives do the same, so everything that is built from them does
the same when the readers of nested operands do.  This is stated for any relation between states
(`Parser.Alike`) and handed on function by function, up to the loop over the operators
(`Parser.alike_climb`).

The first of two readers may also fail with an error that is excused.  What excuses it may depend on
the state that the second reader is left in, as long as every reader keeps it.  That is how a reader
with less depth is like one with more.
-/

namespace CallSite

open HasCursor

namespace Parser

/-! ## Readers that are alike -/

section

variable {σ τ α β : Type}

/-- The state that a reader is left in. -/
def endState : EStateM.Result ParseError σ α → σ
  | .ok _ s => s
  | .error _ s => s

/-- Outcomes that are alike: one value or one error, in related states.  The first may also be an
    error that is excused by where the second ends. -/
inductive AlikeResult (R : σ → τ → Prop) (excused : ParseError → τ → Prop) :
    EStateM.Result ParseError σ α → EStateM.Result ParseError τ α → Prop where
  | ok (a : α) {s : σ} {t : τ} : R s t → AlikeResult R excused (.ok a s) (.ok a t)
  | error (e : ParseError) {s : σ} {t : τ} : R s t → AlikeResult R excused (.error e s) (.error e t)
  | excused {e : ParseError} {s : σ} {r : EStateM.Result ParseError τ α} :
      excused e (endState r) → AlikeResult R excused (.error e s) r

/-- In related states two readers have outcomes that are alike, and the second takes no excuse
    back. -/
structure Alike (R : σ → τ → Prop) (excused : ParseError → τ → Prop) (p : ParserOn σ α)
    (q : ParserOn τ α) : Prop where
  alike : ∀ {s t}, R s t → AlikeResult R excused (p s) (q t)
  keeps : ∀ {e t}, excused e t → excused e (endState (q t))

/-- Nothing is excused. -/
def NoExcuse : ParseError → τ → Prop := fun _ _ => False

variable {R : σ → τ → Prop} {excused : ParseError → τ → Prop}

theorem Alike.pure (a : α) : Alike R excused (pure a : ParserOn σ α) (pure a : ParserOn τ α) where
  alike := .ok a
  keeps := fun he => he

theorem Alike.bind {p : ParserOn σ α} {q : ParserOn τ α} {f : α → ParserOn σ β}
    {g : α → ParserOn τ β} (h : Alike R excused p q) (hf : ∀ a, Alike R excused (f a) (g a)) :
    Alike R excused (p >>= f) (q >>= g) := by
  -- an excuse that holds behind the first part still holds behind the second
  have hkeeps {e : ParseError} {t : τ} (he : excused e (endState (q t))) :
      excused e (endState (EStateM.bind q g t)) := by
    unfold EStateM.bind
    cases hq : q t with
    | ok a t' =>
        rw [hq] at he
        exact (hf a).keeps he
    | error e' t' =>
        rw [hq] at he
        exact he
  constructor
  · intro s t hst
    have hpq := h.alike hst
    show AlikeResult R excused (EStateM.bind p f s) (EStateM.bind q g t)
    cases hp : p s with
    | ok a s' =>
        rw [hp] at hpq
        cases hq : q t with
        | ok b t' =>
            rw [hq] at hpq
            cases hpq with
            | ok _ hst =>
                have := (hf a).alike hst
                rwa [EStateM.bind, EStateM.bind, hp, hq]
        | error e t' =>
            rw [hq] at hpq
            cases hpq
    | error e s' =>
        rw [hp] at hpq
        have hleft : EStateM.bind p f s = .error e s' := by
          rw [EStateM.bind, hp]
        rw [hleft]
        generalize hq : q t = r at hpq
        cases hpq with
        | error _ hst =>
            rw [EStateM.bind, hq]
            exact .error e hst
        | excused he => exact .excused (hkeeps (hq ▸ he))
  · intro e t he
    exact hkeeps (h.keeps he)

theorem Alike.ite {P : Prop} [Decidable P] {p p' : ParserOn σ α} {q q' : ParserOn τ α}
    (h : Alike R excused p q) (h' : Alike R excused p' q') :
    Alike R excused (if P then p else p') (if P then q else q') := by
  split
  · exact h
  · exact h'

/-- Related states have one cursor, they stay related when both move on alike, and no excuse is lost
    by moving on. -/
structure SameCursor [HasCursor σ] [HasCursor τ] (R : σ → τ → Prop)
    (excused : ParseError → τ → Prop) : Prop where
  cursor : ∀ {s t}, R s t → cursor s = cursor t
  moveTo : ∀ {s t rest}, R s t → rest <:+ (HasCursor.cursor s).rest →
    R (moveTo s ⟨rest, (HasCursor.cursor s).last⟩) (moveTo t ⟨rest, (HasCursor.cursor s).last⟩)
  keeps : ∀ {e t c}, excused e t → excused e (HasCursor.moveTo t c)

end

/-- The texts at the head of a list of tokens are read, and no others. -/
theorem joinTexts_suffix (rest : List (Located Token)) : (joinTexts rest).2 <:+ rest := by
  induction rest with
  | nil => exact List.suffix_refl _
  | cons t rest ih =>
      obtain ⟨value, pos⟩ := t
      cases value with
      | str text => exact ih.trans (List.suffix_cons _ rest)
      | _ => exact List.suffix_refl _

section

variable {σ τ : Type} [HasCursor σ] [HasCursor τ] {R : σ → τ → Prop}
  {excused : ParseError → τ → Prop} (hR : SameCursor R excused)
include hR

/-! ## Primitives -/

theorem alike_peek : Alike R excused (peek : ParserOn σ Token) peek := by
  refine ⟨fun hst => ?_, fun he => he⟩
  rw [peek, peek, hR.cursor hst]
  exact .ok _ hst

theorem alike_remaining : Alike R excused (remaining : ParserOn σ Nat) remaining := by
  refine ⟨fun hst => ?_, fun he => he⟩
  rw [remaining, remaining, hR.cursor hst]
  exact .ok _ hst

theorem alike_keyword? : Alike R excused (keyword? : ParserOn σ (Option String)) keyword? := by
  refine ⟨fun hst => ?_, fun he => he⟩
  rw [keyword?, keyword?, hR.cursor hst]
  exact .ok _ hst

theorem alike_advance : Alike R excused (advance : ParserOn σ Unit) advance := by
  refine ⟨fun hst => ?_, hR.keeps⟩
  rw [advance, advance, ← hR.cursor hst]
  exact .ok () (hR.moveTo hst (List.tail_suffix _))

theorem alike_fail {α : Type} (fault : Fault) :
    Alike R excused (fail fault : ParserOn σ α) (fail fault) := by
  refine ⟨fun hst => ?_, fun he => he⟩
  rw [fail, fail, hR.cursor hst]
  exact .error _ hst

theorem alike_texts : Alike R excused (texts : ParserOn σ String) texts := by
  refine ⟨fun hst => ?_, hR.keeps⟩
  rw [texts, texts, ← hR.cursor hst]
  exact .ok _ (hR.moveTo hst (joinTexts_suffix _))

theorem alike_eat (m : Mark) : Alike R excused (eat m : ParserOn σ Bool) (eat m) :=
  .bind (alike_peek hR) fun _ => .ite (.bind (alike_advance hR) fun _ => .pure _) (.pure _)

theorem alike_expect (m : Mark) : Alike R excused (expect m : ParserOn σ Unit) (expect m) :=
  .bind (alike_peek hR) fun _ => .ite (alike_advance hR) (alike_fail hR _)

theorem alike_identifier : Alike R excused (identifier : ParserOn σ String) identifier := by
  refine .bind (alike_peek hR) fun tok => ?_
  cases tok with
  | ident name => exact .bind (alike_advance hR) fun _ => .pure _
  | _ => exact alike_fail hR _

/-- A token that stands for a value is left behind. -/
theorem alike_literal {α : Type} (a : α) :
    Alike R excused (advance >>= fun _ => (pure a : ParserOn σ α)) (advance >>= fun _ => pure a) :=
  .bind (alike_advance hR) fun _ => .pure _

theorem alike_items {α : Type} {close : Mark} {item : α → ParserOn σ α} {item' : α → ParserOn τ α}
    (hitem : ∀ a, Alike R excused (item a) (item' a)) (a : α) :
    Alike R excused (items close item a) (items close item' a) := by
  have hwithin (fuel : Nat) : ∀ a, Alike R excused (itemsWithin close item fuel a)
      (itemsWithin close item' fuel a) := by
    -- both loops run for the tokens that are left, which are as many
    induction fuel with
    | zero => exact fun a => .pure a
    | succ fuel ih =>
        intro a
        refine .bind (alike_peek hR) fun _ => .ite (.pure _) ?_
        exact .bind (hitem a) fun b => .bind (alike_eat hR _) fun _ => .ite (ih b) (.pure _)
  exact .bind (alike_remaining hR) fun _ => hwithin _ a

/-! ## Brackets -/

variable {sub : Nat → ParserOn σ Node} {sub' : Nat → ParserOn τ Node}
  (h : ∀ p, Alike R excused (sub p) (sub' p))
include h

theorem alike_expression : Alike R excused (expression sub) (expression sub') :=
  .bind (alike_peek hR) fun _ => .ite (alike_fail hR _) (h 0)

theorem alike_displayItem : Alike R excused (displayItem sub) (displayItem sub') :=
  .bind (alike_eat hR _) fun _ => .ite (.bind (h _) fun _ => .pure _) (alike_expression hR h)

theorem alike_moreItems (read : List Node) :
    Alike R excused (moreItems sub read) (moreItems sub' read) :=
  .bind (alike_displayItem hR h) fun _ => .pure _

theorem alike_moreIndices (read : List Node) :
    Alike R excused (moreIndices sub read) (moreIndices sub' read) :=
  .bind (alike_expression hR h) fun _ => .pure _

theorem alike_moreEntries (read : List (Entry Node)) :
    Alike R excused (moreEntries sub read) (moreEntries sub' read) := by
  refine .bind (alike_eat hR _) fun _ => .ite (.bind (h _) fun _ => .pure _) ?_
  refine .bind (alike_expression hR h) fun _ => .bind (alike_peek hR) fun _ =>
    .ite (alike_fail hR _) ?_
  exact .bind (alike_advance hR) fun _ => .bind (alike_expression hR h) fun _ => .pure _

theorem alike_moreArguments (read : Call Node) :
    Alike R excused (moreArguments sub read) (moreArguments sub' read) := by
  -- an argument that is a value behind some tokens
  have hvalue {f : Node → Call Node} :
      Alike R excused (expression sub >>= fun value => pure (f value))
        (expression sub' >>= fun value => pure (f value)) :=
    .bind (alike_expression hR h) fun _ => .pure _
  refine .bind (alike_peek hR) fun tok => ?_
  split
  · exact .bind (alike_advance hR) fun _ => hvalue
  · exact .ite (alike_fail hR _) (.bind (alike_advance hR) fun _ => hvalue)
  · refine .bind (alike_keyword? hR) fun name => ?_
    cases name with
    | some name => exact .bind (alike_advance hR) fun _ => .bind (alike_advance hR) fun _ => hvalue
    | none => exact .ite hvalue (alike_fail hR _)

theorem alike_parenthesized : Alike R excused (parenthesized sub) (parenthesized sub') := by
  refine .bind (alike_eat hR _) fun _ => .ite (.pure _) ?_
  refine .bind (alike_displayItem hR h) fun first => .bind (alike_eat hR _) fun _ => .ite ?_ ?_
  · cases first with
    | starred _ => exact alike_fail hR _
    | _ => exact .pure _
  · refine .bind (alike_eat hR _) fun _ => ?_
    have htuple (read : List Node) :
        Alike R excused (expect .rightParen >>= fun _ => (pure (.tuple read) : ParserOn σ Node))
          (expect .rightParen >>= fun _ => pure (.tuple read)) :=
      .bind (alike_expect hR _) fun _ => .pure _
    exact .ite (.bind (alike_items hR (alike_moreItems hR h) _) htuple)
      (.bind (.pure _) htuple)

theorem alike_listDisplay : Alike R excused (listDisplay sub) (listDisplay sub') :=
  .bind (alike_items hR (alike_moreItems hR h) _) fun _ => .bind (alike_expect hR _) fun _ =>
    .pure _

theorem alike_dictDisplay : Alike R excused (dictDisplay sub) (dictDisplay sub') :=
  .bind (alike_items hR (alike_moreEntries hR h) _) fun _ => .bind (alike_expect hR _) fun _ =>
    .pure _

theorem alike_arguments (func : Node) :
    Alike R excused (arguments sub func) (arguments sub' func) :=
  .bind (alike_items hR (alike_moreArguments hR h) _) fun _ => .bind (alike_expect hR _) fun _ =>
    .pure _

theorem alike_indices : Alike R excused (indices sub) (indices sub') := by
  refine .bind (alike_expression hR h) fun first => .bind (alike_peek hR) fun _ =>
    .ite (alike_fail hR _) ?_
  have hslice (slice : Node) :
      Alike R excused (expect .rightBracket >>= fun _ => (pure slice : ParserOn σ Node))
        (expect .rightBracket >>= fun _ => pure slice) :=
    .bind (alike_expect hR _) fun _ => .pure _
  refine .bind (alike_eat hR _) fun _ => .ite ?_ (.bind (.pure _) hslice)
  exact .bind (alike_items hR (alike_moreIndices hR h) _) fun _ => .bind (.pure _) hslice

/-! ## Operands -/

theorem alike_atom : Alike R excused (atom sub) (atom sub') := by
  refine .bind (alike_peek hR) fun tok => ?_
  cases tok with
  | str _ => exact .bind (alike_texts hR) fun _ => .pure _
  | mark m =>
      cases m with
      | leftParen => exact .bind (alike_advance hR) fun _ => alike_parenthesized hR h
      | leftBracket => exact .bind (alike_advance hR) fun _ => alike_listDisplay hR h
      | leftBrace => exact .bind (alike_advance hR) fun _ => alike_dictDisplay hR h
      | ellipsis => exact alike_literal hR _
      | _ => exact alike_fail hR _
  | word w =>
      cases w with
      | trueWord | falseWord | noneWord => exact alike_literal hR _
      | _ => exact alike_fail hR _
  | eof => exact alike_fail hR _
  | _ => exact alike_literal hR _

theorem alike_trailersWithin (fuel : Nat) (node : Node) :
    Alike R excused (trailersWithin sub fuel node) (trailersWithin sub' fuel node) := by
  induction fuel generalizing node with
  | zero => exact .pure _
  | succ fuel ih =>
      refine .bind (alike_peek hR) fun tok => ?_
      cases tok with
      | mark m =>
          cases m with
          | dot =>
              exact .bind (alike_advance hR) fun _ => .bind (alike_identifier hR) fun _ => ih _
          | leftParen =>
              exact .bind (alike_advance hR) fun _ => .bind (alike_arguments hR h _) fun _ => ih _
          | leftBracket =>
              exact .bind (alike_advance hR) fun _ => .bind (alike_indices hR h) fun _ => ih _
          | _ => exact .pure _
      | _ => exact .pure _

theorem alike_primary : Alike R excused (primary sub) (primary sub') :=
  .bind (alike_atom hR h) fun node => .bind (alike_remaining hR) fun fuel =>
    alike_trailersWithin hR h fuel node

theorem alike_unary (p : Nat) : Alike R excused (unary sub p) (unary sub' p) := by
  refine .bind (alike_peek hR) fun tok => ?_
  cases UnaryOp.ofToken? tok with
  | none => exact alike_primary hR h
  | some op =>
      exact .ite (alike_fail hR _)
        (.bind (alike_advance hR) fun _ => .bind (h _) fun _ => .pure _)

/-! ## Climbing -/

theorem alike_climbWithin (fuel p : Nat) (left : Node) (links : List (Link Node)) :
    Alike R excused (climbWithin sub fuel p left links) (climbWithin sub' fuel p left links) := by
  induction fuel generalizing p left links with
  | zero => exact .pure _
  | succ fuel ih =>
      refine .bind (alike_peek hR) fun tok => ?_
      cases BinaryOp.ofToken? tok with
      | none => exact .pure _
      | some op =>
          refine .ite (.pure _) (.bind (alike_advance hR) fun _ => ?_)
          -- the right operand, the operators that bind it tighter, and the rest of the loop
          refine .bind (h _) fun right => .bind (ih _ _ _) fun right => ?_
          exact .ite (ih _ _ _) (ih _ _ _)

theorem alike_climb (p : Nat) : Alike R excused (climb sub p) (climb sub' p) :=
  .bind (h p) fun left => .bind (alike_remaining hR) fun fuel =>
    alike_climbWithin hR h fuel p left []

omit h in
theorem alike_whole {p : ParserOn σ Node} {q : ParserOn τ Node} (h : Alike R excused p q) :
    Alike R excused (whole p) (whole q) :=
  .bind h fun _ => .bind (alike_peek hR) fun _ => .ite (.pure _) (alike_fail hR _)

end

end Parser

end CallSite
