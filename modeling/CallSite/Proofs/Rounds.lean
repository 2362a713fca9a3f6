import Mathlib.Logic.Function.Iterate
import CallSite.Proofs.Grammar
import CallSite.Proofs.Likeness
import CallSite.Proofs.Reading

/-!
# Rounds — every loop of the readers ends

The readers are written with rounds that are counted beforehand.  Here each of their loops is taken
as a recursion that nothing bounds: a step that is given what its calls do.  Such a recursion ends
when its value does not depend on the calls that are nested deeper than some number
(`EndsWithin`).  One lemma shows this for all of them, from what a single step does: its calls are
made behind a token that it has read (`endsWithin_of_rounds`).

The loops run on every type of states whose cursor obeys the laws of a field (`LawfulCursor`), if
the readers of nested expressions never go back (`Onward`).
-/

namespace CallSite

open HasCursor

/-! ## Recursions that end -/

/-- A recursion comes to `r` from an argument and a state with calls that are nested less than `n`
    deep: whatever the calls beyond these would give makes no difference. -/
def EndsWithin {α σ ρ : Type} (step : (α → σ → ρ) → α → σ → ρ) (n : Nat) (a : α) (s : σ) (r : ρ) :
    Prop :=
  ∀ beyond : α → σ → ρ, step^[n] beyond a s = r

/-- A recursion ends when its calls are made in smaller states and it does what a number of rounds
    does.  The rounds may be short of the size by `slack`. -/
theorem endsWithin_of_rounds {α σ ρ : Type} {step : (α → σ → ρ) → α → σ → ρ}
    (rounds : Nat → α → σ → ρ) (valid : σ → Prop) (size : σ → Nat) (slack : Nat)
    (hzero : ∀ {g a s}, valid s → size s + slack = 0 → step g a s = rounds 0 a s)
    (hsucc : ∀ {g fuel a s}, valid s → size s + slack ≤ fuel + 1 →
      (∀ b t, valid t → size t < size s → g b t = rounds fuel b t) →
      step g a s = rounds (fuel + 1) a s)
    {n fuel : Nat} {a : α} {s : σ} (hs : valid s) (hn : size s < n)
    (hfuel : size s + slack ≤ fuel) : EndsWithin step n a s (rounds fuel a s) := by
  intro beyond
  induction n generalizing fuel a s with
  | zero => exact absurd hn (Nat.not_lt_zero _)
  | succ n ih =>
      rw [Function.iterate_succ_apply']
      cases fuel with
      | zero => exact hzero hs (Nat.le_zero.mp hfuel)
      | succ fuel => exact hsucc hs hfuel fun b t ht hlt => ih ht (by omega) (by omega)

/-- What a recursion comes to does not depend on how it is counted. -/
theorem EndsWithin.unique {α σ ρ : Type} {step : (α → σ → ρ) → α → σ → ρ} {n : Nat} {a : α} {s : σ}
    {r r' : ρ} (h : EndsWithin step n a s r) (h' : EndsWithin step n a s r') : r = r' :=
  (h fun _ _ => r).symm.trans (h' fun _ _ => r)

/-! ## Lawful cursors -/

/-- States in which the cursor is like a field, as long as it is at a place that is valid there. -/
class LawfulCursor (σ : Type) [HasCursor σ] where
  Valid : σ → Prop
  valid_moveTo : ∀ {s : σ} {rest}, Valid s → rest <:+ (cursor s).rest →
    Valid (moveTo s ⟨rest, (cursor s).last⟩)
  cursor_moveTo : ∀ {s : σ} {rest}, Valid s → rest <:+ (cursor s).rest →
    cursor (moveTo s ⟨rest, (cursor s).last⟩) = ⟨rest, (cursor s).last⟩
  moveTo_cursor : ∀ {s : σ}, Valid s → moveTo s (cursor s) = s
  moveTo_moveTo : ∀ {s : σ} {c d}, moveTo (moveTo s c) d = moveTo s d

instance : LawfulCursor Cursor where
  Valid := fun _ => True
  valid_moveTo := fun _ _ => trivial
  cursor_moveTo := fun _ _ => rfl
  moveTo_cursor := fun _ => rfl
  moveTo_moveTo := rfl

open LawfulCursor

/-! ## The steps of the loops -/

namespace Parser

variable {σ : Type} [HasCursor σ]

/-- One round of reading items up to a closing mark, in front of the further rounds. -/
def itemsStep {α : Type} (close : Mark) (item : α → ParserOn σ α) (more : α → ParserOn σ α) :
    α → ParserOn σ α :=
  fun a => do
    if (← peek) = .mark close then pure a
    else
      let a ← item a
      if ← eat .comma then more a else pure a

/-- One round of reading adjacent texts behind the text that is read already. -/
def textsStep (more : String → ParserOn σ String) : String → ParserOn σ String :=
  fun read => do
    match ← peek with
    | .str text =>
      advance
      more (read ++ text)
    | _ => pure read

/-- One round of reading attributes, calls and subscripts behind a node. -/
def trailersStep (sub : Nat → ParserOn σ Node) (more : Node → ParserOn σ Node) :
    Node → ParserOn σ Node :=
  fun node => do
    match ← peek with
    | .mark .dot =>
      advance
      let attr ← identifier
      more (.attribute node attr)
    | .mark .leftParen =>
      advance
      let call ← arguments sub node
      more (.call call)
    | .mark .leftBracket =>
      advance
      let slice ← indices sub
      more (.subscript node slice)
    | _ => pure node

/-- How far reading operators has come: the least precedence to read, the operand that is read, and
    the open chain behind it. -/
structure Climb where
  min : Nat
  left : Node
  links : List (Link Node)

/-- One round of reading operators and their right operands.  A right operand takes rounds of its
    own. -/
def climbStep (operand : Nat → ParserOn σ Node) (more : Climb → ParserOn σ Node) :
    Climb → ParserOn σ Node :=
  fun c => do
    match BinaryOp.ofToken? (← peek) with
    | none => pure (c.left.chain c.links)
    | some op =>
      if op.precedence < c.min then pure (c.left.chain c.links)
      else
        advance
        let right ← operand op.rightPrecedence
        let right ← more ⟨op.rightPrecedence, right, []⟩
        if op.isComparison then more ⟨c.min, c.left, c.links ++ [⟨op, right⟩]⟩
        else more ⟨c.min, .binary (c.left.chain c.links) op right, []⟩

/-- The rounds of reading operators, from what is read so far. -/
def climbRounds (operand : Nat → ParserOn σ Node) (fuel : Nat) (c : Climb) : ParserOn σ Node :=
  climbWithin operand fuel c.min c.left c.links

/-! ## What a reader does to a state -/

variable {s : σ}

/-- How many tokens are left. -/
def left (s : σ) : Nat := (cursor s).rest.length

/-- The state behind the next token. -/
def next (s : σ) : σ := moveTo s ⟨(cursor s).rest.tail, (cursor s).last⟩

/-- Where nothing is left, the end of the text comes next. -/
theorem token_of_left (h : left s = 0) : (cursor s).token = .eof := by
  rw [Cursor.token, List.length_eq_zero_iff.mp h]

/-- Behind a token there are fewer tokens left. -/
theorem next_spec [LawfulCursor σ] (hs : Valid s) {tok : Token} (h : (cursor s).token = tok)
    (htok : tok ≠ .eof) : Valid (next s) ∧ left (next s) < left s := by
  have hnext : cursor (next s) = (cursor s).next := cursor_moveTo hs (List.tail_suffix _)
  have hlength : (cursor s).next.rest.length + 1 = (cursor s).rest.length :=
    Cursor.length_next fun heof => htok (h.symm.trans heof)
  refine ⟨valid_moveTo hs (List.tail_suffix _), ?_⟩
  rw [left, left, hnext, ← hlength]
  exact Nat.lt_succ_self _

/-- A reader that returns leaves a state that is valid and has no more tokens left. -/
def Onward [LawfulCursor σ] {α : Type} (p : ParserOn σ α) : Prop :=
  ∀ {s a s'}, Valid s → p s = .ok a s' → Valid s' ∧ left s' ≤ left s

section

variable {α β : Type}

theorem peek_bind_run {f : Token → ParserOn σ β} : (peek >>= f) s = f (cursor s).token s := rfl

theorem advance_bind_run {f : Unit → ParserOn σ β} : (advance >>= f) s = f () (next s) := rfl

theorem texts_bind_run {f : String → ParserOn σ β} :
    (texts >>= f) s = f (joinTexts (cursor s).rest).1
      (moveTo s ⟨(joinTexts (cursor s).rest).2, (cursor s).last⟩) := rfl

theorem eat_bind_run {m : Mark} {f : Bool → ParserOn σ β} :
    (eat m >>= f) s = if (cursor s).token = .mark m then f true (next s) else f false s := by
  show EStateM.bind (eat m) f s = _
  unfold EStateM.bind eat
  rw [peek_bind_run]
  by_cases htok : (cursor s).token = .mark m
  · rw [if_pos htok, if_pos htok]
    rfl
  · rw [if_neg htok, if_neg htok]
    rfl

omit [HasCursor σ] in
/-- Two readers do the same when their first parts do and the second parts do behind them. -/
theorem bind_congr_run {p q : ParserOn σ α} {f g : α → ParserOn σ β} (hp : p s = q s)
    (h : ∀ a s', q s = .ok a s' → f a s' = g a s') : (p >>= f) s = (q >>= g) s := by
  show EStateM.bind p f s = EStateM.bind q g s
  unfold EStateM.bind
  rw [hp]
  cases hq : q s with
  | ok a s' => exact h a s' hq
  | error e s' => rfl

omit [HasCursor σ] in
theorem ite_congr_run {P : Prop} [Decidable P] {p p' q q' : ParserOn σ β} (h : p s = q s)
    (h' : ¬ P → p' s = q' s) : (if P then p else p') s = (if P then q else q') s := by
  by_cases hP : P
  · rw [if_pos hP, if_pos hP, h]
  · rw [if_neg hP, if_neg hP, h' hP]

end

/-! ## The loops end -/

section

variable [LawfulCursor σ]

/-- Reading items ends, since a further item stands behind a comma. -/
theorem itemsWithin_ends {α : Type} {close : Mark} {item : α → ParserOn σ α}
    (hitem : ∀ a, Onward (item a)) (hs : Valid s) {fuel : Nat} (hfuel : left s + 1 ≤ fuel) (a : α) :
    EndsWithin (itemsStep close item) (left s + 1) a s (itemsWithin close item fuel a s) := by
  refine endsWithin_of_rounds (itemsWithin close item) Valid left 1
    (fun _ h => absurd h (Nat.succ_ne_zero _)) ?_ hs (Nat.lt_succ_self _) hfuel
  intro more fuel a s hs _ hmore
  show itemsStep close item more a s = itemsStep close item (itemsWithin close item fuel) a s
  unfold itemsStep
  rw [peek_bind_run, peek_bind_run]
  refine ite_congr_run rfl fun _ => bind_congr_run rfl fun b s' hread => ?_
  obtain ⟨hs', hleft⟩ := hitem a hs hread
  rw [eat_bind_run, eat_bind_run]
  split
  · rename_i hcomma
    obtain ⟨hnext, hless⟩ := next_spec hs' hcomma nofun
    exact hmore b (next s') hnext (Nat.lt_of_lt_of_le hless hleft)
  · rfl

/-- The texts behind a text go on with it. -/
theorem texts_bind_of_str (hs : Valid s) {text : String} (h : (cursor s).token = .str text)
    {β : Type} {f : String → ParserOn σ β} :
    (texts >>= f) s = (texts >>= fun more => f (text ++ more)) (next s) := by
  have hnext : cursor (next s) = (cursor s).next := cursor_moveTo hs (List.tail_suffix _)
  rw [texts_bind_run, texts_bind_run, hnext, next, moveTo_moveTo, Cursor.next]
  unfold Cursor.token at h
  cases hrest : (cursor s).rest with
  | nil =>
      rw [hrest] at h
      cases h
  | cons t rest =>
      rw [hrest] at h
      obtain ⟨value, pos⟩ := t
      obtain rfl : value = .str text := h
      rfl

/-- Where no text comes next, none is read. -/
theorem texts_bind_of_ne (hs : Valid s) (h : ∀ text, (cursor s).token ≠ .str text) {β : Type}
    {f : String → ParserOn σ β} : (texts >>= f) s = f "" s := by
  have hnone : joinTexts (cursor s).rest = ("", (cursor s).rest) := by
    unfold joinTexts
    split
    · rename_i text _ rest hrest
      exact absurd (by rw [Cursor.token, hrest]) (h text)
    · rfl
  rw [texts_bind_run, hnone, moveTo_cursor hs]

/-- Reading adjacent texts ends, since every round reads one of them. -/
theorem texts_end (hs : Valid s) (read : String) :
    EndsWithin textsStep (left s + 1) read s ((texts >>= fun text => pure (read ++ text)) s) := by
  refine endsWithin_of_rounds (fun _ read => texts >>= fun text => pure (read ++ text)) Valid left 0
    ?_ ?_ hs (Nat.lt_succ_self _) (Nat.le_refl (left s))
  · intro more read s hs hleft
    have htoken := token_of_left hleft
    unfold textsStep
    rw [peek_bind_run, htoken, texts_bind_of_ne hs fun text => by rw [htoken]; exact nofun,
      String.append_empty]
  · intro more _ read s hs _ hmore
    unfold textsStep
    rw [peek_bind_run]
    cases htoken : (cursor s).token with
    | str text =>
        obtain ⟨hnext, hless⟩ := next_spec hs htoken nofun
        show more (read ++ text) (next s) = _
        rw [hmore _ _ hnext hless, texts_bind_of_str hs htoken]
        simp only [String.append_assoc]
    | _ =>
        rw [texts_bind_of_ne hs fun text => by rw [htoken]; exact nofun, String.append_empty]

/-- Reading trailers ends, since every round reads the mark that opens one. -/
theorem trailersWithin_ends {sub : Nat → ParserOn σ Node}
    (hidentifier : Onward (identifier : ParserOn σ String))
    (harguments : ∀ func, Onward (arguments sub func)) (hindices : Onward (indices sub))
    (hs : Valid s) {fuel : Nat} (hfuel : left s ≤ fuel) (node : Node) :
    EndsWithin (trailersStep sub) (left s + 1) node s (trailersWithin sub fuel node s) := by
  refine endsWithin_of_rounds (trailersWithin sub) Valid left 0 ?_ ?_ hs (Nat.lt_succ_self _) hfuel
  · intro more node s _ hleft
    unfold trailersStep
    rw [peek_bind_run, token_of_left hleft]
    rfl
  · intro more fuel node s hs _ hmore
    show trailersStep sub more node s = trailersStep sub (trailersWithin sub fuel) node s
    unfold trailersStep
    rw [peek_bind_run, peek_bind_run]
    -- behind the mark and what it opens there is less to read
    have hbehind {m : Mark} {α : Type} {p : ParserOn σ α} {f : α → Node}
        (hmark : (cursor s).token = .mark m) (hp : Onward p) :
        (p >>= fun a => more (f a)) (next s)
          = (p >>= fun a => trailersWithin sub fuel (f a)) (next s) := by
      obtain ⟨hnext, hless⟩ := next_spec hs hmark nofun
      refine bind_congr_run rfl fun a s' hread => ?_
      obtain ⟨hs', hleft⟩ := hp hnext hread
      exact hmore _ s' hs' (Nat.lt_of_le_of_lt hleft hless)
    generalize (cursor s).token = tok at hbehind
    cases tok with
    | mark m =>
        cases m with
        | dot => exact hbehind rfl hidentifier
        | leftParen => exact hbehind rfl (harguments node)
        | leftBracket => exact hbehind rfl hindices
        | _ => rfl
    | _ => rfl

/-- Reading operators ends: the right operand of an operator stands behind it, and so do the rounds
    for the operators that bind it tighter. -/
theorem climbRounds_end {operand : Nat → ParserOn σ Node} (hoperand : ∀ p, Onward (operand p))
    (hrounds : ∀ fuel c, Onward (climbRounds operand fuel c)) (hs : Valid s) {fuel : Nat}
    (hfuel : left s ≤ fuel) (c : Climb) :
    EndsWithin (climbStep operand) (left s + 1) c s (climbRounds operand fuel c s) := by
  refine endsWithin_of_rounds (climbRounds operand) Valid left 0 ?_ ?_ hs (Nat.lt_succ_self _) hfuel
  · intro (more : Climb → ParserOn σ Node) c s _ hleft
    unfold climbStep
    rw [peek_bind_run, token_of_left hleft]
    rfl
  · intro (more : Climb → ParserOn σ Node) fuel c s hs _ hmore
    show climbStep operand more c s = climbStep operand (climbRounds operand fuel) c s
    unfold climbStep
    rw [peek_bind_run, peek_bind_run]
    cases hop : BinaryOp.ofToken? (cursor s).token with
    | none => rfl
    | some op =>
        obtain ⟨hnext, hless⟩ := next_spec hs (BinaryOp.token_of_ofToken? hop).symm op.token_ne_eof
        refine ite_congr_run rfl fun _ => ?_
        rw [advance_bind_run, advance_bind_run]
        refine bind_congr_run rfl fun right s₁ hread => ?_
        obtain ⟨hs₁, hleft₁⟩ := hoperand _ hnext hread
        have hless₁ : left s₁ < left s := Nat.lt_of_le_of_lt hleft₁ hless
        -- the operators that bind the right operand tighter are read before the further rounds
        refine bind_congr_run (hmore _ _ hs₁ hless₁) fun tighter s₂ hread => ?_
        obtain ⟨hs₂, hleft₂⟩ := hrounds _ _ hs₁ hread
        have hfurther (c : Climb) : more c s₂ = climbRounds operand fuel c s₂ :=
          hmore c s₂ hs₂ (Nat.lt_of_le_of_lt hleft₂ hless₁)
        exact ite_congr_run (hfurther _) fun _ => hfurther _

end

end Parser

end CallSite
