import CallSite.Parser.Session
import CallSite.Proofs.Likeness

/-!
# Sessions — a parser that was asked before is like a fresh one

A session counts its open operands, and a parser on a cursor is given their bound.  They are alike
in every question (`Session.alike_ask`): the operand that a session opens is closed again on every
way out, so what is left to it is always what the parser is given.  Hence an answer depends only on
the place that the session has come to (`Session.answer_of_cursor`), and inside the tokens that is
the place where a session of the remaining tokens starts (`Session.answer_afterAll`).
-/

namespace CallSite

open CallSite.Parser

/-- The parser that answers a question on a cursor, with operands that nest at most so deep. -/
def Question.within : Question → (depth : Nat) → Parser Node
  | .node, depth => nodeWithin depth
  | .complete, depth => completeWithin depth

namespace Session

/-- A session of some tokens that has come to a cursor, no earlier than `start`, with so many
    operands open. -/
structure At (tokens : List (Located Token)) (start depth : Nat) (s : Session) (c : Cursor) :
    Prop where
  tokens_eq : s.tokens = tokens
  depth_eq : s.depth = depth
  start_le : start ≤ s.read
  read_le : s.read ≤ tokens.length
  cursor_eq : s.cursor = c

variable {tokens : List (Located Token)} {start depth : Nat}

/-! ## Sessions and cursors -/

theorem at_self {s : Session} (h : s.read ≤ s.tokens.length) :
    At s.tokens s.read s.depth s s.cursor := ⟨rfl, rfl, Nat.le_refl _, h, rfl⟩

/-- A session and its cursor move on alike. -/
theorem sameCursor_at : SameCursor (At tokens start depth) NoExcuse where
  cursor := At.cursor_eq
  moveTo := by
    intro s c rest h hrest
    have hsuffix : rest <:+ s.tokens := hrest.trans (List.drop_suffix _ _)
    have hlength : rest.length ≤ s.tokens.length - s.read := by
      simpa [HasCursor.cursor, Session.cursor] using hrest.length_le
    have hread := h.start_le
    have hend := h.tokens_eq ▸ h.read_le
    refine ⟨h.tokens_eq, h.depth_eq, ?_, ?_, ?_⟩
    · show start ≤ s.tokens.length - rest.length
      omega
    · rw [← h.tokens_eq]
      exact Nat.sub_le _ _
    · show (⟨s.tokens.drop (s.tokens.length - rest.length), _⟩ : Cursor) = ⟨rest, _⟩
      rw [← List.suffix_iff_eq_drop.mp hsuffix]
      rfl
  keeps := fun he => he

/-- What is read with one more operand open leaves as many open as there were. -/
theorem alike_nested {α : Type} {p : ParserOn Session α} {q : Parser α}
    (h : Alike (At tokens start (depth + 1)) NoExcuse p q) :
    Alike (At tokens start depth) NoExcuse (nested p) q := by
  refine ⟨fun {s c} hs => ?_, h.keeps⟩
  have hopen : At tokens start (depth + 1) ⟨s.tokens, s.read, s.depth + 1⟩ c :=
    ⟨hs.tokens_eq, congrArg (· + 1) hs.depth_eq, hs.start_le, hs.read_le, hs.cursor_eq⟩
  have hclose {s' : Session} {c' : Cursor} (hs' : At tokens start (depth + 1) s' c') :
      At tokens start depth ⟨s'.tokens, s'.read, s'.depth - 1⟩ c' :=
    ⟨hs'.tokens_eq, congrArg (· - 1) hs'.depth_eq, hs'.start_le, hs'.read_le, hs'.cursor_eq⟩
  have hpq := h.alike hopen
  unfold nested
  generalize p ⟨s.tokens, s.read, s.depth + 1⟩ = r at hpq
  generalize q c = r' at hpq
  cases hpq with
  | ok a hs' => exact .ok a (hclose hs')
  | error e hs' => exact .error e (hclose hs')
  | excused he => exact .excused he

/-- Where no operand may be opened, both complain. -/
theorem alike_operand_of_full (h : maxNesting ≤ depth) (min : Nat) :
    Alike (At tokens start depth) NoExcuse (fail .nestedTooDeeply)
      (Parser.operand (maxNesting - depth) min) := by
  rw [Nat.sub_eq_zero_of_le h]
  exact alike_fail sameCursor_at _

/-- An operand is read as if its depth had been given, as long as there are rounds for all the
    operands that may still be opened. -/
theorem alike_operand {fuel : Nat} (h : maxNesting ≤ fuel + depth) (min : Nat) :
    Alike (At tokens start depth) NoExcuse (Session.operand fuel min)
      (Parser.operand (maxNesting - depth) min) := by
  induction fuel generalizing depth min with
  | zero => exact alike_operand_of_full (Nat.zero_add depth ▸ h) min
  | succ fuel ih =>
      refine ⟨fun {s c} hs => ?_, fun he => he⟩
      show AlikeResult _ NoExcuse ((if maxNesting ≤ s.depth then fail .nestedTooDeeply
        else nested (unary (climb (Session.operand fuel)) min)) s) _
      rw [hs.depth_eq]
      by_cases hfull : maxNesting ≤ depth
      · rw [if_pos hfull]
        exact (alike_operand_of_full hfull min).alike hs
      · -- one operand is opened, and one level of the given depth is used up
        have hleft : maxNesting - depth = maxNesting - (depth + 1) + 1 := by omega
        rw [if_neg hfull, hleft]
        have hinner (p : Nat) : Alike (At tokens start (depth + 1)) NoExcuse
            (Session.operand fuel p) (Parser.operand (maxNesting - (depth + 1)) p) :=
          ih (by omega) p
        exact (alike_nested (alike_unary sameCursor_at
          (fun p => alike_climb sameCursor_at hinner p) min)).alike hs

/-- Every question is answered as it is on the cursor. -/
theorem alike_ask (q : Question) :
    Alike (At tokens start depth) NoExcuse (ask q) (q.within (maxNesting - depth)) := by
  have hnode : Alike (At tokens start depth) NoExcuse Session.node
      (nodeWithin (maxNesting - depth)) :=
    alike_expression sameCursor_at fun p => alike_climb sameCursor_at
      (alike_operand (Nat.le_add_right _ _)) p
  cases q with
  | node => exact hnode
  | complete => exact alike_whole sameCursor_at hnode

/-! ## Answers -/

/-- What a question comes to: the answer, and the place behind it. -/
def outcome (r : Except ParseError Node) (c : Cursor) : EStateM.Result ParseError Cursor Node :=
  match r with
  | .ok t => .ok t c
  | .error e => .error e c

theorem outcome_inj {r r' : Except ParseError Node} {c c' : Cursor}
    (h : outcome r c = outcome r' c') : r = r' ∧ c = c' := by
  cases r <;> cases r' <;> cases h <;> exact ⟨rfl, rfl⟩

/-- A question moves a session on within its tokens and leaves as many operands open as there were.
    The answer and the place behind it are those on the cursor. -/
theorem after_spec {s : Session} (h : s.read ≤ s.tokens.length) (q : Question) :
    At s.tokens s.read s.depth (s.after q) (s.after q).cursor
      ∧ q.within (maxNesting - s.depth) s.cursor = outcome (s.answer q) (s.after q).cursor := by
  have hask : AlikeResult (At s.tokens s.read s.depth) NoExcuse (ask q s)
      (q.within (maxNesting - s.depth) s.cursor) := (alike_ask q).alike (at_self h)
  unfold after answer
  generalize ask q s = r at hask
  generalize q.within (maxNesting - s.depth) s.cursor = r' at hask
  cases hask with
  | ok t hs' =>
      obtain rfl := hs'.cursor_eq
      exact ⟨hs', rfl⟩
  | error e hs' =>
      obtain rfl := hs'.cursor_eq
      exact ⟨hs', rfl⟩
  | excused he => exact he.elim

/-- Sessions that have come to one place with as many operands open give one answer, and have come
    to one place behind it. -/
theorem answer_of_cursor {s f : Session} (hs : s.read ≤ s.tokens.length)
    (hf : f.read ≤ f.tokens.length) (hdepth : s.depth = f.depth) (hcursor : s.cursor = f.cursor)
    (q : Question) : s.answer q = f.answer q ∧ (s.after q).cursor = (f.after q).cursor := by
  have hsame : outcome (s.answer q) (s.after q).cursor
      = outcome (f.answer q) (f.after q).cursor := by
    rw [← (after_spec hs q).2, ← (after_spec hf q).2, hdepth, hcursor]
  exact outcome_inj hsame

/-- Behind any questions no operand is open, and the session is at a place of its tokens. -/
theorem at_afterAll (tokens : List (Located Token)) (qs : List Question) :
    At tokens 0 0 ((ofTokens tokens).afterAll qs) ((ofTokens tokens).afterAll qs).cursor := by
  have hstep {s : Session} (h : At tokens 0 0 s s.cursor) :
      At tokens 0 0 (s.afterAll qs) (s.afterAll qs).cursor := by
    induction qs generalizing s with
    | nil => exact h
    | cons q qs ih =>
        obtain ⟨hafter, -⟩ := after_spec (h.tokens_eq ▸ h.read_le) q
        exact ih ⟨hafter.tokens_eq.trans h.tokens_eq, hafter.depth_eq.trans h.depth_eq,
          Nat.zero_le _, h.tokens_eq ▸ hafter.read_le, rfl⟩
  exact hstep ⟨rfl, rfl, Nat.le_refl _, Nat.zero_le _, rfl⟩

/-- Inside the tokens, the place of a session is the start of the tokens that remain. -/
theorem cursor_of_lt {s : Session} (h : s.read < s.tokens.length) :
    s.cursor = (ofTokens (s.tokens.drop s.read)).cursor := by
  have hlast : (s.tokens.drop s.read).getLast? = s.tokens.getLast? := by
    rw [List.getLast?_drop, if_neg (Nat.not_le.mpr h)]
  unfold cursor ofTokens Cursor.ofTokens
  rw [hlast]
  rfl

/-- A session that was asked before is like a fresh one.  Behind any questions, answered or not, no
    operand is open.  If the session has stopped inside its tokens, the next question gets the
    answer that a session of the remaining tokens gives, which is that of the parser on these
    tokens, and as many tokens are read for it. -/
theorem answer_afterAll (tokens : List (Located Token)) (qs : List Question) :
    let s := (ofTokens tokens).afterAll qs
    s.tokens = tokens ∧ s.depth = 0 ∧ s.read ≤ tokens.length
      ∧ (s.read < tokens.length → ∀ q,
        let fresh := ofTokens (tokens.drop s.read)
        s.answer q = fresh.answer q
          ∧ fresh.answer q = (q.within maxNesting).onTokens (tokens.drop s.read)
          ∧ (s.after q).read = s.read + (fresh.after q).read) := by
  intro s
  have hs : At tokens 0 0 s s.cursor := at_afterAll tokens qs
  have hread : s.read ≤ s.tokens.length := hs.tokens_eq ▸ hs.read_le
  refine ⟨hs.tokens_eq, hs.depth_eq, hs.read_le, fun hlt q => ?_⟩
  intro fresh
  have hcursor : s.cursor = fresh.cursor := by
    rw [cursor_of_lt (hs.tokens_eq.symm ▸ hlt), hs.tokens_eq]
  obtain ⟨hanswer, hafter⟩ := answer_of_cursor hread (Nat.zero_le _) hs.depth_eq hcursor q
  refine ⟨hanswer, ?_, ?_⟩
  · have hfresh := (@after_spec fresh (Nat.zero_le _) q).2
    have hstart : fresh.cursor = .ofTokens (tokens.drop s.read) := rfl
    rw [hstart] at hfresh
    unfold Parser.onTokens
    rw [show q.within maxNesting (.ofTokens (tokens.drop s.read)) = _ from hfresh]
    cases fresh.answer q <;> rfl
  · -- both have the same tokens left
    have hrest := congrArg (fun c => c.rest.length) hafter
    obtain ⟨hold, -⟩ := after_spec hread q
    obtain ⟨hnew, -⟩ := @after_spec fresh (Nat.zero_le _) q
    have hend := hold.read_le
    have hend' := hnew.read_le
    simp only [cursor, List.length_drop, hold.tokens_eq, hnew.tokens_eq, hs.tokens_eq]
      at hrest hend hend'
    have hlength : fresh.tokens.length = tokens.length - s.read := List.length_drop
    omega

/-- A text fails two brackets deep, and the number that is left over is read behind it. -/
theorem answer_afterAll_brackets :
    let tokens : List (Located Token) := [⟨.mark .leftParen, ⟨1, 1⟩⟩, ⟨.mark .leftBracket, ⟨1, 2⟩⟩,
      ⟨.int 1, ⟨1, 3⟩⟩, ⟨.int 2, ⟨1, 5⟩⟩, ⟨.eof, ⟨1, 6⟩⟩, ⟨.ident "a", ⟨2, 1⟩⟩]
    let s := (ofTokens tokens).afterAll [.complete]
    (ofTokens tokens).answer .complete = .error ⟨.expectedMark .rightBracket (.int 2), ⟨1, 5⟩⟩
      ∧ s.read = 3 ∧ s.depth = 0 ∧ s.answer .complete = .ok (.constant (.int 2))
      ∧ (s.after .complete).read = 4 := by
  intro tokens s
  have hread : s.read = 3 := by decide +kernel
  have hlt : s.read < tokens.length := by
    rw [hread]
    decide
  obtain ⟨-, hdepth, -, hfresh⟩ := answer_afterAll tokens [.complete]
  obtain ⟨hanswer, -, hmoved⟩ := hfresh hlt .complete
  rw [show ((ofTokens tokens).afterAll [.complete]).read = 3 from hread] at hanswer hmoved
  exact ⟨rfl, hread, hdepth, hanswer, hmoved⟩

end Session

end CallSite
