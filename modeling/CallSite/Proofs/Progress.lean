import Mathlib.Tactic.Choose
import CallSite.Proofs.Grammar.Climbing
import CallSite.Proofs.Rounds
import CallSite.Proofs.Session
import CallSite.Proofs.Tiling

/-!
# Progress — reading ends, and every expression takes a token

The loops of a session end, since what it does it does on its cursor, and a cursor never goes back.
Its operands end, since fewer and fewer may be opened in one another.  What it has read it leaves
behind it: it never goes back nor beyond its tokens, and no expression is read from nothing
(`Session.reading_ends`).
-/

namespace CallSite

open CallSite.Parser

namespace Session

/-- A session at a place of its tokens, the end included, moves on as its cursor does. -/
instance : LawfulCursor Session where
  Valid := fun s => s.read ≤ s.tokens.length
  valid_moveTo := by
    intro s rest hs hrest
    have hmoved := sameCursor_at.moveTo (at_self hs) hrest
    rw [hmoved.tokens_eq]
    exact hmoved.read_le
  cursor_moveTo := fun hs hrest => (sameCursor_at.moveTo (at_self hs) hrest).cursor_eq
  moveTo_cursor := by
    intro s hs
    show (⟨s.tokens, s.tokens.length - (s.tokens.drop s.read).length, s.depth⟩ : Session) = s
    rw [List.length_drop, Nat.sub_sub_self hs]
  moveTo_moveTo := rfl

theorem left_eq (s : Session) : left s = s.tokens.length - s.read := List.length_drop

/-- Reading an operand, in front of the operands that are nested in it, or follow its operators. -/
def operandStep (more : Nat → ParserOn Session Node) : Nat → ParserOn Session Node :=
  fun min => do
    if maxNesting ≤ (← get).depth then fail .nestedTooDeeply
    else nested (unary (climb more) min)

/-! ## The loops of a session -/

/-- A reader does in every session what a reader on its cursor does. -/
def Tracked {α : Type} (p : ParserOn Session α) : Prop :=
  ∀ tokens start depth, ∃ q : Parser α, Alike (At tokens start depth) NoExcuse p q

/-- What a reader on a cursor does never goes back. -/
theorem Tracked.onward {α : Type} {p : ParserOn Session α} (h : Tracked p) : Onward p := by
  intro s a s' hs hp
  obtain ⟨q, hq⟩ := h s.tokens s.read s.depth
  have hread := hq.alike (at_self hs)
  rw [hp] at hread
  generalize q s.cursor = r at hread
  cases hread with
  | ok _ hs' =>
      have hstart := hs'.start_le
      refine ⟨?_, ?_⟩
      · show s'.read ≤ s'.tokens.length
        rw [hs'.tokens_eq]
        exact hs'.read_le
      · rw [left_eq, left_eq, hs'.tokens_eq]
        omega

/-- The loops that read with some operands all end, from every place of a session that they are
    entered at: those over the operators, behind an operand, over adjacent texts, and inside
    brackets. -/
structure LoopsEnd (operand : Nat → ParserOn Session Node) (s : Session) : Prop where
  operators : ∀ c, EndsWithin (climbStep operand) (left s + 1) c s
    (climbWithin operand (left s) c.min c.left c.links s)
  trailers : ∀ node, EndsWithin (trailersStep (climb operand)) (left s + 1) node s
    (trailersWithin (climb operand) (left s) node s)
  texts : ∀ read, EndsWithin textsStep (left s + 1) read s
    ((texts >>= fun text => pure (read ++ text)) s)
  items : ∀ close read, EndsWithin (itemsStep close (moreItems (climb operand))) (left s + 1) read s
    (items close (moreItems (climb operand)) read s)
  indices : ∀ close read, EndsWithin (itemsStep close (moreIndices (climb operand))) (left s + 1)
    read s (Parser.items close (moreIndices (climb operand)) read s)
  entries : ∀ close read, EndsWithin (itemsStep close (moreEntries (climb operand))) (left s + 1)
    read s (Parser.items close (moreEntries (climb operand)) read s)
  arguments : ∀ close read, EndsWithin (itemsStep close (moreArguments (climb operand)))
    (left s + 1) read s (Parser.items close (moreArguments (climb operand)) read s)

/-- With operands that are read as they are on a cursor the loops end. -/
theorem loopsEnd_of_tracked {operand : Nat → ParserOn Session Node} (h : ∀ p, Tracked (operand p))
    {s : Session} (hs : s.read ≤ s.tokens.length) : LoopsEnd operand s := by
  -- what is built from the operands and from readers on the cursor is read as it is there
  have honward {α : Type} {p : ParserOn Session α} {q : (Nat → Parser Node) → Parser α}
      (hp : ∀ {tokens start depth operand'},
        (∀ n, Alike (At tokens start depth) NoExcuse (operand n) (operand' n)) →
        Alike (At tokens start depth) NoExcuse p (q operand')) : Onward p := by
    refine Tracked.onward fun tokens start depth => ?_
    choose operand' hoperand using fun n => h n tokens start depth
    exact ⟨q operand', hp hoperand⟩
  have hclimb {tokens : List (Located Token)} {start depth : Nat} {operand' : Nat → Parser Node}
      (hoperand : ∀ n, Alike (At tokens start depth) NoExcuse (operand n) (operand' n)) (p : Nat) :
      Alike (At tokens start depth) NoExcuse (climb operand p) (climb operand' p) :=
    alike_climb sameCursor_at hoperand p
  constructor
  case operators =>
    refine climbRounds_end (fun p => (h p).onward) (fun fuel c => ?_) hs (Nat.le_refl _)
    exact honward fun hop => alike_climbWithin sameCursor_at hop fuel c.min c.left c.links
  case trailers =>
    refine trailersWithin_ends ?_ (fun func => ?_) ?_ hs (Nat.le_refl _)
    · exact Tracked.onward fun _ _ _ => ⟨_, alike_identifier sameCursor_at⟩
    · exact honward fun hop => alike_arguments sameCursor_at (hclimb hop) func
    · exact honward fun hop => alike_indices sameCursor_at (hclimb hop)
  case texts => exact texts_end hs
  case items =>
    refine fun close => itemsWithin_ends (fun read => ?_) hs (Nat.le_refl _)
    exact honward fun hop => alike_moreItems sameCursor_at (hclimb hop) read
  case indices =>
    refine fun close => itemsWithin_ends (fun read => ?_) hs (Nat.le_refl _)
    exact honward fun hop => alike_moreIndices sameCursor_at (hclimb hop) read
  case entries =>
    refine fun close => itemsWithin_ends (fun read => ?_) hs (Nat.le_refl _)
    exact honward fun hop => alike_moreEntries sameCursor_at (hclimb hop) read
  case arguments =>
    refine fun close => itemsWithin_ends (fun read => ?_) hs (Nat.le_refl _)
    exact honward fun hop => alike_moreArguments sameCursor_at (hclimb hop) read

/-- An operand of a session is read as it is on the cursor. -/
theorem tracked_operand (p : Nat) : Tracked (operand maxNesting p) :=
  fun _ _ _ => ⟨_, alike_operand (Nat.le_add_right _ _) p⟩

/-! ## The operands end -/

/-- One session, which has come to a place with so many operands open. -/
structure Same (tokens : List (Located Token)) (start depth : Nat) (s t : Session) : Prop where
  eq : s = t
  at_cursor : At tokens start depth s s.cursor

variable {tokens : List (Located Token)} {start depth : Nat}

theorem sameCursor_same : SameCursor (Same tokens start depth) NoExcuse where
  cursor := fun h => congrArg cursor h.eq
  moveTo := by
    rintro s _ rest ⟨rfl, h⟩ hrest
    have hmoved := sameCursor_at.moveTo h hrest
    refine ⟨rfl, ?_⟩
    rw [hmoved.cursor_eq]
    exact hmoved
  keeps := fun he => he

/-- What a reader does in a session as on its cursor leaves as many operands open. -/
theorem same_of_at {α : Type} {r : EStateM.Result ParseError Session α}
    {r' : EStateM.Result ParseError Cursor α}
    (h : AlikeResult (At tokens start depth) NoExcuse r r') :
    AlikeResult (Same tokens start depth) NoExcuse r r := by
  have hself {s : Session} {c : Cursor} (hs : At tokens start depth s c) :
      Same tokens start depth s s := ⟨rfl, hs.cursor_eq.symm ▸ hs⟩
  cases h with
  | ok a hs => exact .ok a (hself hs)
  | error e hs => exact .error e (hself hs)
  | excused he => exact he.elim

theorem eq_of_same {α : Type} {r r' : EStateM.Result ParseError Session α}
    (h : AlikeResult (Same tokens start depth) NoExcuse r r') : r = r' := by
  cases h with
  | ok a hs => rw [hs.eq]
  | error e hs => rw [hs.eq]
  | excused he => exact he.elim

/-- Reading an operand ends, since no more operands can be opened in it than are missing. -/
theorem operand_ends {s : Session} (hs : s.read ≤ s.tokens.length) (min : Nat) :
    EndsWithin operandStep (maxNesting - s.depth + 1) min s (operand maxNesting min s) := by
  refine endsWithin_of_rounds operand LawfulCursor.Valid (fun s => maxNesting - s.depth) 0 ?_ ?_ hs
    (Nat.lt_succ_self _) (Nat.sub_le _ _)
  · intro (more : Nat → ParserOn Session Node) min s _ hmissing
    show (if maxNesting ≤ s.depth then fail .nestedTooDeeply else nested (unary (climb more) min)) s
      = fail .nestedTooDeeply s
    rw [if_pos (Nat.le_of_sub_eq_zero hmissing)]
  · intro (more : Nat → ParserOn Session Node) fuel min s hs hfuel hmore
    show (if maxNesting ≤ s.depth then fail .nestedTooDeeply else nested (unary (climb more) min)) s
      = (if maxNesting ≤ s.depth then fail .nestedTooDeeply
        else nested (unary (climb (operand fuel)) min)) s
    refine ite_congr_run rfl fun hopen => ?_
    -- with one more operand open, the nested operands are read alike
    have hnested (p : Nat) : Alike (Same s.tokens s.read (s.depth + 1)) NoExcuse (more p)
        (operand fuel p) := by
      refine ⟨fun {t _} ht => ?_, fun he => he⟩
      obtain ⟨rfl, hat⟩ := ht
      rw [hmore p t (show t.read ≤ t.tokens.length by rw [hat.tokens_eq]; exact hat.read_le)
        (by rw [hat.depth_eq]; omega)]
      exact same_of_at ((alike_operand (by omega) p).alike hat)
    have hunary := (alike_unary sameCursor_same
      (fun p => alike_climb sameCursor_same hnested p) min).alike
      ⟨rfl, @at_self ⟨s.tokens, s.read, s.depth + 1⟩ hs⟩
    unfold nested
    rw [eq_of_same hunary]

/-! ## Every expression takes a token -/

/-- What an expression is read from begins with a token. -/
theorem read_lt_of_answer {s : Session} (hs : s.read ≤ s.tokens.length) {q : Question} {t : Node}
    (h : s.answer q = .ok t) : s.read < (s.after q).read := by
  obtain ⟨hafter, hout⟩ := after_spec hs q
  rw [h] at hout
  have hnode : nodeWithin (maxNesting - s.depth) s.cursor = .ok t (s.after q).cursor := by
    cases q with
    | node => exact hout
    | complete =>
        obtain ⟨t', m, hread, hend⟩ := bind_eq_ok.mp hout
        rw [Parser.peek_bind] at hend
        split at hend
        · obtain ⟨rfl, rfl⟩ := pure_eq_ok.mp hend
          exact hread
        · exact (fail_eq_ok.mp hend).elim
  obtain ⟨ts, hts, hderives⟩ := expression_sound (operand_recognizes _) hnode
  obtain ⟨tok, rest, rfl, -⟩ := hderives.opens
  have hleft : left s = rest.length + 1 + left (s.after q) := hts.length
  rw [left_eq, left_eq, hafter.tokens_eq] at hleft
  omega

end Session

/-! ## The tokens of a text -/

/-- One round of cutting a text into tokens, in front of what is behind the next lexeme. -/
def tokensStep (more : Position → List Char → Except ParseError (List (Located Token))) :
    Position → List Char → Except ParseError (List (Located Token))
  | pos, [] => .ok [⟨.eof, pos⟩]
  | pos, c :: cs =>
    match Lexeme.ofText c cs with
    | .error refusal => .error ⟨refusal.fault, pos.after ((c :: cs).take refusal.offset)⟩
    | .ok ⟨none, size⟩ => more (pos.after ((c :: cs).take size)) ((c :: cs).drop size)
    | .ok ⟨some token, size⟩ =>
      (more (pos.after ((c :: cs).take size)) ((c :: cs).drop size)).map (⟨token, pos⟩ :: ·)

/-- Cutting a text into tokens ends, since every lexeme has a character. -/
theorem tokens_end (pos : Position) (cs : List Char) :
    EndsWithin tokensStep (cs.length + 1) pos cs (tokensFrom 0 pos cs) := by
  refine endsWithin_of_rounds (fun _ => tokensFrom 0) (fun _ => True) List.length 0 ?_ ?_ trivial
    (Nat.lt_succ_self _) (Nat.le_refl cs.length)
  · intro more pos cs _ hlength
    obtain rfl := List.length_eq_zero_iff.mp hlength
    rfl
  · intro more _ pos cs _ _ hmore
    cases cs with
    | nil => rfl
    | cons c cs =>
        -- what is behind the lexeme is shorter than the text
        have hbehind {ds rest : List Char} (hcs : cs = ds ++ rest) :
            more (pos.after ((c :: cs).take (c :: ds).length)) ((c :: cs).drop (c :: ds).length)
              = tokensFrom 0 (pos.after (c :: ds)) rest := by
          subst hcs
          rw [← List.cons_append, List.take_left, List.drop_left]
          refine hmore _ _ trivial ?_
          rw [List.length_cons, List.length_append]
          omega
        cases hcut : Lexeme.ofText c cs with
        | error refusal => rw [tokensStep, tokensFrom, hcut]
        | ok lexeme =>
            obtain ⟨_ | tok, size⟩ := lexeme
            · obtain ⟨ds, rest, hcs, rfl, -⟩ := gapPiece_of_ofText hcut
              rw [tokensStep, hcut]
              refine (hbehind hcs).trans ?_
              subst hcs
              exact (tokensFrom_gap hcut pos).symm
            · obtain ⟨ds, rest, hcs, rfl, -⟩ := Lexeme.ofText_slice hcut
              rw [tokensStep, hcut]
              refine (congrArg (Except.map (⟨tok, pos⟩ :: ·)) (hbehind hcs)).trans ?_
              subst hcs
              exact (tokensFrom_cut hcut pos).symm

/-- A text has no more tokens than characters, its end apart. -/
theorem length_le_of_tokensFrom {skip : Nat} {pos : Position} {cs : List Char}
    {tokens : List (Located Token)} (h : tokensFrom skip pos cs = .ok tokens) :
    tokens.length ≤ cs.length + 1 := by
  induction cs generalizing skip pos tokens with
  | nil =>
      cases skip <;> cases h <;> exact Nat.le_refl 1
  | cons c cs ih =>
      cases skip with
      | succ skip => exact Nat.le_succ_of_le (ih h)
      | zero =>
          cases hcut : Lexeme.ofText c cs with
          | error refusal =>
              rw [tokensFrom, hcut] at h
              cases h
          | ok lexeme =>
              obtain ⟨_ | tok, size⟩ := lexeme
              · rw [tokensFrom, hcut] at h
                exact Nat.le_succ_of_le (ih h)
              · rw [tokensFrom, hcut] at h
                obtain ⟨more, hmore, rfl⟩ := map_eq_ok.mp h
                exact Nat.succ_le_succ (ih hmore)

/-! ## Reading ends -/

namespace Session

/-- Reading ends.  Whatever the tokens of a session are, wherever in them it has come to, and
    however many operands are open, the loops of the readers and the nesting of the operands end.
    A question moves the session on within its tokens, and by a token at least when it is answered.
    A text is cut into tokens by a loop that ends, and into no more of them than it has characters,
    the end apart. -/
theorem reading_ends :
    (∀ s : Session, s.read ≤ s.tokens.length →
      LoopsEnd (operand maxNesting) s
        ∧ (∀ min, EndsWithin operandStep (maxNesting - s.depth + 1) min s
          (operand maxNesting min s))
        ∧ ∀ q, (s.after q).tokens = s.tokens ∧ (s.after q).depth = s.depth
          ∧ s.read ≤ (s.after q).read ∧ (s.after q).read ≤ s.tokens.length
          ∧ ∀ t, s.answer q = .ok t → s.read < (s.after q).read)
      ∧ ∀ source : String,
        EndsWithin tokensStep (source.toList.length + 1) .start source.toList (tokenize source)
          ∧ ∀ tokens, tokenize source = .ok tokens →
            tokens.length ≤ source.toList.length + 1 := by
  constructor
  · intro s hs
    refine ⟨loopsEnd_of_tracked tracked_operand hs, operand_ends hs, fun q => ?_⟩
    obtain ⟨hafter, -⟩ := after_spec hs q
    exact ⟨hafter.tokens_eq, hafter.depth_eq, hafter.start_le, hafter.read_le,
      fun t ht => read_lt_of_answer hs ht⟩
  · intro source
    exact ⟨tokens_end .start source.toList, fun tokens h => length_le_of_tokensFrom h⟩

/-- With 98 operands open, a session goes on behind an end in the middle of its tokens, which have
    no other end. -/
theorem reading_ends_midway :
    let s : Session := ⟨[⟨.ident "f", ⟨1, 1⟩⟩, ⟨.mark .leftParen, ⟨1, 2⟩⟩, ⟨.eof, ⟨1, 3⟩⟩,
      ⟨.mark .plus, ⟨2, 1⟩⟩, ⟨.int 1, ⟨2, 2⟩⟩], 3, 98⟩
    s.answer .node = .ok (.unary .pos (.constant (.int 1)))
      ∧ s.read < (s.after .node).read ∧ (s.after .node).read ≤ s.tokens.length
      ∧ LoopsEnd (operand maxNesting) s := by
  intro s
  have hread : s.answer .node = .ok (.unary .pos (.constant (.int 1))) := rfl
  obtain ⟨hloops, -, hmoves⟩ := reading_ends.1 s (by decide)
  obtain ⟨-, -, -, hend, htoken⟩ := hmoves .node
  exact ⟨hread, htoken _ hread, hend, hloops⟩

end Session

end CallSite
