import CallSite.Proofs.Grammar.Bracket
import CallSite.Proofs.Rounds

/-!
# Locality — a reader depends on nothing beyond the place where it stops

From one place of its tokens a reader sees the next token, its position, and whether a keyword
argument begins there.  What it gives and where it stops is settled by what is seen at the places
up to the one where it stops (`Parser.StopsBehind`): another list of tokens that looks the same up
to there is read alike, with the same value or the same error.  On its way a reader leaves no end of
a text behind, and an error is at the place where it stops.

This is handed on from the primitives to the loop over the operators (`Parser.local_climb`).  The
loops are counted by the tokens that are left, which are not as many in the other list; that makes
no difference, since they end (`Parser.local_of_rounds`).
-/

namespace CallSite

open HasCursor

/-! ## What is seen from a cursor -/

namespace Cursor

/-- The cursor behind the next `n` tokens. -/
def skip (n : Nat) (c : Cursor) : Cursor := ⟨c.rest.drop n, c.last⟩

theorem skip_one (c : Cursor) : c.skip 1 = c.next := by
  rw [skip, next, List.drop_one]

theorem skip_skip (m n : Nat) (c : Cursor) : (c.skip m).skip n = c.skip (m + n) := by
  rw [skip, skip, skip, List.drop_drop]

/-- What a reader sees from a cursor before it moves on. -/
def sight (c : Cursor) : Token × Position × Option String := (c.token, c.pos, c.keyword?)

theorem token_eq {c d : Cursor} (h : d.sight = c.sight) : d.token = c.token :=
  congrArg (fun s => s.1) h

/-- Two cursors look the same, and so do the places up to `n` tokens behind them. -/
def LooksLike (n : Nat) (c d : Cursor) : Prop := ∀ i ≤ n, (d.skip i).sight = (c.skip i).sight

variable {m n : Nat} {c d : Cursor}

theorem LooksLike.mono (h : LooksLike n c d) (hmn : m ≤ n) : LooksLike m c d :=
  fun i hi => h i (Nat.le_trans hi hmn)

/-- Behind some of the tokens the rest of the places look the same. -/
theorem LooksLike.skip (h : LooksLike (m + n) c d) : LooksLike n (c.skip m) (d.skip m) := by
  intro i hi
  rw [skip_skip, skip_skip]
  exact h (m + i) (Nat.add_le_add_left hi m)

theorem LooksLike.sight (h : LooksLike n c d) : d.sight = c.sight := h 0 (Nat.zero_le n)

/-- No more tokens are skipped than there are, as long as none of them is an end. -/
theorem le_of_no_eof (h : ∀ i < n, (c.skip i).token ≠ .eof) : n ≤ c.rest.length := by
  by_contra hlong
  have hnil : c.rest.drop c.rest.length = [] := List.drop_length
  refine h c.rest.length (Nat.lt_of_not_le hlong) ?_
  rw [Cursor.skip, token, hnil]

end Cursor

namespace Parser

variable {α β : Type}

/-! ## Local readers -/

/-- The outcome of a reader, in another state. -/
def inState (r : EStateM.Result ParseError Cursor α) (d : Cursor) :
    EStateM.Result ParseError Cursor α :=
  match r with
  | .ok a _ => .ok a d
  | .error e _ => .error e d

/-- A reader stops behind `n` tokens, none of which is an end, and blames the place where it stops.
    From a cursor that looks the same up to there it stops behind as many tokens, with the same
    outcome. -/
structure StopsBehind (p : Parser α) (c : Cursor) (n : Nat) : Prop where
  endState_eq : endState (p c) = c.skip n
  no_eof : ∀ i < n, (c.skip i).token ≠ .eof
  blames : ∀ {e c'}, p c = .error e c' → e.pos = c'.pos
  depends : ∀ {d}, c.LooksLike n d → p d = inState (p c) (d.skip n)

/-- From a cursor a reader depends on nothing beyond the place where it stops. -/
def LocalAt (p : Parser α) (c : Cursor) : Prop := ∃ n, StopsBehind p c n

/-- A reader depends on nothing beyond the place where it stops. -/
def Local (p : Parser α) : Prop := ∀ c, LocalAt p c

section

variable {p q : Parser α} {f : α → Parser β} {c : Cursor} {n : Nat}

/-- A reader that returns does so behind the place where it stops, from all that looks the same. -/
theorem StopsBehind.of_ok (h : StopsBehind p c n) {a : α} {c' : Cursor} (hrun : p c = .ok a c') :
    c' = c.skip n ∧ ∀ {d}, c.LooksLike n d → p d = .ok a (d.skip n) := by
  obtain ⟨hend, -, -, hdepends⟩ := h
  rw [hrun] at hend hdepends
  exact ⟨hend, hdepends⟩

/-- A reader that fails does so at the place where it stops, from all that looks the same. -/
theorem StopsBehind.of_error (h : StopsBehind p c n) {e : ParseError} {c' : Cursor}
    (hrun : p c = .error e c') :
    c' = c.skip n ∧ ∀ {d}, c.LooksLike n d → p d = .error e (d.skip n) := by
  obtain ⟨hend, -, -, hdepends⟩ := h
  rw [hrun] at hend hdepends
  exact ⟨hend, hdepends⟩

/-- The tokens in front of the place where a reader stops and those behind it are all there are. -/
theorem StopsBehind.length (h : StopsBehind p c n) :
    n + (endState (p c)).rest.length = c.rest.length := by
  rw [h.endState_eq, Cursor.skip, List.length_drop]
  exact Nat.add_sub_cancel' (Cursor.le_of_no_eof h.no_eof)

/-- A local reader never goes back. -/
theorem Local.onward (h : Local p) : Onward p := by
  intro c a c' _ hrun
  obtain ⟨n, hn⟩ := h c
  have hlength : n + left c' = left c := by
    have := hn.length
    rwa [hrun] at this
  exact ⟨trivial, hlength ▸ Nat.le_add_left _ n⟩

/-- A reader that does what a local one does, from every cursor that looks the same, is local. -/
theorem LocalAt.congr (hrun : ∀ {d : Cursor}, d.sight = c.sight → p d = q d) (h : LocalAt q c) :
    LocalAt p c := by
  obtain ⟨n, hn⟩ := h
  have hc : p c = q c := hrun rfl
  refine ⟨n, hc ▸ hn.endState_eq, hn.no_eof, hc ▸ hn.blames, fun hd => ?_⟩
  rw [hrun hd.sight, hc]
  exact hn.depends hd

/-! ## Primitives -/

theorem local_pure (a : α) : Local (pure a : Parser α) :=
  fun _ => ⟨0, rfl, fun _ h => absurd h (Nat.not_lt_zero _), nofun, fun _ => rfl⟩

theorem local_fail (fault : Fault) : Local (fail fault : Parser α) := by
  intro c
  refine ⟨0, rfl, fun _ h => absurd h (Nat.not_lt_zero _), ?_, fun {d} hd => ?_⟩
  · intro e c' hrun
    cases hrun
    rfl
  · have hpos : d.pos = c.pos := congrArg (fun s => s.2.1) hd.sight
    exact congrArg (fun pos => EStateM.Result.error (ParseError.mk fault pos) d) hpos

theorem LocalAt.peek {f : Token → Parser β} (h : LocalAt (f c.token) c) :
    LocalAt (Parser.peek >>= f) c := by
  refine .congr (fun {d} hd => ?_) h
  rw [peek_bind, Cursor.token_eq hd]

theorem LocalAt.keyword? {f : Option String → Parser β} (h : LocalAt (f c.keyword?) c) :
    LocalAt (Parser.keyword? >>= f) c := by
  refine .congr (fun {d} hd => ?_) h
  have hkeyword : d.keyword? = c.keyword? := congrArg (fun s => s.2.2) hd
  rw [keyword?_bind, hkeyword]

/-- A token may be left behind, unless it is the end. -/
theorem localAt_advance {tok : Token} (h : c.token = tok) (htok : tok ≠ .eof) :
    LocalAt (advance : Parser Unit) c := by
  refine ⟨1, c.skip_one.symm, ?_, nofun, fun {d} _ => ?_⟩
  · intro i hi
    obtain rfl := Nat.lt_one_iff.mp hi
    exact h ▸ htok
  · rw [d.skip_one]
    rfl

/-! ## Sequences -/

theorem LocalAt.ite {P : Prop} [Decidable P] (h : P → LocalAt p c) (h' : ¬ P → LocalAt q c) :
    LocalAt (if P then p else q) c := by
  by_cases hP : P
  · rw [if_pos hP]
    exact h hP
  · rw [if_neg hP]
    exact h' hP

/-- A sequence stops where its second part does, run behind the first. -/
theorem StopsBehind.bind {m : Nat} {a : α} (hp : StopsBehind p c m) (hrun : p c = .ok a (c.skip m))
    (hf : StopsBehind (f a) (c.skip m) n) : StopsBehind (p >>= f) c (m + n) := by
  have hseq : (p >>= f) c = f a (c.skip m) := bind_of_ok hrun
  constructor
  case endState_eq =>
    rw [hseq, hf.endState_eq, Cursor.skip_skip]
  case no_eof =>
    -- a place is either in front of the first part's stop or behind it
    intro i hi
    by_cases hlt : i < m
    · exact hp.no_eof i hlt
    · have := hf.no_eof (i - m) (by omega)
      rwa [Cursor.skip_skip, Nat.add_sub_cancel' (Nat.le_of_not_lt hlt)] at this
  case blames =>
    rw [hseq]
    exact hf.blames
  case depends =>
    intro d hd
    have hfirst := (hp.of_ok hrun).2 (hd.mono (Nat.le_add_right m n))
    rw [hseq, bind_of_ok hfirst, hf.depends hd.skip, Cursor.skip_skip]

/-- A sequence stops where its first part fails. -/
theorem StopsBehind.bind_of_error {e : ParseError} {c' : Cursor} (hp : StopsBehind p c n)
    (hrun : p c = .error e c') : StopsBehind (p >>= f) c n := by
  have hseq {d d' : Cursor} (hd : p d = .error e d') : (p >>= f) d = .error e d' := by
    show EStateM.bind p f d = _
    rw [EStateM.bind, hd]
  obtain ⟨hend, hdepends⟩ := hp.of_error hrun
  constructor
  case endState_eq =>
    rw [hseq hrun]
    exact hend
  case no_eof => exact hp.no_eof
  case blames =>
    intro e' c'' h
    rw [hseq hrun] at h
    cases h
    exact hp.blames hrun
  case depends =>
    intro d hd
    rw [hseq hrun]
    exact hseq (hdepends hd)

theorem LocalAt.bind (h : LocalAt p c) (hf : ∀ a c', p c = .ok a c' → LocalAt (f a) c') :
    LocalAt (p >>= f) c := by
  obtain ⟨m, hm⟩ := h
  cases hrun : p c with
  | error e c' => exact ⟨m, hm.bind_of_error hrun⟩
  | ok a c' =>
      obtain ⟨rfl, -⟩ := hm.of_ok hrun
      obtain ⟨n, hn⟩ := hf a _ hrun
      exact ⟨m + n, hm.bind hrun hn⟩

theorem LocalAt.advance {f : Unit → Parser β} {tok : Token} (h : c.token = tok) (htok : tok ≠ .eof)
    (hf : LocalAt (f ()) c.next) : LocalAt (Parser.advance >>= f) c := by
  refine .bind (localAt_advance h htok) fun _ c' hrun => ?_
  obtain rfl := advance_eq_ok.mp hrun
  exact hf

theorem Local.ite {P : Prop} [Decidable P] (h : Local p) (h' : Local q) :
    Local (if P then p else q) := fun c => .ite (fun _ => h c) fun _ => h' c

theorem Local.bind (h : Local p) (hf : ∀ a, Local (f a)) : Local (p >>= f) :=
  fun c => .bind (h c) fun a c' _ => hf a c'

theorem Local.peek {f : Token → Parser β} (h : ∀ tok, Local (f tok)) : Local (Parser.peek >>= f) :=
  fun c => .peek (h _ c)

end

/-! ## Rounds -/

/-- What is counted by the tokens that are left is local, if every number of rounds is and more of
    them do no more. -/
theorem local_of_rounds {p : Parser α} {rounds : Nat → Parser α}
    (hrounds : ∀ fuel, Local (rounds fuel))
    (hp : ∀ (c : Cursor) fuel, left c < fuel → p c = rounds fuel c) : Local p := by
  intro c
  have hc := hp c (left c + 1) (Nat.lt_succ_self _)
  obtain ⟨n, hn⟩ := hrounds (left c + 1) c
  refine ⟨n, hc ▸ hn.endState_eq, hn.no_eof, hc ▸ hn.blames, fun {d} hd => ?_⟩
  -- as many rounds as both need, which stop at the same place
  have hboth := hp c (left c + left d + 1) (by omega)
  obtain ⟨m, hm⟩ := hrounds (left c + left d + 1) c
  obtain rfl : n = m := by
    have hlength := hn.length
    have hlength' := hm.length
    rw [← hc] at hlength
    rw [← hboth] at hlength'
    omega
  rw [hp d (left c + left d + 1) (by omega), hboth]
  exact hm.depends hd

/-! ## Words of the grammar -/

theorem local_eat (m : Mark) : Local (eat m) := fun c => by
  refine .peek (.ite (fun htoken => ?_) fun _ => local_pure _ c)
  exact .advance htoken nofun (local_pure _ _)

theorem local_expect (m : Mark) : Local (expect m) := fun c => by
  refine .peek (.ite (fun htoken => ?_) fun _ => local_fail _ c)
  exact localAt_advance htoken nofun

theorem local_identifier : Local identifier := fun c => by
  refine .peek ?_
  cases htoken : c.token with
  | ident name => exact .advance htoken nofun (local_pure _ _)
  | _ => exact local_fail _ c

/-- A token that stands for a value is left behind. -/
theorem localAt_literal {c : Cursor} {tok : Token} (h : c.token = tok) (htok : tok ≠ .eof) (a : α) :
    LocalAt (advance >>= fun _ => pure a) c := .advance h htok (local_pure a _)

/-- Texts are read up to a token that is none, by the number of the tokens that are left. -/
theorem local_texts : Local texts := by
  intro c
  induction hlength : left c using Nat.strongRecOn generalizing c with
  | ind n ih =>
      subst hlength
      by_cases hstr : ∃ text, c.token = .str text
      · obtain ⟨text, htoken⟩ := hstr
        have hless : left c.next < left c := (next_spec (s := c) trivial htoken nofun).2
        have hstep {d : Cursor} (hd : d.sight = c.sight) : texts d
            = (advance >>= fun _ => texts >>= fun more => pure (text ++ more)) d :=
          texts_bind_of_str (f := pure) trivial ((Cursor.token_eq hd).trans htoken)
        refine .congr hstep ?_
        exact .advance htoken nofun (.bind (ih _ hless _ rfl) fun _ _ _ => local_pure _ _)
      · refine .congr (fun hd => texts_bind_of_ne (f := pure) trivial fun text htoken => ?_)
          (local_pure "" c)
        exact hstr ⟨text, (Cursor.token_eq hd).symm.trans htoken⟩

theorem local_itemsWithin {close : Mark} {item : α → Parser α} (hitem : ∀ a, Local (item a))
    (fuel : Nat) (a : α) : Local (itemsWithin close item fuel a) := by
  induction fuel generalizing a with
  | zero => exact local_pure a
  | succ fuel ih =>
      refine .peek fun _ => .ite (local_pure a) ?_
      exact .bind (hitem a) fun b => .bind (local_eat _) fun _ => .ite (ih b) (local_pure b)

theorem local_items {close : Mark} {item : α → Parser α} (hitem : ∀ a, Local (item a)) (a : α) :
    Local (items close item a) :=
  local_of_rounds (fun fuel => local_itemsWithin hitem fuel a) fun _ _ hfuel =>
    (itemsWithin_ends (fun b => (hitem b).onward) trivial (Nat.le_refl _) a).unique
      (itemsWithin_ends (fun b => (hitem b).onward) trivial hfuel a)

/-! ## Brackets -/

section

variable {sub : Nat → Parser Node} (h : ∀ p, Local (sub p))
include h

theorem local_expression : Local (expression sub) := .peek fun _ => .ite (local_fail _) (h 0)

theorem local_displayItem : Local (displayItem sub) :=
  .bind (local_eat _) fun _ =>
    .ite (.bind (h _) fun _ => local_pure _) (local_expression h)

theorem local_moreItems (read : List Node) : Local (moreItems sub read) :=
  .bind (local_displayItem h) fun _ => local_pure _

theorem local_moreIndices (read : List Node) : Local (moreIndices sub read) :=
  .bind (local_expression h) fun _ => local_pure _

theorem local_moreEntries (read : List (Entry Node)) : Local (moreEntries sub read) := by
  refine .bind (local_eat _) fun _ => .ite (.bind (h _) fun _ => local_pure _) ?_
  refine .bind (local_expression h) fun _ c => .peek ?_
  refine .ite (fun _ => local_fail _ c) fun hcolon => ?_
  refine .advance (not_not.mp hcolon) nofun ?_
  exact Local.bind (local_expression h) (fun _ => local_pure _) _

theorem local_moreArguments (read : Call Node) : Local (moreArguments sub read) := by
  intro c
  -- an argument that is a value behind some tokens
  have hvalue (f : Node → Call Node) : Local (expression sub >>= fun value => pure (f value)) :=
    .bind (local_expression h) fun _ => local_pure _
  refine .peek ?_
  split
  · rename_i htoken
    exact .advance htoken nofun (hvalue _ _)
  · rename_i htoken
    refine .ite (fun _ => local_fail _ c) fun _ => ?_
    exact .advance htoken nofun (hvalue _ _)
  · refine .keyword? ?_
    cases hkeyword : c.keyword? with
    | some name =>
        -- a name and an equals sign are left behind
        obtain ⟨hname, hassign⟩ := keyword?_eq_some.mp hkeyword
        refine .advance hname nofun (.advance hassign nofun ?_)
        exact hvalue _ _
    | none => exact .ite (fun _ => hvalue _ c) fun _ => local_fail _ c

theorem local_parenthesized : Local (parenthesized sub) := by
  refine .bind (local_eat _) fun _ => .ite (local_pure _) ?_
  refine .bind (local_displayItem h) fun first => .bind (local_eat _) fun _ => .ite ?_ ?_
  · cases first with
    | starred _ => exact local_fail _
    | _ => exact local_pure _
  · refine .bind (local_eat _) fun _ => ?_
    have htuple (read : List Node) :
        Local (expect .rightParen >>= fun _ => pure (Node.tuple read)) :=
      .bind (local_expect _) fun _ => local_pure _
    exact .ite (.bind (local_items (local_moreItems h) _) htuple) (.bind (local_pure _) htuple)

theorem local_listDisplay : Local (listDisplay sub) :=
  .bind (local_items (local_moreItems h) _) fun _ => .bind (local_expect _) fun _ => local_pure _

theorem local_dictDisplay : Local (dictDisplay sub) :=
  .bind (local_items (local_moreEntries h) _) fun _ => .bind (local_expect _) fun _ => local_pure _

theorem local_arguments (func : Node) : Local (arguments sub func) :=
  .bind (local_items (local_moreArguments h) _) fun _ => .bind (local_expect _) fun _ =>
    local_pure _

theorem local_indices : Local (indices sub) := by
  refine .bind (local_expression h) fun first => .peek fun _ => .ite (local_fail _) ?_
  have hslice (slice : Node) : Local (expect .rightBracket >>= fun _ => pure slice) :=
    .bind (local_expect _) fun _ => local_pure _
  refine .bind (local_eat _) fun _ => .ite ?_ (.bind (local_pure _) hslice)
  exact .bind (local_items (local_moreIndices h) _) fun _ => .bind (local_pure _) hslice

/-! ## Operands -/

theorem local_atom : Local (atom sub) := by
  intro c
  refine .peek ?_
  cases htoken : c.token with
  | str _ => exact Local.bind local_texts (fun _ => local_pure _) c
  | mark m =>
      cases m with
      | leftParen => exact .advance htoken nofun (local_parenthesized h _)
      | leftBracket => exact .advance htoken nofun (local_listDisplay h _)
      | leftBrace => exact .advance htoken nofun (local_dictDisplay h _)
      | ellipsis => exact localAt_literal htoken nofun _
      | _ => exact local_fail _ c
  | word w =>
      cases w with
      | trueWord | falseWord | noneWord => exact localAt_literal htoken nofun _
      | _ => exact local_fail _ c
  | eof => exact local_fail _ c
  | _ => exact localAt_literal htoken nofun _

theorem local_trailersWithin (fuel : Nat) (node : Node) :
    Local (trailersWithin sub fuel node) := by
  induction fuel generalizing node with
  | zero => exact local_pure _
  | succ fuel ih =>
      intro c
      -- what a mark opens, and the further trailers
      have hbehind {α : Type} {p : Parser α} (hp : Local p) (f : α → Node) :
          Local (p >>= fun a => trailersWithin sub fuel (f a)) := .bind hp fun a => ih (f a)
      refine .peek ?_
      cases htoken : c.token with
      | mark m =>
          cases m with
          | dot => exact .advance htoken nofun (hbehind local_identifier _ _)
          | leftParen => exact .advance htoken nofun (hbehind (local_arguments h node) _ _)
          | leftBracket => exact .advance htoken nofun (hbehind (local_indices h) _ _)
          | _ => exact local_pure _ c
      | _ => exact local_pure _ c

theorem local_primary : Local (primary sub) := by
  refine .bind (local_atom h) fun node => ?_
  refine local_of_rounds (fun fuel => local_trailersWithin h fuel node) fun _ _ hfuel => ?_
  have hends {c : Cursor} {fuel : Nat} (hle : left c ≤ fuel) :=
    trailersWithin_ends local_identifier.onward (fun func => (local_arguments h func).onward)
      (local_indices h).onward (s := c) trivial hle node
  exact (hends (Nat.le_refl _)).unique (hends (Nat.le_of_lt hfuel))

theorem local_unary (p : Nat) : Local (unary sub p) := by
  intro c
  refine .peek ?_
  cases hop : UnaryOp.ofToken? c.token with
  | none => exact local_primary h c
  | some op =>
      refine .ite (fun _ => local_fail _ c) fun _ => ?_
      refine .advance (UnaryOp.token_of_ofToken? hop).symm op.token_ne_eof ?_
      exact Local.bind (h _) (fun _ => local_pure _) _

/-! ## Climbing -/

theorem local_climbWithin (fuel p : Nat) (node : Node) (links : List (Link Node)) :
    Local (climbWithin sub fuel p node links) := by
  induction fuel generalizing p node links with
  | zero => exact local_pure _
  | succ fuel ih =>
      intro c
      refine .peek ?_
      cases hop : BinaryOp.ofToken? c.token with
      | none => exact local_pure _ c
      | some op =>
          refine .ite (fun _ => local_pure _ c) fun _ => ?_
          refine .advance (BinaryOp.token_of_ofToken? hop).symm op.token_ne_eof ?_
          -- the right operand, the operators that bind it tighter, and the rest of the loop
          refine Local.bind (h _) (fun right => .bind (ih _ _ _) fun right => ?_) _
          exact .ite (ih _ _ _) (ih _ _ _)

theorem local_climbRounds (fuel : Nat) (climbed : Climb) : Local (climbRounds sub fuel climbed) :=
  local_climbWithin h fuel climbed.min climbed.left climbed.links

theorem local_climb (p : Nat) : Local (climb sub p) := by
  refine .bind (h p) fun node => ?_
  refine local_of_rounds (fun fuel => local_climbRounds h fuel ⟨p, node, []⟩) fun _ _ hfuel => ?_
  have hends {c : Cursor} {fuel : Nat} (hle : left c ≤ fuel) :=
    climbRounds_end (fun p => (h p).onward) (fun fuel c => (local_climbRounds h fuel c).onward)
      (s := c) trivial hle ⟨p, node, []⟩
  exact (hends (Nat.le_refl _)).unique (hends (Nat.le_of_lt hfuel))

end

/-! ## Whole texts -/

theorem local_operand (depth p : Nat) : Local (operand depth p) := by
  induction depth generalizing p with
  | zero => exact local_fail _
  | succ depth ih => exact local_unary (local_climb ih) p

theorem local_completeWithin (depth : Nat) : Local (completeWithin depth) := by
  refine .bind (local_expression (local_climb (local_operand depth))) fun _ => ?_
  exact .peek fun _ => .ite (local_pure _) (local_fail _)

end Parser

end CallSite
