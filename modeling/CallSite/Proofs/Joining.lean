import CallSite.Proofs.Lexing.LineEnd

/-!
# Joined texts — a text and the lines that are put behind it

Two texts with a line feed between them are cut into the tokens of the one and then those of the
other (`tokenize_joined`).  There are two parts to this.  What is cut off the first text is cut off
it in front of the line feed too, lexeme by lexeme, and the line feed itself is a gap
(`tokensFrom_joined`).  And the cut of the second text does not depend on where the text stands:
when it begins some lines further down, so does everything that comes out of it, be it tokens or an
error (`tokensFrom_down`).
-/

namespace CallSite

/-! ## Texts further down -/

/-- The same column, some lines further down. -/
def Position.down (k : Nat) (p : Position) : Position := ⟨p.line + k, p.col⟩

/-- A token some lines further down. -/
def Located.down {α : Type} (k : Nat) (x : Located α) : Located α := ⟨x.value, x.pos.down k⟩

/-- An error some lines further down: the fault is the same. -/
def ParseError.down (k : Nat) (e : ParseError) : ParseError := ⟨e.fault, e.pos.down k⟩

/-- What becomes of a text that stands some lines further down. -/
def cutDown (k : Nat) :
    Except ParseError (List (Located Token)) → Except ParseError (List (Located Token))
  | .ok tokens => .ok (tokens.map (Located.down k))
  | .error e => .error (e.down k)

namespace Position

theorem down_next (k : Nat) (p : Position) (c : Char) : (p.down k).next c = (p.next c).down k := by
  rw [next, next]
  split
  · show Position.mk (p.line + k + 1) 1 = ⟨p.line + 1 + k, 1⟩
    rw [Nat.add_right_comm]
  · rfl

theorem down_after (k : Nat) (p : Position) (cs : List Char) :
    (p.down k).after cs = (p.after cs).down k := by
  induction cs generalizing p with
  | nil => rfl
  | cons c cs ih => rw [after_cons, after_cons, down_next, ih]

/-- Behind a text and a line feed the first column begins, in the line that the line feeds add up
    to. -/
theorem start_after_feed (cs : List Char) :
    (start.after cs).next '\n' = start.down (1 + cs.count '\n') := by
  rw [start_after]
  show Position.mk (1 + cs.count '\n' + 1) 1 = ⟨1 + (1 + cs.count '\n'), 1⟩
  rw [Nat.add_comm 1 (1 + _)]

end Position

theorem cutDown_map_cons (k : Nat) (x : Located Token)
    (cut : Except ParseError (List (Located Token))) :
    cutDown k (cut.map (x :: ·)) = (cutDown k cut).map (x.down k :: ·) := by
  cases cut with
  | error e => rfl
  | ok tokens => rfl

/-- Where a text stands changes nothing but where its tokens, or its error, are. -/
theorem tokensFrom_down (k skip : Nat) (pos : Position) (cs : List Char) :
    tokensFrom skip (pos.down k) cs = cutDown k (tokensFrom skip pos cs) := by
  induction cs generalizing skip pos with
  | nil => cases skip <;> rfl
  | cons c cs ih =>
      cases skip with
      | succ skip =>
          rw [tokensFrom, tokensFrom, Position.down_next]
          exact ih skip (pos.next c)
      | zero =>
          rw [tokensFrom, tokensFrom, Position.down_next]
          cases hcut : Lexeme.ofText c cs with
          | error refusal =>
              show Except.error (ParseError.mk refusal.fault ((pos.down k).after _)) = _
              rw [Position.down_after]
              rfl
          | ok lexeme =>
              obtain ⟨_ | tok, size⟩ := lexeme
              · exact ih (size - 1) (pos.next c)
              · show (tokensFrom (size - 1) ((pos.next c).down k) cs).map _
                  = cutDown k ((tokensFrom (size - 1) (pos.next c) cs).map _)
                rw [ih, cutDown_map_cons]
                rfl

/-! ## The first of two texts -/

/-- A lexeme lies in its text. -/
theorem Lexeme.size_le {c : Char} {cs : List Char} {lexeme : Lexeme}
    (h : ofText c cs = .ok lexeme) : lexeme.size ≤ (c :: cs).length := by
  obtain ⟨_ | tok, size⟩ := lexeme
  · obtain ⟨ds, rest, rfl, rfl, -⟩ := gapPiece_of_ofText h
    rw [← List.cons_append, List.length_append]
    exact Nat.le_add_right ..
  · obtain ⟨ds, rest, rfl, rfl, -⟩ := ofText_slice h
    rw [← List.cons_append, List.length_append]
    exact Nat.le_add_right ..

/-- A text that can be cut is cut in the same way when a line end and more text follow, and the cut
    goes on behind the line end. -/
theorem tokensFrom_joined {skip : Nat} {pos : Position} {cs : List Char}
    {tokens : List (Located Token)} (hskip : skip ≤ cs.length)
    (h : tokensFrom skip pos cs = .ok tokens) (behind : List Char) :
    ∃ own stop, tokens = own ++ [⟨.eof, stop⟩] ∧ (∀ x ∈ own, x.value.Lexed)
      ∧ tokensFrom skip pos (cs ++ '\n' :: behind)
        = (tokensFrom 0 ((pos.after cs).next '\n') behind).map (own ++ ·) := by
  have hrest : LineEnds ('\n' :: behind) := stops_cons.mpr (by decide)
  induction cs generalizing skip pos tokens with
  | nil =>
      obtain rfl : skip = 0 := Nat.le_zero.mp hskip
      obtain rfl : [⟨.eof, pos⟩] = tokens := Except.ok.inj h
      refine ⟨[], pos, rfl, List.forall_mem_nil _, ?_⟩
      show tokensFrom 0 (pos.next '\n') behind
        = (tokensFrom 0 (pos.next '\n') behind).map ([] ++ ·)
      cases tokensFrom 0 (pos.next '\n') behind <;> rfl
  | cons c cs ih =>
      cases skip with
      | succ skip => exact ih (Nat.le_of_succ_le_succ hskip) h
      | zero =>
          rw [tokensFrom] at h
          cases hcut : Lexeme.ofText c cs with
          | error refusal =>
              rw [hcut] at h
              cases h
          | ok lexeme =>
              -- the same lexeme is cut off in front of the line end
              have hcut' := Lexeme.ofText_lineEnds hrest hcut
              have hsize : lexeme.size - 1 ≤ cs.length := by
                have := Lexeme.size_le hcut
                rw [List.length_cons] at this
                omega
              rw [hcut] at h
              rw [List.cons_append, tokensFrom, hcut']
              obtain ⟨_ | tok, size⟩ := lexeme
              · exact ih hsize h
              · obtain ⟨more, hmore, rfl⟩ := map_eq_ok.mp h
                obtain ⟨own, stop, rfl, hlexed, hjoined⟩ := ih hsize hmore
                refine ⟨⟨tok, pos⟩ :: own, stop, rfl, ?_, ?_⟩
                · intro x hx
                  rcases List.mem_cons.mp hx with rfl | hx
                  · exact lexed_of_ofText hcut
                  · exact hlexed x hx
                · show (tokensFrom (size - 1) (pos.next c) (cs ++ '\n' :: behind)).map _ = _
                  rw [hjoined, Position.after_cons]
                  cases tokensFrom 0 (((pos.next c).after cs).next '\n') behind <;> rfl

/-- Where a text stands does not change the values of its tokens. -/
theorem tokensFrom_values {skip : Nat} {pos : Position} {cs : List Char}
    {tokens : List (Located Token)} (h : tokensFrom skip pos cs = .ok tokens) (pos' : Position) :
    ∃ tokens', tokensFrom skip pos' cs = .ok tokens'
      ∧ tokens'.map Located.value = tokens.map Located.value := by
  induction cs generalizing skip pos pos' tokens with
  | nil =>
      obtain rfl : [⟨.eof, pos⟩] = tokens := by
        cases skip <;> exact Except.ok.inj h
      exact ⟨[⟨.eof, pos'⟩], by cases skip <;> rfl, rfl⟩
  | cons c cs ih =>
      cases skip with
      | succ skip => exact ih h (pos'.next c)
      | zero =>
          rw [tokensFrom] at h ⊢
          cases hcut : Lexeme.ofText c cs with
          | error refusal =>
              rw [hcut] at h
              cases h
          | ok lexeme =>
              rw [hcut] at h
              obtain ⟨_ | tok, size⟩ := lexeme
              · exact ih h (pos'.next c)
              · obtain ⟨more, hmore, rfl⟩ := map_eq_ok.mp h
                obtain ⟨more', hmore', hvalues⟩ := ih hmore (pos'.next c)
                refine ⟨⟨tok, pos'⟩ :: more', map_eq_ok.mpr ⟨more', hmore', rfl⟩, ?_⟩
                rw [List.map_cons, List.map_cons, hvalues]

/-- A text that can be cut at one place is cut into the same tokens everywhere. -/
theorem lexes_of_tokensFrom {pos stop : Position} {cs : List Char} {own : List (Located Token)}
    (h : tokensFrom 0 pos cs = .ok (own ++ [⟨.eof, stop⟩])) :
    Lexes cs (own.map Located.value) := by
  intro pos'
  obtain ⟨tokens, htokens, hvalues⟩ := tokensFrom_values h pos'
  obtain ⟨located, stop', rfl, -⟩ := lexed_of_tokensFrom htokens
  refine ⟨located, stop', htokens, ?_⟩
  simpa using hvalues

/-- Two texts with a line feed between them are cut one behind the other. -/
theorem Lexes.joined {cs behind : List Char} {ts us : List Token} (hcs : Lexes cs ts)
    (hbehind : Lexes behind us) : Lexes (cs ++ '\n' :: behind) (ts ++ us) := by
  intro pos
  obtain ⟨located, stop, hcut, rfl⟩ := hcs pos
  obtain ⟨own, stop', heq, -, hjoined⟩ := tokensFrom_joined (Nat.zero_le _) hcut behind
  obtain ⟨rfl, -⟩ := List.append_inj' heq rfl
  obtain ⟨more, last, hmore, rfl⟩ := hbehind ((pos.after cs).next '\n')
  refine ⟨located ++ more, last, ?_, List.map_append ..⟩
  rw [hjoined, hmore, List.append_assoc]
  rfl

/-! ## Both texts -/

/-- When the first of two texts can be cut, the joined text is cut into the tokens of the first up
    to its end and the tokens of the second, which stand as many lines further down as the first
    text and the line feed behind it take up.  If the second text is refused, the joined text is
    refused with the same fault, as many lines further down. -/
theorem tokenize_joined {first : String} {tokens : List (Located Token)}
    (h : tokenize first = .ok tokens) (second : String) :
    ∃ own stop, tokens = own ++ [⟨.eof, stop⟩] ∧ (∀ x ∈ own, x.value ≠ .eof)
      ∧ (∀ more, tokenize second = .ok more →
          tokenize (first ++ "\n" ++ second)
            = .ok (own ++ more.map (Located.down (1 + first.toList.count '\n'))))
      ∧ (∀ e, tokenize second = .error e →
          tokenize (first ++ "\n" ++ second)
            = .error (e.down (1 + first.toList.count '\n'))) := by
  obtain ⟨own, stop, rfl, hlexed, hjoined⟩ :=
    tokensFrom_joined (Nat.zero_le _) h second.toList
  have hwhole : tokenize (first ++ "\n" ++ second)
      = (cutDown (1 + first.toList.count '\n') (tokenize second)).map (own ++ ·) := by
    have hchars : (first ++ "\n" ++ second).toList = first.toList ++ '\n' :: second.toList := by
      simp
    rw [tokenize, hchars, hjoined, Position.start_after_feed, tokensFrom_down]
    rfl
  refine ⟨own, stop, rfl, fun x hx => (hlexed x hx).ne_eof, ?_, ?_⟩
  · intro more hmore
    rw [hwhole, hmore]
    rfl
  · intro e he
    rw [hwhole, he]
    rfl

/-- The first text ends in a comment behind an escaped line feed, the second is refused at its
    second character. -/
theorem tokenize_joined_comment :
    tokenize "f\\\n # x'" = .ok [⟨.ident "f", ⟨1, 1⟩⟩, ⟨.eof, ⟨2, 6⟩⟩]
      ∧ tokenize " $" = .error ⟨.unexpectedChar '$', ⟨1, 2⟩⟩
      ∧ ∃ own stop, [⟨.ident "f", ⟨1, 1⟩⟩, ⟨.eof, ⟨2, 6⟩⟩] = own ++ [⟨Token.eof, stop⟩]
        ∧ (∀ x ∈ own, x.value ≠ .eof)
        ∧ (∀ more, tokenize " $" = .ok more →
            tokenize ("f\\\n # x'" ++ "\n" ++ " $")
              = .ok (own ++ more.map (Located.down (1 + "f\\\n # x'".toList.count '\n'))))
        ∧ (∀ e, tokenize " $" = .error e →
            tokenize ("f\\\n # x'" ++ "\n" ++ " $")
              = .error (e.down (1 + "f\\\n # x'".toList.count '\n'))) :=
  have hcut := by decide +kernel
  ⟨hcut, by decide +kernel, tokenize_joined hcut " $"⟩

/-- The fault stands in the third line of the joined text. -/
example : tokenize ("f\\\n # x'" ++ "\n" ++ " $") = .error ⟨.unexpectedChar '$', ⟨3, 2⟩⟩ := by
  decide +kernel

end CallSite
