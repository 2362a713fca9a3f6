import CallSite.Proofs.Locality
import CallSite.Proofs.Session
import CallSite.Proofs.Tiling

/-!
# Blame — where an error is, and what it depends on

An error is at a position of the text: that of a token if the text can be cut into tokens, and
otherwise that of the character at which the cut fails.  Only the complaint that an expression is no
call is at the start of the text.  A session that fails on its tokens stops at the token that it
blames, and what comes behind the next token does not matter to it (`errors_local`).
-/

namespace CallSite

open CallSite.Parser

/-! ## Positions -/

/-- Tokens are at positions of their text. -/
theorem Tiles.pos_eq {cs : List Char} {offset : Nat} {spans : List Span}
    {tokens : List (Located Token)} (h : Tiles cs offset spans tokens) {x : Located Token}
    (hx : x ∈ tokens) : ∃ i ≤ cs.length, x.pos = .ofOffset cs i := by
  induction h with
  | stop =>
      obtain rfl := List.mem_singleton.mp hx
      exact ⟨_, Nat.le_refl _, rfl⟩
  | token _ hspan hstop _ _ _ _ ih =>
      rcases List.mem_cons.mp hx with rfl | hx
      · exact ⟨_, Nat.le_of_lt (Nat.lt_of_lt_of_le hspan hstop), rfl⟩
      · exact ih hx

/-- Behind a front of a text there is a position of the text. -/
theorem Position.exists_ofOffset (before rest : List Char) (k : Nat) :
    ∃ i ≤ (before ++ rest).length,
      (start.after before).after (rest.take k) = ofOffset (before ++ rest) i := by
  refine ⟨(before ++ rest.take k).length, ?_, ?_⟩
  · rw [List.length_append, List.length_append, List.length_take]
    omega
  · have := ofOffset_append (before ++ rest.take k) (rest.drop k)
    rw [List.append_assoc, List.take_append_drop, after_append] at this
    exact this.symm

theorem map_eq_error {ε α β : Type} {r : Except ε α} {f : α → β} {e : ε} :
    r.map f = .error e ↔ r = .error e := by
  cases r <;> simp [Except.map]

/-- Where the cut of a text fails, there is a position of the text. -/
theorem pos_of_tokensFrom_error {before rest : List Char} {skip : Nat} {e : ParseError}
    (h : tokensFrom skip (Position.start.after before) rest = .error e) :
    ∃ i ≤ (before ++ rest).length, e.pos = .ofOffset (before ++ rest) i := by
  induction rest generalizing before skip with
  | nil => cases skip <;> cases h
  | cons c cs ih =>
      -- one more character belongs to what is behind
      have hmore {skip : Nat}
          (h : tokensFrom skip ((Position.start.after before).next c) cs = .error e) :
          ∃ i ≤ (before ++ c :: cs).length, e.pos = .ofOffset (before ++ c :: cs) i := by
        have hnext : (Position.start.after before).next c = Position.start.after (before ++ [c]) := by
          rw [Position.after_append]
          rfl
        rw [hnext] at h
        have := ih h
        rwa [List.append_assoc] at this
      cases skip with
      | succ skip => exact hmore h
      | zero =>
          rw [tokensFrom] at h
          cases hcut : Lexeme.ofText c cs with
          | error refusal =>
              rw [hcut] at h
              cases h
              exact Position.exists_ofOffset before (c :: cs) refusal.offset
          | ok lexeme =>
              rw [hcut] at h
              obtain ⟨_ | tok, size⟩ := lexeme
              · exact hmore h
              · exact hmore (map_eq_error.mp h)

/-! ## The places of a list of tokens -/

namespace Cursor

variable {c d : Cursor} {i : Nat} {x : Located Token}

theorem token_skip (c : Cursor) (i : Nat) :
    (c.skip i).token = (c.rest[i]?.map Located.value).getD .eof := by
  rw [← List.head?_drop, skip, token]
  cases c.rest.drop i <;> rfl

theorem pos_skip (h : c.rest[i]? = some x) : (c.skip i).pos = x.pos := by
  obtain ⟨rest, hrest⟩ := List.head?_eq_some_iff.mp (List.head?_drop.trans h)
  rw [skip, pos, hrest]

/-- A place looks the same when its token and the one behind it are the same; behind the end nothing
    is looked at. -/
theorem sight_skip_congr (hc : c.rest[i]? = some x) (hd : d.rest[i]? = some x)
    (hnext : x.value ≠ .eof → (d.skip (i + 1)).token = (c.skip (i + 1)).token) :
    (d.skip i).sight = (c.skip i).sight := by
  have htoken : (d.skip i).token = (c.skip i).token := by
    rw [token_skip, token_skip, hc, hd]
  have hvalue : (c.skip i).token = x.value := by
    rw [token_skip, hc]
    rfl
  have hkeyword : (d.skip i).keyword? = (c.skip i).keyword? := by
    refine Option.ext fun name => ?_
    rw [keyword?_eq_some, keyword?_eq_some, ← skip_one, ← skip_one, skip_skip, skip_skip, htoken]
    refine and_congr_right fun hname => ?_
    rw [hnext fun heof => by rw [hvalue, heof] at hname; cases hname]
  rw [sight, sight, htoken, hkeyword, pos_skip hd, pos_skip hc]

end Cursor

/-! ## Where a session fails -/

namespace Session

variable {tokens : List (Located Token)} {e : ParseError}

/-- A session that is asked at the start of its tokens does what the parser does there, and is
    behind as many tokens. -/
theorem complete_ofTokens (tokens : List (Located Token)) :
    let p := ((ofTokens tokens).after .complete).read
    p ≤ tokens.length ∧ Parser.complete (.ofTokens tokens)
      = outcome ((ofTokens tokens).answer .complete) ((Cursor.ofTokens tokens).skip p) := by
  intro p
  obtain ⟨hafter, hout⟩ := @after_spec (ofTokens tokens) (Nat.zero_le _) .complete
  have hcursor : ((ofTokens tokens).after .complete).cursor = (Cursor.ofTokens tokens).skip p := by
    rw [cursor, hafter.tokens_eq]
    rfl
  rw [hcursor] at hout
  exact ⟨hafter.read_le, hout⟩

theorem onTokens_complete (tokens : List (Located Token)) :
    Parser.complete.onTokens tokens = (ofTokens tokens).answer .complete := by
  rw [Parser.onTokens, (complete_ofTokens tokens).2]
  cases (ofTokens tokens).answer .complete <;> rfl

/-- A session that fails on its tokens stops in front of their end, and does on its cursor what
    depends on nothing beyond that place. -/
theorem stopsBehind_of_error (hend : tokens.getLast?.map Located.value = some .eof)
    (h : (ofTokens tokens).answer .complete = .error e) :
    let p := ((ofTokens tokens).after .complete).read
    p < tokens.length ∧ StopsBehind Parser.complete (.ofTokens tokens) p
      ∧ Parser.complete (.ofTokens tokens) = .error e ((Cursor.ofTokens tokens).skip p) := by
  intro p
  obtain ⟨hread, hrun⟩ := complete_ofTokens tokens
  rw [h] at hrun
  obtain ⟨n, hn⟩ : LocalAt Parser.complete (.ofTokens tokens) := local_completeWithin maxNesting _
  obtain rfl : n = p := by
    have hlength := hn.length
    rw [hrun] at hlength
    have hrest : n + (tokens.length - p) = tokens.length := List.length_drop ▸ hlength
    omega
  refine ⟨?_, hn, hrun⟩
  -- the last token is the end, which is never left behind
  by_contra hpast
  rw [List.getLast?_eq_getElem?] at hend
  have hne : tokens ≠ [] := by
    rintro rfl
    exact absurd hend nofun
  have hlt : tokens.length - 1 < p := by
    have := List.length_pos_iff.mpr hne
    omega
  refine hn.no_eof _ hlt ?_
  rw [Cursor.token_skip]
  show (tokens[tokens.length - 1]?.map Located.value).getD .eof = .eof
  rw [hend]
  rfl

/-- Tokens that are the same up to the one behind the place where a session stops look the same. -/
theorem looksLike_of_getElem? {tokens' : List (Located Token)} {p : Nat} (hp : p < tokens.length)
    (hend : tokens.getLast?.map Located.value = some .eof)
    (hsame : ∀ i ≤ p + 1, i < tokens.length → tokens'[i]? = tokens[i]?) :
    (Cursor.ofTokens tokens).LooksLike p (.ofTokens tokens') := by
  intro i hi
  have hlt : i < tokens.length := Nat.lt_of_le_of_lt hi hp
  have hx : tokens[i]? = some tokens[i] := List.getElem?_eq_getElem hlt
  refine Cursor.sight_skip_congr hx ((hsame i (Nat.le_succ_of_le hi) hlt).trans hx) fun hne => ?_
  -- behind a token that is not the end there is another
  have hbehind : i + 1 < tokens.length := by
    by_contra hlast
    have hlast : i = tokens.length - 1 := by omega
    rw [List.getLast?_eq_getElem?, ← hlast, hx] at hend
    exact hne (Option.some.inj hend)
  rw [Cursor.token_skip, Cursor.token_skip]
  show (tokens'[i + 1]?.map Located.value).getD .eof = (tokens[i + 1]?.map Located.value).getD .eof
  rw [hsame (i + 1) (Nat.succ_le_succ hi) hbehind]

/-- The token at which a session stops is the one that is blamed. -/
theorem blamed_of_error (hend : tokens.getLast?.map Located.value = some .eof)
    (h : (ofTokens tokens).answer .complete = .error e) : ∃ x ∈ tokens, x.pos = e.pos := by
  obtain ⟨hlt, hstops, hrun⟩ := stopsBehind_of_error hend h
  refine ⟨_, List.getElem_mem hlt, ?_⟩
  rw [hstops.blames hrun]
  exact (Cursor.pos_skip (List.getElem?_eq_getElem hlt)).symm

/-- Other tokens that are the same up to the one behind the place where a session stops make it fail
    with the same error at the same place. -/
theorem answer_of_same {tokens' : List (Located Token)}
    (hend : tokens.getLast?.map Located.value = some .eof)
    (h : (ofTokens tokens).answer .complete = .error e)
    (hsame : ∀ i ≤ ((ofTokens tokens).after .complete).read + 1, i < tokens.length →
      tokens'[i]? = tokens[i]?) :
    (ofTokens tokens').answer .complete = .error e
      ∧ ((ofTokens tokens').after .complete).read = ((ofTokens tokens).after .complete).read := by
  obtain ⟨hlt, hstops, hrun⟩ := stopsBehind_of_error hend h
  have hother := hstops.depends (looksLike_of_getElem? hlt hend hsame)
  obtain ⟨hread, hrun'⟩ := complete_ofTokens tokens'
  rw [hrun] at hother
  obtain ⟨hanswer, hplace⟩ := @outcome_inj _ (.error e) _ _ (hrun'.symm.trans hother)
  refine ⟨hanswer, ?_⟩
  -- the place is one of the other tokens too
  have hlt' : ((ofTokens tokens).after .complete).read < tokens'.length := by
    have := hsame _ (Nat.le_succ _) hlt
    rw [List.getElem?_eq_getElem hlt] at this
    exact (List.getElem?_eq_some_iff.mp this).1
  have hrest := congrArg (fun c => c.rest.length) hplace
  simp only [Cursor.skip, Cursor.ofTokens, List.length_drop] at hrest
  omega

end Session

/-! ## Errors -/

/-- The tokens of a text end with its end. -/
theorem getLast?_of_tokenize {source : String} {tokens : List (Located Token)}
    (h : tokenize source = .ok tokens) : tokens.getLast?.map Located.value = some .eof := by
  obtain ⟨located, stop, rfl, -⟩ := lexed_of_tokensFrom h
  rw [List.getLast?_concat]
  rfl

/-- The position of an error in a text: that of a token, where the text can be cut into tokens. -/
theorem pos_of_ofSource_error {source : String} {e : ParseError}
    (h : Node.ofSource source = .error e) :
    (∃ i ≤ source.toList.length, e.pos = .ofOffset source.toList i)
      ∧ ∀ tokens, tokenize source = .ok tokens → ∃ x ∈ tokens, x.pos = e.pos := by
  cases hcut : tokenize source with
  | error e' =>
      obtain rfl : e' = e := by
        rw [Node.ofSource, hcut] at h
        exact Except.error.inj h
      exact ⟨@pos_of_tokensFrom_error [] _ 0 _ hcut, nofun⟩
  | ok tokens =>
      have hfails : (Session.ofTokens tokens).answer .complete = .error e := by
        rw [Node.ofSource, hcut] at h
        rw [← Session.onTokens_complete]
        exact h
      obtain ⟨x, hx, hpos⟩ := Session.blamed_of_error (getLast?_of_tokenize hcut) hfails
      obtain ⟨spans, htiles⟩ := @tiles_of_tokensFrom [] [] source.toList tokens .nil hcut
      obtain ⟨i, hi, hoffset⟩ := htiles.pos_eq hx
      refine ⟨⟨i, hi, hpos ▸ hoffset⟩, ?_⟩
      rintro _ ⟨⟩
      exact ⟨x, hx, hpos⟩

/-- Errors are at positions of the text, and depend on nothing beyond.  An error is at the position
    of a character of its text, or of the end, and where the text can be cut into tokens it is at
    that of a token, unless the text is an expression that is no call.  When a session fails on
    tokens of which the last is the end of the text, it fails with the same error on all others that
    are the same up to the one behind the place where it has stopped, and stops at that place. -/
theorem errors_local :
    (∀ source e, Node.ofSource source = .error e ∨ Call.ofSource source = .error e →
      (∃ i ≤ source.toList.length, e.pos = .ofOffset source.toList i)
        ∧ ∀ tokens, tokenize source = .ok tokens → (∃ x ∈ tokens, x.pos = e.pos)
          ∨ (∃ t, Node.ofSource source = .ok t) ∧ e = ⟨.expectedCall, .start⟩)
      ∧ ∀ tokens tokens' e, tokens.getLast?.map Located.value = some .eof →
        (Session.ofTokens tokens).answer .complete = .error e →
        let p := ((Session.ofTokens tokens).after .complete).read
        (∀ i ≤ p + 1, i < tokens.length → tokens'[i]? = tokens[i]?) →
        (Session.ofTokens tokens').answer .complete = .error e
          ∧ ((Session.ofTokens tokens').after .complete).read = p := by
  constructor
  · intro source e h
    -- a text that is no call is refused at its start
    have hcases : Node.ofSource source = .error e
        ∨ (∃ t, Node.ofSource source = .ok t) ∧ e = ⟨.expectedCall, .start⟩ := by
      refine h.elim Or.inl fun hcall => ?_
      unfold Call.ofSource at hcall
      split at hcall
      · exact absurd hcall nofun
      · rename_i ht
        cases hcall
        exact Or.inr ⟨⟨_, ht⟩, rfl⟩
      · rename_i e' he'
        cases hcall
        exact Or.inl he'
    rcases hcases with hnode | ⟨hnode, rfl⟩
    · obtain ⟨hpos, htokens⟩ := pos_of_ofSource_error hnode
      exact ⟨hpos, fun tokens hcut => Or.inl (htokens tokens hcut)⟩
    · exact ⟨⟨0, Nat.zero_le _, rfl⟩, fun _ _ => Or.inr ⟨hnode, rfl⟩⟩
  · intro tokens tokens' e hend hanswer p hsame
    exact Session.answer_of_same hend hanswer hsame

/-- An argument list that is not closed is refused at the name behind the argument, also when it is
    closed behind the next name. -/
theorem errors_local_unclosed :
    let tokens : List (Located Token) := [⟨.ident "f", ⟨1, 1⟩⟩, ⟨.mark .leftParen, ⟨1, 2⟩⟩,
      ⟨.ident "a", ⟨1, 3⟩⟩, ⟨.ident "b", ⟨1, 5⟩⟩, ⟨.ident "c", ⟨1, 7⟩⟩]
    let closed : List (Located Token) := [⟨.mark .rightParen, ⟨1, 8⟩⟩, ⟨.eof, ⟨1, 9⟩⟩]
    Node.ofSource "f(a b c" = .error ⟨.expectedMark .rightParen (.ident "b"), ⟨1, 5⟩⟩
      ∧ tokenize "f(a b c" = .ok (tokens ++ [⟨.eof, ⟨1, 8⟩⟩])
      ∧ (∃ x ∈ tokens ++ [⟨.eof, ⟨1, 8⟩⟩], x.pos = ⟨1, 5⟩)
      ∧ (Session.ofTokens (tokens ++ closed)).answer .complete
        = .error ⟨.expectedMark .rightParen (.ident "b"), ⟨1, 5⟩⟩ := by
  intro tokens closed
  have hcut : tokenize "f(a b c" = .ok (tokens ++ [⟨.eof, ⟨1, 8⟩⟩]) := by decide +kernel
  have hfails : Parser.complete.onTokens (tokens ++ [⟨.eof, ⟨1, 8⟩⟩])
      = .error ⟨.expectedMark .rightParen (.ident "b"), ⟨1, 5⟩⟩ := rfl
  have hnode : Node.ofSource "f(a b c"
      = .error ⟨.expectedMark .rightParen (.ident "b"), ⟨1, 5⟩⟩ := by
    rw [Node.ofSource, hcut]
    exact hfails
  have hstop : ((Session.ofTokens (tokens ++ [⟨.eof, ⟨1, 8⟩⟩])).after .complete).read = 3 := by
    decide +kernel
  obtain ⟨-, htokens⟩ := errors_local.1 _ _ (Or.inl hnode)
  refine ⟨hnode, hcut, (htokens _ hcut).resolve_right ?_, ?_⟩
  · rintro ⟨-, h⟩
    exact absurd h (by decide)
  · rw [Session.onTokens_complete] at hfails
    refine (errors_local.2 _ _ _ rfl hfails ?_).1
    rw [hstop]
    decide

end CallSite
