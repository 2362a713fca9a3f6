import CallSite.Proofs.Lexing.Gluing
import CallSite.Proofs.Lexing.LineEnd

/-!
# Spacing — tokens that are spelled out with gaps between them

A token is spelled in one way, and a gap may be spelled in many: blanks, escaped line ends and
comments in any mixture.  No token takes in the character that opens a gap, whatever the token and
whatever the gap (`Token.runsInto_opensGap`), so a token and the gap behind it are cut off together
(`SpacedToken.tokensFrom_cons`).  Tokens that are spelled one behind the other are therefore read
again, each at the place where its spelling starts (`SpacedToken.tokenize_spaced`).
-/

namespace CallSite

/-! ## Gaps -/

/-- A piece of a gap is cut off and is no token. -/
theorem GapPiece.cut {piece rest : List Char} (h : GapPiece piece rest) :
    ∃ c ds, piece = c :: ds ∧ Lexeme.ofText c (ds ++ rest) = .ok ⟨none, (c :: ds).length⟩ := by
  cases h with
  | @blank c _ hblank =>
      refine ⟨c, [], rfl, ?_⟩
      unfold Lexeme.ofText
      rw [gapSize_blank hblank]
      rfl
  | continuation => exact ⟨'\\', ['\n'], rfl, rfl⟩
  | @comment cs _ hcs hrest =>
      have hrun : (cs ++ rest).takeWhile (· != '\n') = cs :=
        takeWhile_of_stops (fun c hc => bne_iff_ne.mpr fun hfeed => hcs (hfeed ▸ hc)) hrest
      refine ⟨'#', cs, rfl, ?_⟩
      show Except.ok (⟨none, ((cs ++ rest).takeWhile (· != '\n')).length + 1⟩ : Lexeme) = _
      rw [hrun]
      rfl

/-- A gap holds no token and moves the position on. -/
theorem Gap.tokensFrom_eq {gap rest : List Char} (h : Gap gap rest) (pos : Position) :
    tokensFrom 0 pos (gap ++ rest) = tokensFrom 0 (pos.after gap) rest := by
  induction h generalizing pos with
  | nil => rfl
  | cons hpiece _ ih =>
      obtain ⟨c, ds, rfl, hcut⟩ := hpiece.cut
      rw [List.append_assoc, tokensFrom_gap hcut, ih, ← Position.after_append]

/-- What separates tokens whatever they are: blanks, escaped line ends, and comments together with
    the ends of their lines. -/
inductive Spacing : List Char → Prop where
  | nil : Spacing []
  | blank {c : Char} {cs : List Char} (h : isBlank c = true) (hmore : Spacing cs) :
      Spacing (c :: cs)
  | continuation {cs : List Char} (hmore : Spacing cs) : Spacing ('\\' :: '\n' :: cs)
  | comment {text cs : List Char} (htext : '\n' ∉ text) (hmore : Spacing cs) :
      Spacing ('#' :: (text ++ '\n' :: cs))

/-- Spacing is a gap in front of any text. -/
theorem Spacing.gap {cs : List Char} (h : Spacing cs) (rest : List Char) : Gap cs rest := by
  induction h with
  | nil => exact .nil
  | blank hblank _ ih => exact .cons (.blank hblank) ih
  | continuation _ ih => exact .cons .continuation ih
  | @comment text cs htext _ ih =>
      -- the end of the line is a blank of its own
      have hfeed : Gap ('\n' :: cs) rest := .cons (.blank (by decide)) ih
      have hline : LineEnds (('\n' :: cs) ++ rest) := stops_cons.mpr (by decide)
      exact .cons (.comment htext hline) hfeed

/-- A character with which spacing begins. -/
def opensGap (c : Char) : Bool := isBlank c || c == '\\' || c == '#'

theorem Spacing.opens {c : Char} {cs : List Char} (h : Spacing (c :: cs)) : opensGap c = true := by
  cases h with
  | blank hblank => simp [opensGap, hblank]
  | continuation => rfl
  | comment => rfl

/-! ## What opens a gap is no part of a token -/

/-- No character of a word opens a gap. -/
theorem not_continuesWord_of_opensGap {c : Char} (h : opensGap c = true) :
    continuesWord c = false := by
  refine Bool.eq_false_iff.mpr fun hword => ?_
  simp only [opensGap, Bool.or_eq_true, beq_iff_eq] at h
  rcases h with (hblank | rfl) | rfl
  · rw [isBlank_of_continuesWord hword] at hblank
    exact absurd hblank nofun
  · exact absurd hword (by decide)
  · exact absurd hword (by decide)

theorem ne_of_opensGap {c d : Char} (h : opensGap c = true) (hd : opensGap d = false) :
    c ≠ d := by
  rintro rfl
  rw [h] at hd
  exact absurd hd nofun

theorem Mark.not_opensGap {m : Mark} {c : Char} (h : c ∈ m.chars) : opensGap c = false := by
  have hall : ∀ m ∈ all, m.chars.all (fun c => !opensGap c) = true := by decide
  exact (Bool.not_eq_true' _).mp (List.all_eq_true.mp (hall m (mem_all m)) c h)

theorem Mark.runsInto_opensGap {c : Char} (h : opensGap c = true) (m : Mark) :
    m.runsInto c = false := by
  have hlonger (n : Mark) : ¬ (m.chars ++ [c]).isPrefixOf n.chars = true := by
    intro hprefix
    have hmem : c ∈ n.chars := (List.isPrefixOf_iff_prefix.mp hprefix).subset (by simp)
    exact ne_of_opensGap h (not_opensGap hmem) rfl
  have hdigit : c.isDigit = false := by
    refine Bool.eq_false_iff.mpr fun hdigit => absurd (plainDigit_of_isDigit hdigit).continues ?_
    rw [not_continuesWord_of_opensGap h]
    exact nofun
  unfold runsInto
  rw [hdigit, Bool.and_false, Bool.or_false]
  refine Bool.eq_false_iff.mpr fun hany => ?_
  obtain ⟨n, -, hn⟩ := List.any_eq_true.mp hany
  exact hlonger n hn

/-- No token takes in a character that opens a gap. -/
theorem Token.runsInto_opensGap {c : Char} (h : opensGap c = true) (tok : Token) :
    tok.runsInto c = false := by
  have hword := not_continuesWord_of_opensGap h
  have hother {d : Char} (hd : opensGap d = false) : (c == d) = false :=
    beq_eq_false_iff_ne.mpr (ne_of_opensGap h hd)
  have hsingle := hother (d := '\'') (by decide)
  have hdouble := hother (d := '"') (by decide)
  have hplus := hother (d := '+') (by decide)
  have hminus := hother (d := '-') (by decide)
  have hpoint := hother (d := '.') (by decide)
  cases tok with
  | ident | word => simp [runsInto, isQuote, hword, hsingle, hdouble, hplus, hminus]
  | int => simp [runsInto, hword, hpoint]
  | float => exact hword
  | mark m => exact m.runsInto_opensGap h
  | str | bytes | eof => rfl

/-! ## Spaced tokens -/

/-- Whether a text is a name: a letter or an underscore, then letters, digits and underscores, and
    no reserved word. -/
def isIdentifier (name : String) : Bool :=
  match name.toList with
  | [] => false
  | c :: cs => opensWord c && cs.all continuesWord && (ReservedWord.ofChars? (c :: cs)).isNone

/-- Whether a token has a spelling of its own: names are identifiers, integers are in the range of
    literals, and numbers have no sign and are finite. -/
def Token.isSpellable : Token → Bool
  | .ident name => isIdentifier name
  | .int value => 0 ≤ value && value ≤ largestInt
  | .float value => value.isFinite && !value.negative
  | .str _ | .bytes _ | .word _ | .mark _ => true
  | .eof => false

/-- No digit opens a word. -/
theorem not_opensWord_of_isDigit {c : Char} (h : c.isDigit = true) : opensWord c = false :=
  of_toNat_mem (toNat_mem_of_isDigit h) (by decide)

/-- An identifier is read as a name. -/
theorem legible_of_isIdentifier {name : String} (h : isIdentifier name = true) :
    (Token.ident name).Legible := by
  unfold isIdentifier at h
  split at h
  · exact absurd h nofun
  · rename_i c cs hname
    simp only [Bool.and_eq_true, List.all_eq_true, Option.isNone_iff_eq_none] at h
    obtain ⟨⟨hopens, hmore⟩, hreserved⟩ := h
    have hblank := isBlank_of_continuesWord (continuesWord_of_opensWord hopens)
    have hdigit : c.isDigit = false := by
      refine Bool.eq_false_iff.mpr fun hdigit => absurd hopens ?_
      rw [not_opensWord_of_isDigit hdigit]
      exact nofun
    exact ⟨c, cs, hname, ⟨hopens, hblank, hdigit⟩, hmore, hreserved⟩

theorem Token.legible_of_isSpellable {tok : Token} (h : tok.isSpellable = true) :
    tok.Legible := by
  cases tok with
  | ident name => exact legible_of_isIdentifier h
  | int value => simpa [isSpellable, Legible] using h
  | float value => simpa [isSpellable, Legible, and_comm] using h
  | str | bytes | word | mark => trivial
  | eof => exact absurd h (by decide)

/-- A token with the gap behind it. -/
structure SpacedToken where
  token : Token
  gap : List Char
  spellable : token.isSpellable = true
  separates : Spacing gap
  filled : gap ≠ []

namespace SpacedToken

/-- The characters of the token and of the gap. -/
def chars (x : SpacedToken) : List Char := x.token.chars ++ x.gap

/-- The tokens, each at the place where its spelling starts when the first of them starts at this
    offset of the text, and the end of the text. -/
def placed (text : List Char) : Nat → List SpacedToken → List (Located Token)
  | offset, [] => [⟨.eof, .ofOffset text offset⟩]
  | offset, x :: more =>
    ⟨x.token, .ofOffset text offset⟩ :: placed text (offset + x.chars.length) more

/-- A token and the gap behind it are cut off. -/
theorem tokensFrom_cons (x : SpacedToken) (rest : List Char) (pos : Position) :
    tokensFrom 0 pos (x.chars ++ rest)
      = (tokensFrom 0 (pos.after x.chars) rest).map (⟨x.token, pos⟩ :: ·) := by
  obtain ⟨tok, gap, hspellable, hseparates, hfilled⟩ := x
  obtain ⟨d, ds, rfl⟩ := List.exists_cons_of_ne_nil hfilled
  -- the gap is not empty, so the token ends in front of a character that opens a gap
  have hstops : Stops tok.runsInto ((d :: ds) ++ rest) :=
    stops_cons.mpr (tok.runsInto_opensGap hseparates.opens)
  obtain ⟨c, cs, hchars, hcut⟩ := (Token.legible_of_isSpellable hspellable).ofText hstops
  unfold chars
  rw [hchars] at hcut ⊢
  rw [List.append_assoc, tokensFrom_cut hcut, (hseparates.gap rest).tokensFrom_eq,
    ← Position.after_append]

/-- Behind what is read already, tokens that are spelled out are read as themselves. -/
theorem tokensFrom_spaced (before : List Char) (spaced : List SpacedToken) :
    tokensFrom 0 (Position.start.after before) (spaced.flatMap chars)
      = .ok (placed (before ++ spaced.flatMap chars) before.length spaced) := by
  -- what is read of the text grows by a token and its gap in each step
  induction spaced generalizing before with
  | nil =>
      rw [placed, Position.ofOffset_append]
      rfl
  | cons x more ih =>
      have ih := ih (before ++ x.chars)
      rw [List.append_assoc, List.length_append, Position.after_append] at ih
      rw [List.flatMap_cons, tokensFrom_cons, ih, placed, Position.ofOffset_append]
      rfl

/-- Tokens that are spelled out with gaps behind them, and perhaps a gap in front, are read again,
    each at the place where its spelling starts. -/
theorem tokenize_spaced {front : List Char} (hfront : Spacing front) (spaced : List SpacedToken) :
    tokenize (String.ofList (front ++ spaced.flatMap chars))
      = .ok (placed (front ++ spaced.flatMap chars) front.length spaced) := by
  rw [tokenize, String.toList_ofList, (hfront.gap _).tokensFrom_eq, tokensFrom_spaced]

/-- A letter that could announce bytes, with a quote in the comment behind it, an escaped line end
    behind a literal, and a point in front of digits. -/
theorem tokenize_spaced_neighbours :
    Spacing [' ', '#', '\'', '\n']
      ∧ tokenize " #'\nb#'\n'it\\'s'\\\n. 5 2.5\r...\t"
        = .ok [⟨.ident "b", ⟨2, 1⟩⟩, ⟨.str "it's", ⟨3, 1⟩⟩, ⟨.mark .dot, ⟨4, 1⟩⟩, ⟨.int 5, ⟨4, 3⟩⟩,
          ⟨.float (.ofDecimal false ⟨25, -1⟩), ⟨4, 5⟩⟩, ⟨.mark .ellipsis, ⟨4, 9⟩⟩,
          ⟨.eof, ⟨4, 13⟩⟩] := by
  have hfront : Spacing [' ', '#', '\'', '\n'] :=
    .blank (by decide) (@Spacing.comment ['\''] [] (by decide) .nil)
  refine ⟨hfront, ((congrArg tokenize ?_).trans (tokenize_spaced hfront
    [⟨.ident "b", _, by decide, @Spacing.comment ['\''] [] (by decide) .nil, nofun⟩,
      ⟨.str "it's", _, by decide, .continuation .nil, nofun⟩,
      ⟨.mark .dot, [' '], by decide, .blank (by decide) .nil, nofun⟩,
      ⟨.int 5, [' '], by decide, .blank (by decide) .nil, nofun⟩,
      ⟨.float (.ofDecimal false ⟨25, -1⟩), ['\r'], by decide +kernel,
        .blank (by decide) .nil, nofun⟩,
      ⟨.mark .ellipsis, ['\t'], by decide, .blank (by decide) .nil, nofun⟩])).trans
    (congrArg Except.ok ?_)⟩
  · decide +kernel
  · decide +kernel

end SpacedToken

end CallSite
