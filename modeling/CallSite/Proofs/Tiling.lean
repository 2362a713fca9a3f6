import CallSite.Proofs.Lexing.Slice

/-!
# Tiling — the tokens of a text and the gaps between them

A text that is cut into tokens is made up of the spans of its tokens and of gaps between them.
Nothing is lost, a token stands where its position says, and the characters of its span are that
token on their own (`tokenize_tiles`).  The cut is followed from the start of the text to its end:
what has been read is a part that is tiled already and a gap that may still grow.
-/

namespace CallSite

/-! ## Positions -/

namespace Position

/-- The position of the character at an offset.  Its line is one more than the line feeds in front
    of it, its column one more than the characters behind the last of them. -/
def ofOffset (cs : List Char) (offset : Nat) : Position :=
  ⟨1 + (cs.take offset).count '\n', 1 + ((cs.take offset).reverse.takeWhile (· != '\n')).length⟩

/-- Reading characters one by one leads to the line and the column that they add up to. -/
theorem start_after (cs : List Char) :
    start.after cs = ⟨1 + cs.count '\n', 1 + (cs.reverse.takeWhile (· != '\n')).length⟩ := by
  induction cs using List.reverseRecOn with
  | nil => rfl
  | append_singleton cs c ih =>
      rw [after_append, ih, after_cons, after_nil, next, List.count_append, List.reverse_append]
      split
      · rename_i hfeed
        subst hfeed
        rfl
      · rename_i hfeed
        have hcount : [c].count '\n' = 0 :=
          List.count_singleton.trans (if_neg (by simpa using hfeed))
        have hrun : ([c].reverse ++ cs.reverse).takeWhile (· != '\n')
            = c :: cs.reverse.takeWhile (· != '\n') :=
          List.takeWhile_cons_of_pos (by simpa using hfeed)
        rw [hcount, hrun, List.length_cons]
        rfl

/-- The position behind some characters is that of the offset behind them. -/
theorem ofOffset_append (cs ds : List Char) : ofOffset (cs ++ ds) cs.length = start.after cs := by
  rw [ofOffset, List.take_left, start_after]

end Position

/-! ## Gaps -/

/-- A piece of a gap and the text behind it: a blank, an escaped line feed, or a comment up to the
    end of its line or of the text. -/
inductive GapPiece : List Char → List Char → Prop where
  | blank {c : Char} {rest : List Char} (h : isBlank c = true) : GapPiece [c] rest
  | continuation {rest : List Char} : GapPiece ['\\', '\n'] rest
  | comment {cs rest : List Char} (hcs : '\n' ∉ cs) (hrest : LineEnds rest) :
      GapPiece ('#' :: cs) rest

/-- What may stand between tokens, and the text behind it. -/
inductive Gap : List Char → List Char → Prop where
  | nil {rest : List Char} : Gap [] rest
  | cons {piece gap rest : List Char} (hpiece : GapPiece piece (gap ++ rest))
      (hgap : Gap gap rest) : Gap (piece ++ gap) rest

/-- A gap may go on with another piece. -/
theorem Gap.snoc {gap piece rest : List Char} (hgap : Gap gap (piece ++ rest))
    (hpiece : GapPiece piece rest) : Gap (gap ++ piece) rest := by
  generalize hbehind : piece ++ rest = behind at hgap
  induction hgap with
  | nil =>
      rw [List.nil_append, ← List.append_nil piece]
      exact .cons hpiece .nil
  | cons hfirst _ ih =>
      subst hbehind
      rw [List.append_assoc]
      refine .cons ?_ (ih rfl)
      rwa [List.append_assoc]

/-- A comment goes on to the end of its line. -/
theorem gapPiece_comment (cs : List Char) :
    GapPiece ('#' :: cs.takeWhile (· != '\n')) (cs.dropWhile (· != '\n')) := by
  constructor
  · intro hfeed
    have := List.all_eq_true.mp List.all_takeWhile _ hfeed
    exact absurd this (by decide)
  · intro d hd
    have := List.head?_dropWhile_not (· != '\n') cs
    rw [hd] at this
    simpa using this

/-- Where a gap begins, a piece of it is measured. -/
theorem gapPiece_of_gapSize {c : Char} {cs : List Char} {size : Nat}
    (h : gapSize (c :: cs) = size + 1) :
    ∃ ds rest, cs = ds ++ rest ∧ (c :: ds).length = size + 1 ∧ GapPiece (c :: ds) rest := by
  unfold gapSize at h
  split at h
  · rename_i rest htext
    obtain ⟨rfl, rfl⟩ := List.cons.inj htext
    exact ⟨['\n'], rest, rfl, h, .continuation⟩
  · rename_i rest _ htext
    obtain ⟨rfl, rfl⟩ := List.cons.inj htext
    exact ⟨_, _, List.takeWhile_append_dropWhile.symm, h, gapPiece_comment cs⟩
  · rename_i d ds _ _ htext
    obtain ⟨rfl, rfl⟩ := List.cons.inj htext
    split at h
    · rename_i hblank
      exact ⟨[], cs, rfl, h, .blank hblank⟩
    · exact absurd h nofun
  · exact absurd h nofun

/-- What is cut off where no gap begins is a token. -/
theorem Lexeme.isSome_of_tokenAt {c : Char} {cs : List Char} {lexeme : Lexeme}
    (h : tokenAt c cs = .ok lexeme) : lexeme.token?.isSome = true := by
  unfold tokenAt at h
  split at h
  · unfold quoted at h
    split at h
    · exact absurd h nofun
    split at h
    · exact absurd h nofun
    · exact absurd h nofun
    · cases h
      rfl
  split at h
  · split at h
    · exact absurd h nofun
    · cases h
      rfl
  split at h
  · cases h
    rfl
  split at h
  · cases h
    rfl
  · exact absurd h nofun

/-- What is cut off and is no token is a piece of a gap. -/
theorem gapPiece_of_ofText {c : Char} {cs : List Char} {size : Nat}
    (h : Lexeme.ofText c cs = .ok ⟨none, size⟩) :
    ∃ ds rest, cs = ds ++ rest ∧ (c :: ds).length = size ∧ GapPiece (c :: ds) rest := by
  unfold Lexeme.ofText at h
  split at h
  · exact absurd (Lexeme.isSome_of_tokenAt h) nofun
  · rename_i hgap
    cases h
    exact gapPiece_of_gapSize hgap

/-! ## Spans -/

/-- A stretch of a text, from one offset up to another. -/
structure Span where
  start : Nat
  stop : Nat
  deriving DecidableEq, Repr

/-- Characters that are a token on their own, with nothing behind it. -/
def Token.IsCutFrom (tok : Token) (cs : List Char) : Prop :=
  tokenize (String.ofList cs) = .ok [⟨tok, .start⟩, ⟨.eof, .ofOffset cs cs.length⟩]

/-- From an offset on, a text is made up of the spans of its tokens and of the gaps between them. -/
inductive Tiles (cs : List Char) : Nat → List Span → List (Located Token) → Prop where
  /-- The end of the text spans nothing. -/
  | stop {offset : Nat} (hoffset : offset ≤ cs.length) (hgap : Gap (cs.drop offset) [])
      (halone : tokenize "" = .ok [⟨.eof, .start⟩]) :
      Tiles cs offset [⟨cs.length, cs.length⟩] [⟨.eof, .ofOffset cs cs.length⟩]
  | token {offset : Nat} {span : Span} {spans : List Span} {tok : Token}
      {tokens : List (Located Token)}
      (hoffset : offset ≤ span.start) (hspan : span.start < span.stop)
      (hstop : span.stop ≤ cs.length)
      (hgap : Gap (cs.extract offset span.start) (cs.drop span.start)) (htok : tok ≠ .eof)
      (halone : tok.IsCutFrom (cs.extract span.start span.stop))
      (hmore : Tiles cs span.stop spans tokens) :
      Tiles cs offset (span :: spans) (⟨tok, .ofOffset cs span.start⟩ :: tokens)

/-- A token that takes up a whole text is cut off it. -/
theorem Token.isCutFrom_of_ofText {c : Char} {ds : List Char} {tok : Token}
    (h : Lexeme.ofText c ds = .ok ⟨some tok, (c :: ds).length⟩) : tok.IsCutFrom (c :: ds) := by
  have hpos : Position.ofOffset (c :: ds) (c :: ds).length = Position.start.after (c :: ds) := by
    have := Position.ofOffset_append (c :: ds) []
    rwa [List.append_nil] at this
  have hcut := @tokensFrom_cut c ds [] tok (by rwa [List.append_nil]) .start
  rw [List.append_nil] at hcut
  rw [IsCutFrom, tokenize, String.toList_ofList, hcut, hpos]
  rfl

/-- The characters between two offsets. -/
theorem extract_append (before between behind : List Char) :
    (before ++ between ++ behind).extract before.length (before ++ between).length = between := by
  rw [List.extract_eq_take_drop, List.append_assoc, List.drop_left, List.length_append,
    Nat.add_sub_cancel_left, List.take_left]

/-- A token and the gap in front of it go in front of what is tiled. -/
theorem Tiles.cons {before gap piece rest : List Char} {tok : Token} {spans : List Span}
    {tokens : List (Located Token)} (hgap : Gap gap (piece ++ rest)) (hpiece : piece ≠ [])
    (htok : tok ≠ .eof) (halone : tok.IsCutFrom piece)
    (hmore : Tiles (before ++ gap ++ piece ++ rest) (before ++ gap ++ piece).length spans tokens) :
    Tiles (before ++ gap ++ piece ++ rest) before.length
      (⟨(before ++ gap).length, (before ++ gap ++ piece).length⟩ :: spans)
      (⟨tok, Position.start.after (before ++ gap)⟩ :: tokens) := by
  have hpos := Position.ofOffset_append (before ++ gap) (piece ++ rest)
  rw [← List.append_assoc] at hpos
  have hfilled : 0 < piece.length := List.length_pos_iff.mpr hpiece
  rw [← hpos]
  refine .token ?_ ?_ ?_ ?_ htok ?_ hmore
  · simp only [List.length_append]
    omega
  · simp only [List.length_append]
    omega
  · simp only [List.length_append]
    omega
  · rwa [List.append_assoc _ piece, extract_append, List.drop_left]
  · rwa [extract_append]

/-- What is skipped in front of a rest of the text moves the position on. -/
theorem tokensFrom_gap {c : Char} {ds rest : List Char}
    (h : Lexeme.ofText c (ds ++ rest) = .ok ⟨none, (c :: ds).length⟩) (pos : Position) :
    tokensFrom 0 pos (c :: ds ++ rest) = tokensFrom 0 (pos.after (c :: ds)) rest := by
  rw [List.cons_append, tokensFrom, h]
  exact tokensFrom_skip ds rest (pos.next c)

/-- Behind what is tiled already and a gap that may go on, the rest of a text is tiled by what it is
    cut into. -/
theorem tiles_of_tokensFrom {before gap rest : List Char} {tokens : List (Located Token)}
    (hgap : Gap gap rest)
    (h : tokensFrom 0 (Position.start.after (before ++ gap)) rest = .ok tokens) :
    ∃ spans, Tiles (before ++ gap ++ rest) before.length spans tokens := by
  -- by the length of the rest, since a lexeme is cut off at once
  induction hlength : rest.length using Nat.strongRecOn generalizing before gap rest tokens with
  | ind n ih =>
      subst hlength
      cases rest with
      | nil =>
          cases h
          rw [← Position.ofOffset_append _ [], List.append_nil]
          refine ⟨_, .stop ?_ ?_ (by decide +kernel)⟩
          · rw [List.length_append]
            exact Nat.le_add_right ..
          · rwa [List.drop_left]
      | cons c cs =>
          cases hcut : Lexeme.ofText c cs with
          | error refusal =>
              rw [tokensFrom, hcut] at h
              cases h
          | ok lexeme =>
              obtain ⟨_ | tok, size⟩ := lexeme
              · -- the gap goes on
                obtain ⟨ds, rest, rfl, rfl, hpiece⟩ := gapPiece_of_ofText hcut
                rw [← List.cons_append, tokensFrom_gap hcut, ← Position.after_append,
                  List.append_assoc] at h
                have hshorter : rest.length < (c :: (ds ++ rest)).length := by
                  rw [List.length_cons, List.length_append]
                  omega
                have := ih rest.length hshorter (hgap.snoc hpiece) h rfl
                rwa [← List.append_assoc, List.append_assoc _ (c :: ds)] at this
              · -- the gap ends where a token begins
                obtain ⟨ds, rest, rfl, rfl, hslice⟩ := Lexeme.ofText_slice hcut
                have halone := hslice [] lineEnds_nil
                rw [List.append_nil] at halone
                rw [← List.cons_append, tokensFrom_cut hcut, ← Position.after_append] at h
                obtain ⟨more, hmore, rfl⟩ := map_eq_ok.mp h
                rw [← List.append_nil (before ++ gap ++ (c :: ds))] at hmore
                have hshorter : rest.length < (c :: (ds ++ rest)).length := by
                  rw [List.length_cons, List.length_append]
                  omega
                obtain ⟨spans, htiles⟩ := ih rest.length hshorter .nil hmore rfl
                rw [List.append_nil] at htiles
                rw [← List.cons_append, ← List.append_assoc]
                exact ⟨_, .cons hgap (List.cons_ne_nil c ds) (lexed_of_ofText hcut).ne_eof
                  (Token.isCutFrom_of_ofText halone) htiles⟩

/-- A text that is cut into tokens is tiled by their spans. -/
theorem tokenize_tiles {source : String} {tokens : List (Located Token)}
    (h : tokenize source = .ok tokens) : ∃ spans, Tiles source.toList 0 spans tokens :=
  @tiles_of_tokensFrom [] [] source.toList tokens .nil h

/-- An escaped line feed, a comment and a blank stand in front of the literal, which is in the third
    line. -/
theorem tokenize_tiles_raw :
    tokenize "f(\\\n # é\n r'é', 15)"
        = .ok [⟨.ident "f", ⟨1, 1⟩⟩, ⟨.mark .leftParen, ⟨1, 2⟩⟩, ⟨.str "é", ⟨3, 2⟩⟩,
          ⟨.mark .comma, ⟨3, 6⟩⟩, ⟨.int 15, ⟨3, 8⟩⟩, ⟨.mark .rightParen, ⟨3, 10⟩⟩, ⟨.eof, ⟨3, 11⟩⟩]
      ∧ ∃ spans, Tiles "f(\\\n # é\n r'é', 15)".toList 0 spans
          [⟨.ident "f", ⟨1, 1⟩⟩, ⟨.mark .leftParen, ⟨1, 2⟩⟩, ⟨.str "é", ⟨3, 2⟩⟩,
            ⟨.mark .comma, ⟨3, 6⟩⟩, ⟨.int 15, ⟨3, 8⟩⟩, ⟨.mark .rightParen, ⟨3, 10⟩⟩,
            ⟨.eof, ⟨3, 11⟩⟩] :=
  have hcut := by decide +kernel
  ⟨hcut, tokenize_tiles hcut⟩

end CallSite
