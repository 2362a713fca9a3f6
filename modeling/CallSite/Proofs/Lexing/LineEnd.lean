import CallSite.Proofs.Tiling

/-!
# Line ends — what a line end adds to a text

A text that is read as a lexeme at its head is read as the same lexeme when a line end, with
anything behind it, is put behind the text (`Lexeme.ofText_lineEnds`).  Every reader brings its own
reason.  A run of digits or letters holds no line feed, the parts of a number are found by runs and
by one or two characters, a literal that is complete stops at its quote, and a comment stops at the
line feed.  The hypothesis that the lexeme *is* read is needed: a backslash at the end of the text
is refused, and is an escaped line feed when the line end follows.
-/

namespace CallSite

variable {rest : List Char}

/-! ## Runs and parts of numbers -/

/-- A run of characters that are no line feeds ends where the line does. -/
theorem takeWhile_lineEnds {p : Char → Bool} (hp : p '\n' = false) (hrest : LineEnds rest)
    (cs : List Char) : (cs ++ rest).takeWhile p = cs.takeWhile p := by
  induction cs with
  | nil => exact @takeWhile_of_stops p [] rest nofun (hrest.stops hp)
  | cons c cs ih =>
      show (c :: (cs ++ rest)).takeWhile p = _
      rw [List.takeWhile_cons, List.takeWhile_cons, ih]

theorem digitRun_lineEnds (hrest : LineEnds rest) (cs : List Char) :
    digitRun (cs ++ rest) = digitRun cs := takeWhile_lineEnds (by decide) hrest cs

theorem basedRun_lineEnds (hrest : LineEnds rest) (cs : List Char) :
    basedRun (cs ++ rest) = basedRun cs := takeWhile_lineEnds (by decide) hrest cs

theorem signPart_lineEnds (hrest : LineEnds rest) (cs : List Char) :
    signPart (cs ++ rest) = signPart cs := by
  fun_cases signPart cs with
  | case1 => rfl
  | case2 => rfl
  | case3 _ hplus hminus =>
      refine signPart_of_stops (Stops.append ?_ (hrest.stops (by decide)))
      intro c hc
      obtain ⟨ds, rfl⟩ := List.head?_eq_some_iff.mp hc
      simp only [Bool.or_eq_false_iff, beq_eq_false_iff_ne]
      constructor
      · rintro rfl
        exact hplus ds rfl
      · rintro rfl
        exact hminus ds rfl

/-- Points in front of a line end do not become three. -/
theorem fractionPart_lineEnds (hrest : LineEnds rest) (cs : List Char) :
    fractionPart (cs ++ rest) = fractionPart cs := by
  have hpoint : Stops (· == '.') rest := hrest.stops (by decide)
  fun_cases fractionPart cs with
  | case1 => rfl
  | case2 cs hellipsis =>
      rw [List.cons_append, fractionPart.eq_2, digitRun_lineEnds hrest]
      intro more hmore
      rcases cs with _ | ⟨c, _ | ⟨d, ds⟩⟩
      · obtain rfl : rest = '.' :: '.' :: more := hmore
        exact absurd (stops_cons.mp hpoint) (by decide)
      · obtain rfl : rest = '.' :: more := (List.cons.inj hmore).2
        exact absurd (stops_cons.mp hpoint) (by decide)
      · cases hmore
        exact hellipsis ds rfl
  | case3 _ _ hnone =>
      refine fractionPart_of_stops (Stops.append ?_ hpoint)
      intro c hc
      obtain ⟨ds, rfl⟩ := List.head?_eq_some_iff.mp hc
      rw [beq_eq_false_iff_ne]
      rintro rfl
      exact hnone ds rfl

/-- No part is longer than the text it is taken off. -/
theorem length_signPart_le (cs : List Char) : (signPart cs).length ≤ cs.length := by
  obtain ⟨behind, hsplit, -⟩ := signPart_slice cs
  exact List.IsPrefix.length_le ⟨behind, hsplit.symm⟩

theorem length_fractionPart_le (cs : List Char) : (fractionPart cs).length ≤ cs.length := by
  obtain ⟨behind, hsplit, -⟩ := fractionPart_slice cs
  exact List.IsPrefix.length_le ⟨behind, hsplit.symm⟩

theorem exponentPart_lineEnds (hrest : LineEnds rest) (cs : List Char) :
    exponentPart (cs ++ rest) = exponentPart cs := by
  cases cs with
  | nil => exact exponentPart_of_stops (hrest.stops (by decide))
  | cons c cs =>
      simp only [List.cons_append, exponentPart, signPart_lineEnds hrest,
        List.drop_append_of_le_length (length_signPart_le cs), digitRun_lineEnds hrest]

/-- All parts of a numeral lie in front of the line end. -/
theorem Numeral.ofText_lineEnds (hrest : LineEnds rest) (cs : List Char) :
    ofText (cs ++ rest) = ofText cs := by
  have hwhole : (digitRun cs).length ≤ cs.length := (List.takeWhile_prefix _).length_le
  have hfraction : (digitRun cs).length
      + (fractionPart (cs.drop (digitRun cs).length)).length ≤ cs.length := by
    have := length_fractionPart_le (cs.drop (digitRun cs).length)
    rw [List.length_drop] at this
    omega
  simp only [ofText, digitRun_lineEnds hrest, List.drop_append_of_le_length hwhole,
    fractionPart_lineEnds hrest, List.drop_append_of_le_length hfraction,
    exponentPart_lineEnds hrest]

/-- No base is announced by a line feed. -/
theorem numberAt_lineEnds (hrest : LineEnds rest) (cs : List Char) :
    numberAt (cs ++ rest) = numberAt cs := by
  by_cases hbased : ∃ letter more base, cs = '0' :: letter :: more ∧ baseOf? letter = some base
  · obtain ⟨letter, more, base, rfl, hbase⟩ := hbased
    rw [List.cons_append, List.cons_append, numberAt_based hbase, numberAt_based hbase,
      basedRun_lineEnds hrest]
  · have hnone : ∀ letter more, cs = '0' :: letter :: more → baseOf? letter = none := by
      intro letter more hcs
      refine Option.eq_none_iff_forall_ne_some.mpr fun base hbase => ?_
      exact hbased ⟨letter, more, base, hcs, hbase⟩
    rw [numberAt_unbased hnone, numberAt_unbased, Numeral.ofText_lineEnds hrest]
    intro letter more hmore
    rcases cs with _ | ⟨c, _ | ⟨d, ds⟩⟩
    · obtain rfl : rest = '0' :: letter :: more := hmore
      exact absurd (stops_cons.mp hrest) (by decide)
    · obtain rfl : rest = letter :: more := (List.cons.inj hmore).2
      obtain rfl : letter = '\n' := by simpa using stops_cons.mp hrest
      rfl
    · cases hmore
      exact hnone _ _ rfl

/-! ## Openings -/

/-- No digit stands at a line end. -/
theorem opensNumber_lineEnds (hrest : LineEnds rest) (c : Char) (cs : List Char) :
    opensNumber (c :: (cs ++ rest)) = opensNumber (c :: cs) := by
  rw [Bool.eq_iff_iff]
  constructor
  · intro h
    obtain ⟨d, ds, hd, heq | heq⟩ := opensNumber_iff.mp h
    · obtain ⟨rfl, -⟩ := List.cons.inj heq
      exact opensNumber_iff.mpr ⟨c, cs, hd, Or.inl rfl⟩
    · obtain ⟨rfl, hbehind⟩ := List.cons.inj heq
      cases cs with
      | nil =>
          obtain rfl : rest = d :: ds := hbehind
          rw [stops_cons.mp (hrest.stops (p := Char.isDigit) (by decide))] at hd
          exact absurd hd nofun
      | cons e es =>
          obtain ⟨rfl, -⟩ := List.cons.inj hbehind
          exact opensNumber_iff.mpr ⟨e, es, hd, Or.inr rfl⟩
  · intro h
    exact opensNumber_append h rest

/-- A literal opens in front of the line end or not at all. -/
theorem LiteralOpening.ofText?_lineEnds (hrest : LineEnds rest) (cs : List Char) :
    ofText? (cs ++ rest) = ofText? cs := by
  refine Option.ext fun opening => ?_
  rw [ofText?_eq_some_iff, ofText?_eq_some_iff]
  constructor
  · rintro ⟨letters, behind, hsplit, hletters, hquote, hkind⟩
    have hstop : rest ≠ opening.quote :: behind := by
      rintro rfl
      rw [stops_cons.mp (hrest.stops (p := isQuote) (by decide))] at hquote
      exact absurd hquote nofun
    rcases List.append_eq_append_iff.mp hsplit with ⟨more, hmore, hbehind⟩ | ⟨more, rfl, hbehind⟩
    · -- the line would end among the letters
      cases more with
      | nil => exact absurd hbehind hstop
      | cons c more =>
          obtain rfl : c = '\n' := by
            rw [hbehind] at hrest
            simpa using stops_cons.mp hrest
          have hmem : '\n' ∈ letters := hmore ▸ List.mem_append_right _ List.mem_cons_self
          have := mem_literalLetters (ofLetters?_eq_some hkind _ (List.mem_map_of_mem hmem))
          exact absurd this (by decide)
    · cases more with
      | nil => exact absurd hbehind.symm hstop
      | cons c more =>
          obtain ⟨rfl, rfl⟩ := List.cons.inj hbehind
          exact ⟨letters, more, rfl, hletters, hquote, hkind⟩
  · rintro ⟨letters, behind, rfl, hletters, hquote, hkind⟩
    exact ⟨letters, behind ++ rest, by simp, hletters, hquote, hkind⟩

/-- A mark lies in front of the line end. -/
theorem Mark.ofText?_lineEnds (hrest : LineEnds rest) (cs : List Char) :
    ofText? (cs ++ rest) = ofText? cs := by
  have hfeed (m : Mark) : '\n' ∉ m.chars := by cases m <;> decide
  refine congrArg all.find? (funext fun m => ?_)
  rw [Bool.eq_iff_iff, List.isPrefixOf_iff_prefix, List.isPrefixOf_iff_prefix]
  constructor
  · intro h
    rcases List.prefix_or_prefix_of_prefix h (List.prefix_append cs rest) with hpre | ⟨more, hmore⟩
    · exact hpre
    · rw [← hmore, List.prefix_append_right_inj] at h
      cases more with
      | nil => exact ⟨[], by rw [← hmore, List.append_nil, List.append_nil]⟩
      | cons c more =>
          obtain ⟨behind, rfl⟩ := h
          obtain rfl : c = '\n' := by simpa using stops_cons.mp hrest
          exact absurd (hmore ▸ List.mem_append_right _ List.mem_cons_self) (hfeed m)
  · intro h
    exact h.trans (List.prefix_append cs rest)

/-! ## Lexemes -/

/-- A gap begins with a blank, an escaped line feed or a hash. -/
theorem gapSize_blank {c : Char} (h : isBlank c = true) (cs : List Char) :
    gapSize (c :: cs) = 1 := by
  have hslash : c ≠ '\\' := by
    rintro rfl
    exact absurd h (by decide)
  have hhash : c ≠ '#' := by
    rintro rfl
    exact absurd h (by decide)
  rw [gapSize.eq_3 _ _ (fun _ hc _ => hslash hc) hhash, if_pos h]

/-- The gap at the head of a text stays as long as it is. -/
theorem gapSize_lineEnds {c : Char} {cs : List Char} {size : Nat} (hrest : LineEnds rest)
    (h : gapSize (c :: cs) = size + 1) : gapSize (c :: (cs ++ rest)) = size + 1 := by
  obtain ⟨ds, behind, rfl, hlength, hpiece⟩ := gapPiece_of_gapSize h
  cases hpiece with
  | blank hblank =>
      rw [gapSize_blank hblank]
      exact hlength
  | continuation => exact hlength
  | comment hcs hbehind =>
      rw [← h]
      show ((ds ++ behind ++ rest).takeWhile _).length + 1 = ((ds ++ behind).takeWhile _).length + 1
      rw [takeWhile_lineEnds (by decide) hrest]

/-- A token at the head of a text stays what it is. -/
theorem Lexeme.tokenAt_lineEnds {c : Char} {cs : List Char} {lexeme : Lexeme}
    (hrest : LineEnds rest) (h : tokenAt c cs = .ok lexeme) :
    tokenAt c (cs ++ rest) = .ok lexeme := by
  cases hopening : LiteralOpening.ofText? (c :: cs) with
  | some opening =>
      obtain ⟨tok, htok⟩ := Option.isSome_iff_exists.mp (isSome_of_tokenAt h)
      obtain ⟨_, size⟩ := lexeme
      subst htok
      have hquoted : quoted opening (c :: cs) = .ok ⟨some tok, size⟩ := by
        unfold tokenAt at h
        rwa [hopening] at h
      obtain ⟨ds, behind, rfl, -, hread⟩ := tokenAt_literal hopening hquoted
      rw [List.append_assoc]
      exact hread _
  | none =>
      have hopening' := LiteralOpening.ofText?_lineEnds hrest (c :: cs)
      have hnumber := numberAt_lineEnds hrest (c :: cs)
      have hmark := Mark.ofText?_lineEnds hrest (c :: cs)
      have hword : (cs ++ rest).takeWhile continuesWord = cs.takeWhile continuesWord :=
        takeWhile_lineEnds (by decide) hrest cs
      rw [hopening, List.cons_append] at hopening'
      rw [List.cons_append] at hnumber hmark
      unfold tokenAt at h ⊢
      rw [hopening] at h
      rw [hopening', opensNumber_lineEnds hrest, hnumber, hmark, hword]
      exact h

/-- A lexeme at the head of a text stays what it is when a line end is put behind the text. -/
theorem Lexeme.ofText_lineEnds {c : Char} {cs : List Char} {lexeme : Lexeme}
    (hrest : LineEnds rest) (h : ofText c cs = .ok lexeme) :
    ofText c (cs ++ rest) = .ok lexeme := by
  cases hgap : gapSize (c :: cs) with
  | zero =>
      have htoken : tokenAt c cs = .ok lexeme := by
        unfold ofText at h
        rwa [hgap] at h
      -- a backslash in front of the line end would become a gap, but it is no token
      have hslash : c ≠ '\\' := by
        rintro rfl
        rw [tokenAt_backslash] at htoken
        exact absurd htoken nofun
      have hhash : c ≠ '#' := by
        rintro rfl
        exact absurd hgap nofun
      unfold ofText
      rw [gapSize_eq_zero (isBlank_of_gapSize hgap) hslash hhash]
      exact tokenAt_lineEnds hrest htoken
  | succ size =>
      have hgap' := gapSize_lineEnds hrest hgap
      unfold ofText at h ⊢
      rw [hgap] at h
      rw [hgap']
      exact h

end CallSite
