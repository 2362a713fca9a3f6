import CallSite.Proofs.Lexing.Stream

/-!
# Slices — tokens that are cut off again from their own characters

How long a token is hangs on what follows it, but where a line ends behind it nothing is added to it
(`LineEnds`).  So the characters that are cut off as a token are cut off as the same token when
nothing else is there, or when the next line begins behind them (`Lexeme.ofText_slice`).  Each kind
of token brings its own reason: a literal ends at its quote whatever follows, a number is put
together from runs that no line end continues, words and marks are not continued by one either.
-/

namespace CallSite

/-! ## Ends of lines -/

/-- The text ends, or a line of it does. -/
def LineEnds (rest : List Char) : Prop := Stops (· != '\n') rest

theorem lineEnds_nil : LineEnds [] := nofun

theorem LineEnds.stops {p : Char → Bool} {rest : List Char} (h : LineEnds rest)
    (hp : p '\n' = false) : Stops p rest := by
  intro c hc
  obtain rfl : c = '\n' := by simpa using h c hc
  exact hp

theorem Stops.append {p : Char → Bool} {cs ds : List Char} (hcs : Stops p cs) (hds : Stops p ds) :
    Stops p (cs ++ ds) := by
  cases cs with
  | nil => exact hds
  | cons c cs => exact stops_cons.mpr (stops_cons.mp hcs)

/-! ## Literals -/

namespace LiteralOpening

theorem length_le_two {cs : List Char} {kind : LiteralKind}
    (h : LiteralKind.ofLetters? cs = some kind) : cs.length ≤ 2 := by
  unfold LiteralKind.ofLetters? at h
  split at h <;> simp at h ⊢

/-- A literal opens with its letters and its quote. -/
theorem ofText?_eq_some_iff {cs : List Char} {opening : LiteralOpening} :
    ofText? cs = some opening ↔
      ∃ letters rest, cs = letters ++ opening.quote :: rest ∧ letters.length = opening.letters
        ∧ isQuote opening.quote = true
        ∧ LiteralKind.ofLetters? (letters.map Char.toLower) = some opening.kind := by
  constructor
  · intro h
    obtain ⟨n, -, hn⟩ := List.exists_of_findSome?_eq_some h
    unfold withLetters? at hn
    split at hn
    · exact absurd hn nofun
    · rename_i quote rest hdrop
      by_cases hquote : isQuote quote = true
      · rw [if_pos hquote] at hn
        obtain ⟨kind, hkind, rfl⟩ := Option.map_eq_some_iff.mp hn
        have hlength := congrArg List.length hdrop
        rw [List.length_drop, List.length_cons] at hlength
        refine ⟨cs.take n, rest, ?_, List.length_take_of_le (by omega), hquote, hkind⟩
        rw [← hdrop, List.take_append_drop]
      · rw [if_neg hquote] at hn
        exact absurd hn nofun
  · obtain ⟨kind, n, quote⟩ := opening
    rintro ⟨letters, rest, rfl, rfl, hquote, hkind⟩
    have hfound : withLetters? (letters ++ quote :: rest) letters.length
        = some ⟨kind, letters.length, quote⟩ := by
      unfold withLetters?
      simp only [List.drop_left, if_pos hquote, List.take_left, hkind, Option.map_some]
    -- with more letters the quote would be one of them
    have hmore (n : Nat) (hn : letters.length < n) :
        withLetters? (letters ++ quote :: rest) n = none := by
      refine withLetters?_eq_none (c := quote) ?_ fun hmem => ?_
      · obtain ⟨k, rfl⟩ := Nat.exists_eq_add_of_lt hn
        rw [Nat.add_assoc, List.take_length_add_append]
        exact List.mem_append_right _ List.mem_cons_self
      · have hword := continuesWord_of_mem hmem
        rw [not_continuesWord_of_isQuote hquote] at hword
        exact absurd hword nofun
    have hplace : ∀ n ≤ 2, ∃ before behind, [2, 1, 0] = before ++ n :: behind
        ∧ ∀ m ∈ before, n < m
      | 0, _ => ⟨[2, 1], [], rfl, by decide⟩
      | 1, _ => ⟨[2], [0], rfl, by decide⟩
      | 2, _ => ⟨[], [1, 0], rfl, by decide⟩
    obtain ⟨before, behind, hsplit, hbefore⟩ := hplace letters.length (by
      have := length_le_two hkind
      rwa [List.length_map] at this)
    exact List.findSome?_eq_some_iff.mpr
      ⟨before, letters.length, behind, hsplit, hfound, fun n hn => hmore n (hbefore n hn)⟩

end LiteralOpening

/-- A body is read up to its quote, whatever follows. -/
theorem quotedBody_slice {raw : Bool} {quote : Char} {cs text : List Char} {size : Nat}
    (h : quotedBody raw quote cs = .ok (text, size)) :
    ∃ body rest, cs = body ++ rest ∧ body.length = size
      ∧ ∀ rest', quotedBody raw quote (body ++ rest') = .ok (text, size) := by
  have hplain {c : Char} {cs : List Char} (hlast : c = '\\' → cs = [] → False)
      (hpair : ∀ d ds, c = '\\' → cs = d :: ds → False) : c ≠ '\\' := by
    intro hc
    cases cs with
    | nil => exact hlast hc rfl
    | cons d ds => exact hpair d ds hc rfl
  fun_induction quotedBody raw quote cs generalizing text size with
  | case1 => exact absurd h nofun
  | case2 => exact absurd h nofun
  | case3 c cs ih =>
      obtain ⟨⟨text', size'⟩, hread, heq⟩ := map_eq_ok.mp h
      cases heq
      obtain ⟨body, rest, rfl, rfl, hbody⟩ := ih hread
      refine ⟨'\\' :: c :: body, rest, rfl, rfl, fun rest' => ?_⟩
      rw [List.cons_append, List.cons_append, quotedBody, hbody]
      rfl
  | case4 => exact absurd h nofun
  | case5 cs hlast hpair hline =>
      cases h
      refine ⟨[quote], cs, rfl, rfl, fun rest' => ?_⟩
      have hslash := hplain hlast hpair
      rw [List.singleton_append, quotedBody.eq_4 _ _ _ _ (fun h _ => hslash h)
        (fun _ _ h _ => hslash h), if_neg hline, if_pos rfl]
  | case6 c cs hlast hpair hline hquote ih =>
      obtain ⟨⟨text', size'⟩, hread, heq⟩ := map_eq_ok.mp h
      cases heq
      obtain ⟨body, rest, rfl, rfl, hbody⟩ := ih hread
      refine ⟨c :: body, rest, rfl, rfl, fun rest' => ?_⟩
      have hslash := hplain hlast hpair
      rw [List.cons_append, quotedBody.eq_4 _ _ _ _ (fun h _ => hslash h)
        (fun _ _ h _ => hslash h), if_neg hline, if_neg hquote, hbody]
      rfl

/-- A literal is read from its own characters, whatever follows. -/
theorem Lexeme.quoted_slice {cs : List Char} {opening : LiteralOpening} {tok : Token} {size : Nat}
    (hopening : LiteralOpening.ofText? cs = some opening)
    (h : quoted opening cs = .ok ⟨some tok, size⟩) :
    ∃ ds rest, cs = ds ++ rest ∧ ds.length = size
      ∧ ∀ rest', LiteralOpening.ofText? (ds ++ rest') = some opening
        ∧ quoted opening (ds ++ rest') = .ok ⟨some tok, size⟩ := by
  obtain ⟨letters, behind, rfl, hletters, hquote, hkind⟩ :=
    LiteralOpening.ofText?_eq_some_iff.mp hopening
  have hdrop (behind : List Char) : (letters ++ opening.quote :: behind).drop (opening.letters + 1)
      = behind := by
    rw [← hletters, ← List.drop_drop, List.drop_left]
    rfl
  unfold quoted at h
  split at h
  · exact absurd h nofun
  rename_i hformatted
  rw [hdrop] at h
  split at h
  · exact absurd h nofun
  · exact absurd h nofun
  rename_i text n hbody
  obtain ⟨body, rest, rfl, hlength, hread⟩ := quotedBody_slice hbody
  have hsize : opening.letters + 1 + n = size := by
    cases h
    rfl
  refine ⟨letters ++ opening.quote :: body, rest, by simp, ?_, fun rest' => ⟨?_, ?_⟩⟩
  · rw [List.length_append, List.length_cons, hletters, hlength, ← hsize]
    omega
  · exact LiteralOpening.ofText?_eq_some_iff.mpr
      ⟨letters, body ++ rest', by simp, hletters, hquote, hkind⟩
  · unfold quoted
    rw [if_neg hformatted, List.append_assoc, List.cons_append, hdrop, hread]
    exact h

/-! ## Numbers -/

/-- A run does not begin with what stops it. -/
theorem stops_takeWhile {p q : Char → Bool} (h : ∀ c, q c = true → p c = false) (cs : List Char) :
    Stops q (cs.takeWhile p) := by
  intro c hc
  have hrun := List.all_eq_true.mp List.all_takeWhile c (List.mem_of_mem_head? hc)
  refine Bool.eq_false_iff.mpr fun hq => ?_
  rw [h c hq] at hrun
  exact absurd hrun nofun

/-- Digits are taken off again when no more of them follow. -/
theorem digitRun_slice (cs : List Char) :
    ∃ rest, cs = digitRun cs ++ rest
      ∧ ∀ rest', Stops (fun c => c.isDigit || c == '_') rest' →
        digitRun (digitRun cs ++ rest') = digitRun cs :=
  ⟨_, List.takeWhile_append_dropWhile.symm, fun _ hrest =>
    takeWhile_of_stops (fun c hc => List.all_eq_true.mp List.all_takeWhile c hc) hrest⟩

/-- A fraction is taken off again when neither a digit nor a point follows. -/
theorem fractionPart_slice (cs : List Char) :
    ∃ rest, cs = fractionPart cs ++ rest
      ∧ ∀ rest', Stops (fun c => c.isDigit || c == '_') rest' → Stops (· == '.') rest' →
        fractionPart (fractionPart cs ++ rest') = fractionPart cs := by
  fun_cases fractionPart cs with
  | case1 => exact ⟨_, rfl, fun _ _ hpoint => fractionPart_of_stops hpoint⟩
  | case2 cs hellipsis =>
      obtain ⟨rest, hsplit, hrun⟩ := digitRun_slice cs
      refine ⟨rest, congrArg _ hsplit, fun rest' hdigit hpoint => ?_⟩
      have hstop : Stops (· == '.') (digitRun cs ++ rest') := by
        refine Stops.append (stops_takeWhile (fun c hc => ?_) cs) hpoint
        rw [beq_iff_eq.mp hc]
        rfl
      rw [List.cons_append, fractionPart.eq_2, hrun rest' hdigit]
      intro more hmore
      rw [hmore] at hstop
      exact absurd (stops_cons.mp hstop) (by decide)
  | case3 => exact ⟨_, rfl, fun _ _ hpoint => fractionPart_of_stops hpoint⟩

/-- A sign is taken off again when none follows. -/
theorem signPart_slice (cs : List Char) :
    ∃ rest, cs = signPart cs ++ rest
      ∧ ∀ rest', Stops (fun c => c == '+' || c == '-') rest' →
        signPart (signPart cs ++ rest') = signPart cs := by
  fun_cases signPart cs with
  | case1 => exact ⟨_, rfl, fun _ _ => rfl⟩
  | case2 => exact ⟨_, rfl, fun _ _ => rfl⟩
  | case3 => exact ⟨_, rfl, fun _ hsign => signPart_of_stops hsign⟩

theorem exponentPart_eq {c : Char} {sign digits rest : List Char} (hc : c = 'e' ∨ c = 'E')
    (hsign : signPart (sign ++ (digits ++ rest)) = sign)
    (hdigits : digitRun (digits ++ rest) = digits) :
    exponentPart (c :: (sign ++ (digits ++ rest))) = c :: (sign ++ digits) := by
  rw [exponentPart, if_pos hc]
  simp only [hsign, List.drop_left, hdigits, List.cons_append]

/-- An exponent is taken off again when a line ends behind it. -/
theorem exponentPart_slice (cs : List Char) :
    ∃ rest, cs = exponentPart cs ++ rest
      ∧ ∀ rest', LineEnds rest' → exponentPart (exponentPart cs ++ rest') = exponentPart cs := by
  have hnone (rest' : List Char) (h : LineEnds rest') : exponentPart rest' = [] :=
    exponentPart_of_stops (h.stops (by decide))
  cases cs with
  | nil => exact ⟨[], rfl, hnone⟩
  | cons c cs =>
      by_cases hc : c = 'e' ∨ c = 'E'
      · obtain ⟨behind, hcs, hsign⟩ := signPart_slice cs
        obtain ⟨rest, hbehind, hrun⟩ := digitRun_slice behind
        generalize hsign' : signPart cs = sign at hcs hsign
        generalize hrun' : digitRun behind = digits at hbehind hrun
        subst hbehind hcs
        rw [exponentPart_eq hc hsign' hrun']
        refine ⟨rest, by simp, fun rest' hrest' => ?_⟩
        have hdigits := hrun rest' (hrest'.stops (by decide))
        have hstop : Stops (fun c => c == '+' || c == '-') (digits ++ rest') := by
          refine Stops.append ?_ (hrest'.stops (by decide))
          rw [← hrun']
          refine stops_takeWhile (fun c hc => ?_) _
          simp only [Bool.or_eq_true, beq_iff_eq] at hc
          rcases hc with rfl | rfl <;> rfl
        rw [List.cons_append, List.append_assoc]
        exact exponentPart_eq hc (hsign _ hstop) hdigits
      · have hpart : exponentPart (c :: cs) = [] := by
          rw [exponentPart, if_neg hc]
        rw [hpart]
        exact ⟨_, rfl, hnone⟩

theorem stops_exponentPart {p : Char → Bool} (he : p 'e' = false) (hE : p 'E' = false)
    (cs : List Char) : Stops p (exponentPart cs) := by
  fun_cases exponentPart cs with
  | case1 => exact nofun
  | case2 c cs hc => rcases hc with rfl | rfl <;> exact stops_cons.mpr ‹_›
  | case3 => exact nofun

theorem stops_fractionPart {p : Char → Bool} (hpoint : p '.' = false) (cs : List Char) :
    Stops p (fractionPart cs) := by
  fun_cases fractionPart cs with
  | case1 => exact nofun
  | case2 => exact stops_cons.mpr hpoint
  | case3 => exact nofun

namespace Numeral

theorem ofText_append {whole fraction exponent rest : List Char}
    (hwhole : digitRun (whole ++ (fraction ++ (exponent ++ rest))) = whole)
    (hfraction : fractionPart (fraction ++ (exponent ++ rest)) = fraction)
    (hexponent : exponentPart (exponent ++ rest) = exponent) :
    ofText (whole ++ (fraction ++ (exponent ++ rest))) = ⟨whole, fraction, exponent⟩ := by
  unfold ofText
  simp only [hwhole, List.drop_left, hfraction, ← List.drop_drop, hexponent]

/-- A numeral is cut off from its own characters. -/
theorem ofText_slice (cs : List Char) :
    ∃ rest, cs = (ofText cs).chars ++ rest
      ∧ ∀ rest', LineEnds rest' → ofText ((ofText cs).chars ++ rest') = ofText cs := by
  obtain ⟨behind, hcs, hwhole⟩ := digitRun_slice cs
  obtain ⟨behind', hbehind, hfraction⟩ := fractionPart_slice behind
  obtain ⟨rest, hrest, hexponent⟩ := exponentPart_slice behind'
  have hdigit := stops_fractionPart (p := fun c => c.isDigit || c == '_') (by decide) behind
  have hdigit' := stops_exponentPart (p := fun c => c.isDigit || c == '_') (by decide) (by decide)
    behind'
  have hpoint := stops_exponentPart (p := (· == '.')) (by decide) (by decide) behind'
  generalize hwhole' : digitRun cs = whole at hcs hwhole
  generalize hfraction' : fractionPart behind = fraction at hbehind hfraction hdigit
  generalize hexponent' : exponentPart behind' = exponent at hrest hexponent hdigit' hpoint
  subst hrest hbehind hcs
  have hchars (rest : List Char) : Numeral.chars ⟨whole, fraction, exponent⟩ ++ rest
      = whole ++ (fraction ++ (exponent ++ rest)) := by
    simp [Numeral.chars]
  rw [ofText_append hwhole' hfraction' hexponent']
  refine ⟨rest, (hchars rest).symm, fun rest' hrest' => ?_⟩
  have hdigit'' := Stops.append hdigit' (hrest'.stops (by decide))
  rw [hchars]
  exact ofText_append (hwhole _ (Stops.append hdigit hdigit''))
    (hfraction _ hdigit'' (Stops.append hpoint (hrest'.stops (by decide)))) (hexponent rest' hrest')

end Numeral

theorem numberAt_based {letter : Char} {base : Nat} (h : baseOf? letter = some base)
    (cs : List Char) :
    numberAt ('0' :: letter :: cs)
      = (basedToken base (basedRun cs)).map (·, (basedRun cs).length + 2) := by
  simp only [numberAt, h]

theorem numberAt_unbased {cs : List Char}
    (h : ∀ letter rest, cs = '0' :: letter :: rest → baseOf? letter = none) :
    numberAt cs = (Numeral.ofText cs).token.map (·, (Numeral.ofText cs).chars.length) := by
  unfold numberAt
  split
  · rw [h _ _ rfl]
  · rfl

/-- A number stands where a digit does, or a point and a digit. -/
theorem opensNumber_iff {cs : List Char} :
    opensNumber cs = true ↔ ∃ c ds, c.isDigit = true ∧ (cs = c :: ds ∨ cs = '.' :: c :: ds) := by
  fun_cases opensNumber cs with
  | case1 c ds =>
      constructor
      · intro h
        exact ⟨c, ds, h, Or.inr rfl⟩
      · rintro ⟨d, ds', hd, h | h⟩
        · obtain ⟨rfl, -⟩ := List.cons.inj h
          exact absurd hd (by decide)
        · obtain ⟨rfl, -⟩ := List.cons.inj (List.cons.inj h).2
          exact hd
  | case2 c ds hpoint =>
      constructor
      · intro h
        exact ⟨c, ds, h, Or.inl rfl⟩
      · rintro ⟨d, ds', hd, h | h⟩
        · obtain ⟨rfl, -⟩ := List.cons.inj h
          exact hd
        · obtain ⟨rfl, rfl⟩ := List.cons.inj h
          exact (hpoint _ _ rfl rfl).elim
  | case3 =>
      constructor
      · exact nofun
      · rintro ⟨d, ds', hd, h | h⟩ <;> exact absurd h nofun

theorem opensNumber_append {ds : List Char} (h : opensNumber ds = true) (rest : List Char) :
    opensNumber (ds ++ rest) = true := by
  obtain ⟨c, ds, hc, rfl | rfl⟩ := opensNumber_iff.mp h
  · exact opensNumber_iff.mpr ⟨c, ds ++ rest, hc, Or.inl rfl⟩
  · exact opensNumber_iff.mpr ⟨c, ds ++ rest, hc, Or.inr rfl⟩

/-- Where a number stands, its numeral begins with it. -/
theorem Numeral.opensNumber_chars {cs : List Char} (h : opensNumber cs = true) :
    opensNumber (ofText cs).chars = true := by
  have hrun {c : Char} (hc : c.isDigit = true) (ds : List Char) :
      ∃ more, digitRun (c :: ds) = c :: more :=
    ⟨_, List.takeWhile_cons_of_pos (by rw [hc, Bool.true_or])⟩
  obtain ⟨c, ds, hc, rfl | rfl⟩ := opensNumber_iff.mp h
  · obtain ⟨more, hmore⟩ := hrun hc ds
    refine opensNumber_iff.mpr ⟨c, more ++ (ofText (c :: ds)).fraction ++ (ofText (c :: ds)).exponent,
      hc, Or.inl ?_⟩
    show digitRun (c :: ds) ++ _ ++ _ = _
    rw [hmore]
    rfl
  · obtain ⟨more, hmore⟩ := hrun hc ds
    have hfraction : fractionPart ('.' :: c :: ds) = '.' :: c :: more := by
      rw [fractionPart.eq_2, hmore]
      intro _ hpoint
      exact (plainDigit_of_isDigit hc).point (List.cons.inj hpoint).1
    refine opensNumber_iff.mpr ⟨c, more ++ (ofText ('.' :: c :: ds)).exponent, hc, Or.inr ?_⟩
    show fractionPart ('.' :: c :: ds) ++ _ = _
    rw [hfraction]
    rfl

/-- A number is cut off from its own characters. -/
theorem numberAt_slice {cs : List Char} {tok : Token} {size : Nat} (hopens : opensNumber cs = true)
    (h : numberAt cs = .ok (tok, size)) :
    ∃ ds rest, cs = ds ++ rest ∧ ds.length = size ∧ opensNumber ds = true
      ∧ ∀ rest', LineEnds rest' → numberAt (ds ++ rest') = .ok (tok, size) := by
  by_cases hbased : ∃ letter rest base, cs = '0' :: letter :: rest ∧ baseOf? letter = some base
  · obtain ⟨letter, cs, base, rfl, hbase⟩ := hbased
    rw [numberAt_based hbase] at h
    obtain ⟨tok', htok, heq⟩ := map_eq_ok.mp h
    cases heq
    have hsplit : cs = basedRun cs ++ _ := List.takeWhile_append_dropWhile.symm
    refine ⟨'0' :: letter :: basedRun cs, _, congrArg _ (congrArg _ hsplit), rfl, rfl,
      fun rest' hrest' => ?_⟩
    have hrun : basedRun (basedRun cs ++ rest') = basedRun cs :=
      takeWhile_of_stops (fun c hc => List.all_eq_true.mp List.all_takeWhile c hc)
        (hrest'.stops (by decide))
    rw [List.cons_append, List.cons_append, numberAt_based hbase, hrun, htok]
    rfl
  · have hnone : ∀ letter rest, cs = '0' :: letter :: rest → baseOf? letter = none := by
      intro letter rest hcs
      refine Option.eq_none_iff_forall_ne_some.mpr fun base hbase => ?_
      exact hbased ⟨letter, rest, base, hcs, hbase⟩
    rw [numberAt_unbased hnone] at h
    obtain ⟨tok', htok, heq⟩ := map_eq_ok.mp h
    cases heq
    obtain ⟨rest, hcs, hagain⟩ := Numeral.ofText_slice cs
    refine ⟨(Numeral.ofText cs).chars, rest, hcs, rfl, Numeral.opensNumber_chars hopens,
      fun rest' hrest' => ?_⟩
    rw [numberAt_unbased, hagain rest' hrest', htok]
    · rfl
    · -- the letter is that of the text, or a line ends there
      generalize (Numeral.ofText cs).chars = ds at hcs
      intro letter more hmore
      match ds with
      | [] =>
          obtain rfl : rest' = '0' :: letter :: more := hmore
          exact absurd (stops_cons.mp hrest') (by decide)
      | [c] =>
          obtain rfl : rest' = letter :: more := (List.cons.inj hmore).2
          obtain rfl : letter = '\n' := by simpa using stops_cons.mp hrest'
          rfl
      | c :: d :: ds =>
          obtain ⟨hzero, hmore⟩ := List.cons.inj hmore
          obtain ⟨hletter, -⟩ := List.cons.inj hmore
          rw [hzero, hletter] at hcs
          exact hnone _ _ hcs

/-! ## Tokens -/

/-- No token begins with a backslash. -/
theorem Lexeme.tokenAt_backslash (cs : List Char) :
    tokenAt '\\' cs = .error ⟨.unexpectedChar '\\', 0⟩ := by
  have hmark : Mark.ofText? ('\\' :: cs) = none := by
    refine Option.eq_none_iff_forall_ne_some.mpr fun m hm => ?_
    obtain ⟨rest, hrest⟩ := Mark.chars_isPrefix_of_ofText? hm
    obtain ⟨c, ds, hchars⟩ := m.exists_chars_eq_cons
    rw [hchars] at hrest
    exact (Mark.opens_alone hchars).2.1 (List.cons.inj hrest).1
  unfold tokenAt
  rw [LiteralOpening.ofText?_cons_eq_none (by decide) (by decide)]
  simp only [opensNumber_eq_false (c := '\\') (by decide) (by decide), hmark,
    show opensWord '\\' = false by decide, Bool.false_eq_true, if_false]

/-- No literal opens where a number does. -/
theorem LiteralOpening.ofText?_number {cs : List Char} (h : opensNumber cs = true) :
    ofText? cs = none := by
  obtain ⟨c, ds, hc, rfl | rfl⟩ := opensNumber_iff.mp h
  · have hplain := plainDigit_of_isDigit hc
    exact ofText?_cons_eq_none hplain.quote hplain.letter
  · exact ofText?_cons_eq_none (by decide) (by decide)

/-- A literal is cut off from its own characters. -/
theorem Lexeme.tokenAt_literal {c : Char} {cs : List Char} {opening : LiteralOpening} {tok : Token}
    {size : Nat} (hopening : LiteralOpening.ofText? (c :: cs) = some opening)
    (h : quoted opening (c :: cs) = .ok ⟨some tok, size⟩) :
    ∃ ds rest, cs = ds ++ rest ∧ (c :: ds).length = size
      ∧ ∀ rest', tokenAt c (ds ++ rest') = .ok ⟨some tok, size⟩ := by
  obtain ⟨ds, rest, hcs, hlength, hread⟩ := quoted_slice hopening h
  cases ds with
  | nil => exact absurd (hread []).1 nofun
  | cons d ds =>
      obtain ⟨rfl, rfl⟩ := List.cons.inj hcs
      refine ⟨ds, rest, rfl, hlength, fun rest' => ?_⟩
      obtain ⟨hopening', hread'⟩ := hread rest'
      rw [List.cons_append] at hopening' hread'
      unfold tokenAt
      rw [hopening']
      exact hread'

/-- A number is cut off from its own characters. -/
theorem Lexeme.tokenAt_number {c : Char} {cs : List Char} {tok : Token} {size : Nat}
    (hnumber : opensNumber (c :: cs) = true) (h : numberAt (c :: cs) = .ok (tok, size)) :
    ∃ ds rest, cs = ds ++ rest ∧ (c :: ds).length = size
      ∧ ∀ rest', LineEnds rest' → tokenAt c (ds ++ rest') = .ok ⟨some tok, size⟩ := by
  obtain ⟨ds, rest, hcs, hlength, hopens, hread⟩ := numberAt_slice hnumber h
  cases ds with
  | nil => exact absurd hopens nofun
  | cons d ds =>
      obtain ⟨rfl, rfl⟩ := List.cons.inj hcs
      refine ⟨ds, rest, rfl, hlength, fun rest' hrest' => ?_⟩
      have hopens' := opensNumber_append hopens rest'
      have hread' := hread rest' hrest'
      rw [List.cons_append] at hopens' hread'
      unfold tokenAt
      rw [LiteralOpening.ofText?_number hopens']
      simp only [hopens', hread', if_true]

/-- A token is cut off from its own characters, whatever stands behind the end of its line. -/
theorem Lexeme.ofText_slice {c : Char} {cs : List Char} {tok : Token} {size : Nat}
    (h : ofText c cs = .ok ⟨some tok, size⟩) :
    ∃ ds rest, cs = ds ++ rest ∧ (c :: ds).length = size
      ∧ ∀ rest', LineEnds rest' → ofText c (ds ++ rest') = .ok ⟨some tok, size⟩ := by
  unfold ofText at h
  split at h
  swap
  · exact absurd h nofun
  rename_i hgap
  have hblank := isBlank_of_gapSize hgap
  have hslash : c ≠ '\\' := by
    rintro rfl
    rw [tokenAt_backslash] at h
    exact absurd h nofun
  have hhash : c ≠ '#' := by
    rintro rfl
    exact absurd hgap nofun
  have hstart (ds : List Char) : ofText c ds = tokenAt c ds := by
    unfold ofText
    rw [gapSize_eq_zero hblank hslash hhash]
  unfold tokenAt at h
  split at h
  · rename_i hopening
    obtain ⟨ds, rest, hcs, hlength, hread⟩ := tokenAt_literal hopening h
    exact ⟨ds, rest, hcs, hlength, fun rest' _ => (hstart _).trans (hread rest')⟩
  split at h
  · rename_i hnumber
    split at h
    · exact absurd h nofun
    rename_i hread
    cases h
    obtain ⟨ds, rest, hcs, hlength, hread⟩ := tokenAt_number hnumber hread
    exact ⟨ds, rest, hcs, hlength, fun rest' hrest' => (hstart _).trans (hread rest' hrest')⟩
  rename_i hnumber
  split at h
  · rename_i hword
    cases h
    have hopens : OpensOnlyWord c := ⟨hword, hblank, isDigit_of_opensNumber hnumber⟩
    exact ⟨cs.takeWhile continuesWord, _, List.takeWhile_append_dropWhile.symm, rfl,
      fun rest' hrest' => ofText_word hopens
        (fun d hd => List.all_eq_true.mp List.all_takeWhile d hd) (hrest'.stops (by decide))⟩
  split at h
  · rename_i m hmark
    cases h
    obtain ⟨rest, hrest⟩ := Mark.chars_isPrefix_of_ofText? hmark
    obtain ⟨d, ds, hchars⟩ := m.exists_chars_eq_cons
    rw [hchars] at hrest
    obtain ⟨rfl, hcs⟩ := List.cons.inj hrest
    have hstops : m.runsInto '\n' = false := by cases m <;> decide
    exact ⟨ds, rest, hcs.symm, congrArg List.length hchars.symm,
      fun rest' hrest' => ofText_mark hchars (hrest'.stops hstops)⟩
  · exact absurd h nofun

end CallSite
