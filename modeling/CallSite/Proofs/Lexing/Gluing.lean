import CallSite.Proofs.Lexing.Piece

/-!
# Gluing — an integer in front of a point

Digits take in a point behind them and some of the name behind the point, so `1.real` begins with a
floating-point number.  What is left of the name is a word or is refused (`tokens_glued`).  So a text
in which an integer stands in front of a point is read with fewer integers than it has pieces of
that kind (`ints_lt`).
-/

namespace CallSite

/-! ## What is left of a name -/

/-- No character of a word is blank. -/
theorem isBlank_of_continuesWord {c : Char} (h : continuesWord c = true) : isBlank c = false := by
  refine Bool.eq_false_iff.mpr fun hblank => ?_
  -- the blanks are few enough to be looked up one by one
  have hmem : c.toNat ∈ List.range' 9 5 ++ 32 :: 133 :: 160 :: 5760 :: List.range' 8192 11
      ++ [8232, 8233, 8239, 8287, 12288] := by
    simp only [isBlank, blankTable, CodePoints.contains, List.any_cons, List.any_nil] at hblank
    simp only [List.mem_append, List.mem_cons, List.mem_range'_1, List.not_mem_nil, or_false]
    split at hblank <;> simp at hblank <;> omega
  have hno : continuesWord c = false := of_toNat_mem hmem (by decide +kernel)
  rw [h] at hno
  exact absurd hno nofun

/-- No mark begins with a character of a word. -/
theorem Mark.ofText?_word {c : Char} {cs : List Char} (h : continuesWord c = true) :
    Mark.ofText? (c :: cs) = none := by
  refine Option.eq_none_iff_forall_ne_some.mpr fun m hm => ?_
  obtain ⟨d, ds, hd, hword⟩ : ∃ d ds, m.chars = d :: ds ∧ continuesWord d = false := by
    cases m <;> exact ⟨_, _, rfl, by decide⟩
  obtain ⟨rest, hrest⟩ := Mark.chars_isPrefix_of_ofText? hm
  rw [hd, List.cons_append] at hrest
  obtain ⟨rfl, -⟩ := List.cons.inj hrest
  exact absurd h (by rw [hword]; exact nofun)

/-- A token is no integer. -/
def NoInt (x : Located Token) : Prop := ∀ value, x.value ≠ .int value

/-- The rest of a name that does not begin with a digit is read as one word, or is refused. -/
theorem tokens_wordRest {v rest : List Char} (hv : ∀ c ∈ v, continuesWord c = true)
    (hdigit : Stops Char.isDigit v) (hrest : Stops (Token.ident "").runsInto rest) {pos : Position}
    {ts : List (Located Token)} (h : tokensFrom 0 pos (v ++ rest) = .ok ts) :
    ∃ pos' us ws, tokensFrom 0 pos' rest = .ok us ∧ ts = ws ++ us ∧ ∀ x ∈ ws, NoInt x := by
  cases v with
  | nil => exact ⟨pos, ts, [], h, rfl, List.forall_mem_nil _⟩
  | cons c cs =>
      have hc := hv c List.mem_cons_self
      have hdigit := stops_cons.mp hdigit
      have hword : Stops (fun c => continuesWord c || isQuote c) rest :=
        hrest.mono fun c h => Bool.or_eq_true_iff.mpr (Or.inl h)
      cases hopens : opensWord c with
      | true =>
          have hcut := Lexeme.ofText_word ⟨hopens, isBlank_of_continuesWord hc, hdigit⟩
            (fun d hd => hv d (List.mem_cons_of_mem c hd)) hword
          rw [tokensFrom_cut hcut] at h
          obtain ⟨us, hus, rfl⟩ := map_eq_ok.mp h
          refine ⟨_, us, [⟨wordToken (c :: cs), pos⟩], hus, rfl, fun x hx value => ?_⟩
          obtain rfl := List.mem_singleton.mp hx
          show wordToken (c :: cs) ≠ .int value
          unfold wordToken
          split <;> rintro ⟨⟩
      | false =>
          have hslash : c ≠ '\\' := by
            rintro rfl
            exact absurd hc (by decide)
          have hhash : c ≠ '#' := by
            rintro rfl
            exact absurd hc (by decide)
          have hpoint : c ≠ '.' := by
            rintro rfl
            exact absurd hc (by decide)
          have hcut : Lexeme.ofText c (cs ++ rest) = .error ⟨.unexpectedChar c, 0⟩ := by
            unfold Lexeme.ofText
            rw [gapSize_eq_zero (isBlank_of_continuesWord hc) hslash hhash]
            show Lexeme.tokenAt c (cs ++ rest) = _
            unfold Lexeme.tokenAt
            rw [show LiteralOpening.ofText? (c :: (cs ++ rest)) = none from
              LiteralOpening.ofText?_word_eq_none hv hword]
            simp only [opensNumber_eq_false hpoint hdigit, hopens, Mark.ofText?_word hc,
              Bool.false_eq_true, if_false]
          rw [List.cons_append, tokensFrom, hcut] at h
          cases h

/-! ## What a number takes in -/

/-- The digits at the head of a word, and what is left of the word. -/
theorem digitRun_word {w rest : List Char} (hrest : Stops continuesWord rest) :
    ∃ u v, w = u ++ v ∧ digitRun (w ++ rest) = u ∧ Stops Char.isDigit v := by
  have hrun : Stops (fun c => c.isDigit || c == '_') rest := hrest.mono fun c hc => by
    rcases Bool.or_eq_true_iff.mp hc with hdigit | hunderscore
    · exact (plainDigit_of_isDigit hdigit).continues
    · rw [beq_iff_eq] at hunderscore
      subst hunderscore
      decide
  have hleft : Stops (fun c => c.isDigit || c == '_')
      (w.dropWhile fun c => c.isDigit || c == '_') := by
    intro c hc
    have hhead := List.head?_dropWhile_not (fun c : Char => c.isDigit || c == '_') w
    rw [hc] at hhead
    simpa using hhead
  refine ⟨w.takeWhile fun c => c.isDigit || c == '_', w.dropWhile fun c => c.isDigit || c == '_',
    List.takeWhile_append_dropWhile.symm, ?_, hleft.mono fun c hc => by rw [hc, Bool.true_or]⟩
  have hstop : Stops (fun c => c.isDigit || c == '_')
      ((w.dropWhile fun c => c.isDigit || c == '_') ++ rest) := by
    cases hdrop : w.dropWhile fun c => c.isDigit || c == '_' with
    | nil => exact hrun
    | cons c cs =>
        rw [hdrop] at hleft
        exact stops_cons.mpr (stops_cons.mp hleft)
  conv => lhs; rw [← List.takeWhile_append_dropWhile (p := fun c : Char => c.isDigit || c == '_')
    (l := w), List.append_assoc]
  exact takeWhile_of_stops (fun c hc => List.all_eq_true.mp List.all_takeWhile c hc) hstop

/-- An exponent at the head of a word, and what is left of the word. -/
theorem exponentPart_word {w rest : List Char} (hw : ∀ c ∈ w, continuesWord c = true)
    (hdigit : Stops Char.isDigit w) (hrest : Stops (Token.ident "").runsInto rest) :
    ∃ u v, w = u ++ v ∧ exponentPart (w ++ rest) = u ∧ Stops Char.isDigit v := by
  have hword : Stops continuesWord rest := hrest.mono fun c h =>
    Bool.or_eq_true_iff.mpr (Or.inl (Bool.or_eq_true_iff.mpr (Or.inl h)))
  cases w with
  | nil => exact ⟨[], [], rfl, exponentPart_of_stops hword, nofun⟩
  | cons c cs =>
      have hsign : signPart (cs ++ rest) = [] := by
        have hstop : Stops (fun c => c == '+' || c == '-') (cs ++ rest) := by
          cases cs with
          | nil => exact hrest.mono fun c h => Bool.or_eq_true_iff.mpr (Or.inr h)
          | cons d cs =>
              refine stops_cons.mpr (Bool.eq_false_iff.mpr fun hd => ?_)
              have hmore := hw d (List.mem_cons_of_mem c List.mem_cons_self)
              simp only [Bool.or_eq_true, beq_iff_eq] at hd
              rcases hd with rfl | rfl <;> exact absurd hmore (by decide)
        exact signPart_of_stops hstop
      by_cases hexp : c = 'e' ∨ c = 'E'
      · obtain ⟨u, v, rfl, hrun, hv⟩ := digitRun_word (w := cs) hword
        refine ⟨c :: u, v, rfl, ?_, hv⟩
        rw [List.cons_append, exponentPart, if_pos hexp]
        simp only [hsign, List.length_nil, List.drop_zero, hrun]
        rfl
      · refine ⟨[], c :: cs, rfl, ?_, hdigit⟩
        rw [List.cons_append, exponentPart, if_neg hexp]

/-- A numeral takes in a point behind its digits, and of the word behind the point the fraction and
    the exponent. -/
theorem numeral_glued {ds w rest : List Char} (hds : ∀ c ∈ ds, c.isDigit = true)
    (hw : ∀ c ∈ w, continuesWord c = true) (hne : w ≠ [])
    (hrest : Stops (Token.ident "").runsInto rest) :
    ∃ u e v, w = u ++ (e ++ v) ∧ Numeral.ofText (ds ++ '.' :: (w ++ rest)) = ⟨ds, '.' :: u, e⟩
      ∧ Stops Char.isDigit v := by
  have hword : Stops continuesWord rest := hrest.mono fun c h =>
    Bool.or_eq_true_iff.mpr (Or.inl (Bool.or_eq_true_iff.mpr (Or.inl h)))
  obtain ⟨u, v, hsplit, hrun, hv⟩ := digitRun_word (w := w) hword
  obtain ⟨e, v', rfl, hexp, hv'⟩ := exponentPart_word (w := v)
    (fun c hc => hw c (hsplit ▸ List.mem_append_right u hc)) hv hrest
  have hfraction : fractionPart ('.' :: (w ++ rest)) = '.' :: u := by
    obtain ⟨c, cs, rfl⟩ := List.exists_cons_of_ne_nil hne
    have hpoint : c ≠ '.' := by
      rintro rfl
      exact absurd (hw '.' List.mem_cons_self) (by decide)
    rw [fractionPart, hrun]
    intro _ heq
    exact hpoint (List.cons.inj heq).1
  have hdrop : (ds ++ '.' :: (w ++ rest)).drop (ds.length + ('.' :: u).length)
      = e ++ v' ++ rest := by
    rw [← List.drop_drop, List.drop_left, hsplit, List.append_assoc, ← List.cons_append,
      List.drop_left]
  refine ⟨u, e, v', hsplit, ?_, hv'⟩
  unfold Numeral.ofText
  rw [digitRun_point hds]
  simp only [List.drop_left, hfraction, hdrop, hexp]

/-- With a fraction a numeral is no integer. -/
theorem token_fraction (ds u e : List Char) :
    (∃ fault, Numeral.token ⟨ds, '.' :: u, e⟩ = .error fault)
      ∨ ∃ x, Numeral.token ⟨ds, '.' :: u, e⟩ = .ok (.float x) := by
  unfold Numeral.token
  dsimp only
  split
  · rename_i hempty
    cases hempty
  split
  · exact Or.inl ⟨_, rfl⟩
  · exact Or.inr ⟨_, rfl⟩

/-- Digits, a point and a name are read as a floating-point number and what it leaves of the name,
    or are refused. -/
theorem tokens_glued {ds w rest : List Char} (hds : ∀ c ∈ ds, c.isDigit = true) (hne : ds ≠ [])
    (hw : ∀ c ∈ w, continuesWord c = true) (hne' : w ≠ [])
    (hrest : Stops (Token.ident "").runsInto rest) {pos : Position} {ts : List (Located Token)}
    (h : tokensFrom 0 pos (ds ++ '.' :: (w ++ rest)) = .ok ts) :
    ∃ pos' us ws, tokensFrom 0 pos' rest = .ok us ∧ ts = ws ++ us ∧ ∀ x ∈ ws, NoInt x := by
  obtain ⟨u, e, v, hsplit, hnumeral, hv⟩ := numeral_glued hds hw hne' hrest
  have hnumber : numberAt (ds ++ '.' :: (w ++ rest)) = _ :=
    numberAt_decimal hds hne (stops_cons.mpr (by decide))
  rw [hnumeral] at hnumber
  obtain ⟨c, cs, rfl⟩ := List.exists_cons_of_ne_nil hne
  rw [List.cons_append] at hnumber
  have hcut := @Lexeme.ofText_digit c (cs ++ '.' :: (w ++ rest)) (hds c List.mem_cons_self)
  rw [hnumber] at hcut
  rcases token_fraction (c :: cs) u e with ⟨fault, htoken⟩ | ⟨x, htoken⟩
  · rw [htoken] at hcut
    rw [List.cons_append, tokensFrom, hcut] at h
    cases h
  · rw [htoken] at hcut
    have htail : cs ++ '.' :: (w ++ rest) = cs ++ '.' :: u ++ e ++ (v ++ rest) := by
      rw [hsplit]
      simp
    have hlength : Numeral.chars ⟨c :: cs, '.' :: u, e⟩ = c :: (cs ++ '.' :: u ++ e) := by
      simp [Numeral.chars]
    have hcut' : Lexeme.ofText c (cs ++ '.' :: u ++ e ++ (v ++ rest))
        = .ok ⟨some (.float x), (c :: (cs ++ '.' :: u ++ e)).length⟩ := by
      rw [← hlength, ← htail]
      exact hcut
    rw [List.cons_append, htail, ← List.cons_append, tokensFrom_cut hcut'] at h
    obtain ⟨ts', hts', rfl⟩ := map_eq_ok.mp h
    have hv' : ∀ d ∈ v, continuesWord d = true := fun d hd => hw d (by
      rw [hsplit]
      exact List.mem_append_right u (List.mem_append_right e hd))
    obtain ⟨pos', us, ws, hus, rfl, hws⟩ := tokens_wordRest hv' hv hrest hts'
    refine ⟨pos', us, ⟨.float x, pos⟩ :: ws, hus, rfl, fun y hy => ?_⟩
    rcases List.mem_cons.mp hy with rfl | hy
    · rintro value ⟨⟩
    · exact hws y hy

/-! ## Counting integers -/

/-- Whether a token is an integer. -/
def Token.isInt : Token → Bool
  | .int _ => true
  | _ => false

/-- The integers among located tokens. -/
def intCount (ts : List (Located Token)) : Nat := (ts.map Located.value).countP Token.isInt

theorem intCount_append (ws us : List (Located Token)) :
    intCount (ws ++ us) = intCount ws + intCount us := by
  rw [intCount, List.map_append, List.countP_append]
  rfl

theorem intCount_eq_zero {ws : List (Located Token)} (h : ∀ x ∈ ws, NoInt x) :
    intCount ws = 0 := by
  refine List.countP_eq_zero.mpr fun tok htok hint => ?_
  obtain ⟨x, hx, rfl⟩ := List.mem_map.mp htok
  have hx := h x hx
  unfold NoInt at hx
  unfold Token.isInt at hint
  split at hint
  · rename_i value heq
    exact hx value heq
  · exact absurd hint nofun

namespace Piece

variable {glued : Prop} {p q : Piece} {ps : List Piece}

/-- The first piece or the rest of the text is glued. -/
theorem GluedIn.cons (h : GluedIn (p :: ps)) : (∃ q ∈ ps.head?, Glued p q) ∨ GluedIn ps := by
  obtain ⟨value, hvalue⟩ := h
  rcases List.infix_cons_iff.mp hvalue with hprefix | hwithin
  · obtain ⟨rest, hrest⟩ := hprefix
    obtain ⟨rfl, rfl⟩ := List.cons.inj hrest
    exact Or.inl ⟨mark .dot, rfl, ⟨value, rfl⟩, rfl⟩
  · exact Or.inr ⟨value, hwithin⟩

/-- A piece that keeps clear of the next is cut off. -/
theorem tokens_clear (hp : p.Written) (hps : ∀ q ∈ ps, q.Written)
    (hclear : ∀ q ∈ ps.head?, Clear p q) {pos : Position} {ts : List (Located Token)}
    (hts : tokensFrom 0 pos ((p :: ps).flatMap chars) = .ok ts) :
    ∃ pos' us ws, tokensFrom 0 pos' (ps.flatMap chars) = .ok us ∧ ts = ws ++ us
      ∧ ws.map Located.value = p.token?.toList.map Token.asRead := by
  rw [List.flatMap_cons] at hts
  cases htok : p.token? with
  | none =>
      have hchars : p.chars = [' '] := by
        rw [chars, htok]
      have hblank : Lexeme.ofText ' ' (ps.flatMap chars) = .ok ⟨none, 1⟩ := rfl
      rw [hchars, List.singleton_append, tokensFrom, hblank] at hts
      exact ⟨_, ts, [], hts, rfl, rfl⟩
  | some tok =>
      obtain ⟨hlegible, hspelled⟩ := hp tok htok
      have hchars : p.chars = tok.asRead.chars := by
        rw [chars, htok]
        exact hspelled.symm
      have hstops : Stops tok.asRead.runsInto (ps.flatMap chars) := by
        cases ps with
        | nil => exact stops_nil
        | cons q ps =>
            exact stops_append (hps q List.mem_cons_self).chars_ne_nil (hclear q rfl tok htok)
      obtain ⟨c, cs, hcs, hcut⟩ := hlegible.ofText hstops
      rw [hcs] at hcut
      rw [hchars, hcs, tokensFrom_cut hcut] at hts
      obtain ⟨us, hus, rfl⟩ := map_eq_ok.mp hts
      exact ⟨_, us, [⟨tok.asRead, pos⟩], hus, rfl, rfl⟩

/-- An integer, a point and a name are read together. -/
theorem tokens_point {value : Int} {name : String}
    (h : Linked glued (.token (.int value) :: mark .dot :: .token (.ident name) :: ps))
    {pos : Position} {ts : List (Located Token)}
    (hts : tokensFrom 0 pos
      ((.token (.int value) :: mark .dot :: .token (.ident name) :: ps).flatMap chars) = .ok ts) :
    ∃ pos' us ws, tokensFrom 0 pos' (ps.flatMap chars) = .ok us ∧ ts = ws ++ us
      ∧ ∀ x ∈ ws, NoInt x := by
  obtain ⟨⟨hvalue, -⟩, -⟩ := h.written _ List.mem_cons_self _ rfl
  obtain ⟨⟨c, cs, hname, hc, hcs, -⟩, -⟩ := h.written (.token (.ident name))
    (List.mem_cons_of_mem _ (List.mem_cons_of_mem _ List.mem_cons_self)) _ rfl
  obtain ⟨n, rfl⟩ := Int.eq_ofNat_of_zero_le hvalue
  have hdigits : chars (.token (.int n)) = Nat.toDigits 10 n := Nat.toList_repr
  have hword : ∀ d ∈ c :: cs, continuesWord d = true := by
    intro d hd
    rcases List.mem_cons.mp hd with rfl | hd
    · exact continuesWord_of_opensWord hc.opens
    · exact hcs d hd
  have hrest : Stops (Token.ident "").runsInto (ps.flatMap chars) := by
    cases ps with
    | nil => exact stops_nil
    | cons q ps =>
        have hq : q.Written := h.written q
          (List.mem_cons_of_mem _ (List.mem_cons_of_mem _ (List.mem_cons_of_mem _ List.mem_cons_self)))
        rcases (List.isChain_cons_cons.mp h.joins.tail.tail).1.1 with hclear | ⟨-, ⟨v, hv⟩, -⟩
        · exact stops_append hq.chars_ne_nil (hclear _ rfl)
        · exact absurd hv nofun
  have hchars : chars (.token (.ident name)) = c :: cs := hname
  rw [List.flatMap_cons, List.flatMap_cons, List.flatMap_cons, hdigits, hchars] at hts
  exact tokens_glued (isDigit_toDigits n) Nat.toDigits_ne_nil hword (List.cons_ne_nil c cs) hrest hts

theorem isInt_asRead (tok : Token) : tok.asRead.isInt = tok.isInt := by
  cases tok with
  | float x =>
      show Token.isInt (if x.isFinite then _ else _) = false
      split <;> rfl
  | _ => rfl

theorem getLast?_of_tail (h : q ∈ ps.getLast?) : q ∈ (p :: ps).getLast? := by
  cases ps with
  | nil => exact absurd h nofun
  | cons r ps => rwa [List.getLast?_cons_cons]

/-- How many pieces are integers. -/
def intPieces (ps : List Piece) : Nat := (ps.filterMap token?).countP Token.isInt

theorem intPieces_point (value : Int) (name : String) (ps : List Piece) :
    intPieces (.token (.int value) :: mark .dot :: .token (.ident name) :: ps)
      = intPieces ps + 1 := by
  show (.int value :: .mark .dot :: .ident name :: ps.filterMap token?).countP Token.isInt = _
  rw [List.countP_cons_of_pos rfl,
    List.countP_cons_of_neg (show ¬ Token.isInt (.mark .dot) = true from nofun),
    List.countP_cons_of_neg (show ¬ Token.isInt (.ident name) = true from nofun)]
  rfl

/-- A piece that is cut off is read as an integer if it is one. -/
theorem intPieces_cons {ws : List (Located Token)}
    (hws : ws.map Located.value = p.token?.toList.map Token.asRead) :
    intPieces (p :: ps) = intCount ws + intPieces ps := by
  have hsame : Token.isInt ∘ Token.asRead = Token.isInt := funext isInt_asRead
  rw [intPieces, intCount, hws, List.countP_map, hsame, List.filterMap_cons]
  cases p.token? with
  | none => exact (Nat.zero_add _).symm
  | some tok =>
      show ([tok] ++ ps.filterMap token?).countP Token.isInt = _
      exact List.countP_append

/-- A text is read with at most as many integers as it has pieces of that kind, and with fewer if
    one is glued to a point. -/
theorem ints_le (hps : Linked glued ps) (hlast : mark .dot ∉ ps.getLast?) {pos : Position}
    {ts : List (Located Token)} (hts : tokensFrom 0 pos (ps.flatMap chars) = .ok ts) :
    intCount ts ≤ intPieces ps ∧ (GluedIn ps → intCount ts < intPieces ps) := by
  induction hn : ps.length using Nat.strong_induction_on generalizing ps pos ts with
  | _ n ih =>
      subst hn
      cases ps with
      | nil =>
          obtain rfl : [⟨.eof, pos⟩] = ts := Except.ok.inj hts
          refine ⟨Nat.le_refl 0, fun h => ?_⟩
          obtain ⟨value, hvalue⟩ := h
          exact absurd (List.infix_nil.mp hvalue) nofun
      | cons p ps =>
          have hp := hps.written p List.mem_cons_self
          have hrest := hps.tail
          have hjoins := List.isChain_cons.mp hps.joins
          by_cases hglued : ∃ q ∈ ps.head?, Glued p q
          · -- the integer, its point and the name behind are read together
            obtain ⟨q, hq, ⟨value, rfl⟩, rfl⟩ := hglued
            obtain ⟨ps, rfl⟩ : ∃ qs, ps = mark .dot :: qs := by
              cases ps with
              | nil => exact absurd hq nofun
              | cons q qs => exact ⟨qs, by rw [Option.some.inj hq]⟩
            cases ps with
            | nil => exact absurd rfl hlast
            | cons r ps =>
                obtain ⟨name, rfl⟩ := (List.isChain_cons_cons.mp hrest.joins).1.2 rfl
                obtain ⟨pos', us, ws, hus, rfl, hws⟩ := tokens_point hps hts
                have hle := (ih ps.length (by simp +arith) hrest.tail.tail
                  (fun hdot => hlast (getLast?_of_tail (getLast?_of_tail (getLast?_of_tail hdot))))
                  hus rfl).1
                have hlt : intCount (ws ++ us)
                    < intPieces (.token (.int value) :: mark .dot :: .token (.ident name) :: ps) := by
                  rw [intCount_append, intCount_eq_zero hws, Nat.zero_add, intPieces_point]
                  exact Nat.lt_succ_of_le hle
                exact ⟨hlt.le, fun _ => hlt⟩
          · have hclear : ∀ q ∈ ps.head?, Clear p q := fun q hq =>
              (hjoins.1 q hq).1.resolve_right fun h => hglued ⟨q, hq, h.2⟩
            obtain ⟨pos', us, ws, hus, rfl, hws⟩ := tokens_clear hp hrest.written hclear hts
            obtain ⟨hle, hlt⟩ := ih ps.length (Nat.lt_succ_self _) hrest
              (fun hdot => hlast (getLast?_of_tail hdot)) hus rfl
            rw [intCount_append, intPieces_cons hws]
            refine ⟨Nat.add_le_add_left hle _, fun h => Nat.add_lt_add_left (hlt ?_) _⟩
            exact h.cons.resolve_left hglued

end Piece

end CallSite
