import CallSite.Proofs.Lexing.Number
import CallSite.Proofs.Lexing.Sign
import CallSite.Token.Stream

/-!
# Streams — tokens that are cut off a text again

A token is legible when its own spelling can be read at all.  It is then cut off where the next
character is none that it would take in (`Legible.ofText`).  The one token that comes out of a text
and is not legible is an infinite number: what is written for it is a name (`Token.asRead`).
-/

namespace CallSite

namespace Token

/-- The spelling of the token is a spelling of that token. -/
def Legible : Token → Prop
  | .ident name => ∃ c cs, name.toList = c :: cs ∧ OpensOnlyWord c
    ∧ (∀ d ∈ cs, continuesWord d = true) ∧ ReservedWord.ofChars? (c :: cs) = none
  | .int value => 0 ≤ value ∧ value ≤ largestInt
  | .float value => value.negative = false ∧ value.isFinite = true
  | .str _ | .bytes _ | .word _ | .mark _ => True
  | .eof => False

/-- Whether a token would take in the character behind it.  A sign behind a name would be read as
    that of an exponent if the name were one. -/
def runsInto : Token → Char → Bool
  | .ident _, c | .word _, c => (continuesWord c || isQuote c) || (c == '+' || c == '-')
  | .int _, c => continuesWord c || c == '.'
  | .float _, c => continuesWord c
  | .mark m, c => m.runsInto c
  | .str _, _ | .bytes _, _ | .eof, _ => false

/-- A word that is spelled by its characters is cut off. -/
theorem ofText_chars_word {w : List Char} {c : Char} {cs rest : List Char} (h : w = c :: cs)
    (hc : OpensOnlyWord c) (hcs : ∀ d ∈ cs, continuesWord d = true)
    (hrest : Stops (fun c => (continuesWord c || isQuote c) || (c == '+' || c == '-')) rest) :
    ∃ c cs, w = c :: cs ∧ Lexeme.ofText c (cs ++ rest) = .ok ⟨some (wordToken w), w.length⟩ := by
  subst h
  exact ⟨c, cs, rfl, Lexeme.ofText_word hc hcs (hrest.mono fun c h => by rw [h, Bool.true_or])⟩

/-- A legible token is cut off in front of what it does not take in. -/
theorem Legible.ofText {tok : Token} (h : tok.Legible) {rest : List Char}
    (hrest : Stops tok.runsInto rest) :
    ∃ c cs, tok.chars = c :: cs
      ∧ Lexeme.ofText c (cs ++ rest) = .ok ⟨some tok, tok.chars.length⟩ := by
  cases tok with
  | ident name =>
      obtain ⟨c, cs, hname, hc, hcs, hreserved⟩ := h
      have hword : wordToken name.toList = .ident name := by
        rw [wordToken, hname, hreserved, ← hname, String.ofList_toList]
      have := ofText_chars_word hname hc hcs hrest
      rwa [hword] at this
  | str text =>
      refine ⟨'\'', text.toList.flatMap literalChar ++ ['\''], rfl, ?_⟩
      unfold Lexeme.ofText
      rw [gapSize_eq_zero (by decide) (by decide) (by decide)]
      exact Lexeme.tokenAt_str text rest
  | bytes text =>
      refine ⟨'b', literalText text.toList, rfl, ?_⟩
      unfold Lexeme.ofText
      rw [gapSize_eq_zero (by decide) (by decide) (by decide)]
      exact Lexeme.tokenAt_bytes text rest
  | int value =>
      obtain ⟨n, rfl⟩ := Int.eq_ofNat_of_zero_le h.1
      have hchars : (Token.int n).chars = Nat.toDigits 10 n := Nat.toList_repr
      have hdigits := isDigit_toDigits n
      have hvalue := valueOfChars_toDigits n
      rw [hchars]
      obtain ⟨c, cs, hcs⟩ := List.exists_cons_of_ne_nil (Nat.toDigits_ne_nil (n := n) (b := 10))
      have hnumber := numberAt_digits hdigits Nat.toDigits_ne_nil
        (by rw [hvalue]; exact Int.ofNat_le.mp h.2) hrest
      rw [hvalue, hcs] at hnumber
      rw [hcs] at hdigits ⊢
      exact ⟨c, cs, rfl, Lexeme.ofText_number (hdigits c List.mem_cons_self) hnumber⟩
  | float value =>
      obtain ⟨d, ⟨ds, places, hsplit, hds, hne, hplaces, hplaces', hd⟩, hvalue⟩ :=
        Binary64.literal_eq h.2 h.1
      have hnumber := numberAt_fraction hds hne hplaces hplaces' hrest
      rw [← hd, hvalue] at hnumber
      obtain ⟨c, cs, rfl⟩ := List.exists_cons_of_ne_nil hne
      have hchars : (Token.float value).chars = c :: (cs ++ '.' :: places) := hsplit
      refine ⟨c, cs ++ '.' :: places, hchars, ?_⟩
      rw [hchars, List.append_assoc]
      exact Lexeme.ofText_number (hds c List.mem_cons_self) hnumber
  | word w =>
      have hword : wordToken w.chars = .word w := by
        rw [wordToken, ReservedWord.ofChars?_chars]
      have hopens : ∃ c cs, w.chars = c :: cs ∧ (opensWord c = true ∧ isBlank c = false
          ∧ c.isDigit = false) ∧ ∀ d ∈ cs, continuesWord d = true := by
        cases w <;> exact ⟨_, _, rfl, by decide, List.all_eq_true.mp (by decide)⟩
      obtain ⟨c, cs, hchars, ⟨hopen, hblank, hdigit⟩, hcs⟩ := hopens
      have := ofText_chars_word hchars ⟨hopen, hblank, hdigit⟩ hcs hrest
      rwa [hword] at this
  | mark m =>
      obtain ⟨c, cs, hchars⟩ := m.exists_chars_eq_cons
      exact ⟨c, cs, hchars, Lexeme.ofText_mark hchars hrest⟩
  | eof => exact h.elim

end Token

/-! ## Cutting a text -/

/-- What is skipped moves the position on. -/
theorem tokensFrom_skip (ds cs : List Char) (pos : Position) :
    tokensFrom ds.length pos (ds ++ cs) = tokensFrom 0 (pos.after ds) cs := by
  induction ds generalizing pos with
  | nil => rfl
  | cons d ds ih => exact ih (pos.next d)

/-- Behind a token that is cut off the text goes on. -/
theorem tokensFrom_cut {c : Char} {cs rest : List Char} {tok : Token}
    (h : Lexeme.ofText c (cs ++ rest) = .ok ⟨some tok, (c :: cs).length⟩) (pos : Position) :
    tokensFrom 0 pos (c :: cs ++ rest)
      = (tokensFrom 0 (pos.after (c :: cs)) rest).map (⟨tok, pos⟩ :: ·) := by
  rw [List.cons_append, tokensFrom, h]
  show (tokensFrom cs.length (pos.next c) (cs ++ rest)).map _ = _
  rw [tokensFrom_skip cs rest (pos.next c)]
  rfl

/-- Wherever the text stands, it is cut into these tokens. -/
def Lexes (cs : List Char) (ts : List Token) : Prop :=
  ∀ pos, ∃ located stop, tokensFrom 0 pos cs = .ok (located ++ [⟨.eof, stop⟩])
    ∧ located.map Located.value = ts

theorem lexes_nil : Lexes [] [] := fun pos => ⟨[], pos, rfl, rfl⟩

theorem Lexes.token {tok : Token} {rest : List Char} {ts : List Token} (h : Lexes rest ts)
    (htok : tok.Legible) (hrest : Stops tok.runsInto rest) :
    Lexes (tok.chars ++ rest) (tok :: ts) := by
  intro pos
  obtain ⟨c, cs, hchars, hcut⟩ := htok.ofText hrest
  obtain ⟨located, stop, hread, hvalues⟩ := h (pos.after tok.chars)
  refine ⟨⟨tok, pos⟩ :: located, stop, ?_, by rw [List.map_cons, hvalues]⟩
  rw [hchars] at hread hcut ⊢
  rw [tokensFrom_cut hcut, hread]
  rfl

theorem Lexes.blank {rest : List Char} {ts : List Token} (h : Lexes rest ts) :
    Lexes (' ' :: rest) ts := by
  intro pos
  obtain ⟨located, stop, hread, hvalues⟩ := h (pos.next ' ')
  refine ⟨located, stop, ?_, hvalues⟩
  have hcut : Lexeme.ofText ' ' rest = .ok ⟨none, 1⟩ := rfl
  rw [tokensFrom, hcut]
  exact hread

/-! ## What the lexer makes -/

namespace Token

/-- A token that may come out of a text. -/
def Lexed : Token → Prop
  | .float value => value.negative = false ∧ value.isNaN = false
  | tok => tok.Legible

theorem Lexed.ne_eof {tok : Token} (h : tok.Lexed) : tok ≠ .eof := by
  rintro rfl
  exact h

/-- What the spelling of a token is read as: that of an infinite number is a name. -/
def asRead : Token → Token
  | .float value => if value.isFinite then .float value else .ident "inf"
  | tok => tok

/-- An infinite number is spelled like a name. -/
theorem chars_infinite {x : Binary64} (hsign : x.negative = false) (hnan : x.isNaN = false)
    (hfinite : x.isFinite = false) : (Token.float x).chars = "inf".toList := by
  have hliteral : x.literal = "inf" := by
    simp [Binary64.literal, Binary64.written, hsign, hnan, hfinite]
  exact congrArg String.toList hliteral

theorem asRead_float {x : Binary64} (h : x.isFinite = true) : (Token.float x).asRead = .float x :=
  if_pos h

theorem asRead_infinite {x : Binary64} (h : x.isFinite = false) :
    (Token.float x).asRead = .ident "inf" := if_neg (by rw [h]; exact nofun)

theorem Lexed.asRead {tok : Token} (h : tok.Lexed) :
    tok.asRead.Legible ∧ tok.asRead.chars = tok.chars := by
  cases tok with
  | float x =>
      cases hfinite : x.isFinite with
      | true =>
          rw [asRead_float hfinite]
          exact ⟨⟨h.1, hfinite⟩, rfl⟩
      | false =>
          rw [asRead_infinite hfinite, chars_infinite h.1 h.2 hfinite]
          refine ⟨⟨'i', ['n', 'f'], rfl, ⟨?_, ?_, ?_⟩, List.all_eq_true.mp ?_, ?_⟩, rfl⟩ <;> decide
  | _ => exact ⟨h, rfl⟩

end Token

theorem map_eq_ok {ε α β : Type} {r : Except ε α} {f : α → β} {b : β} :
    r.map f = .ok b ↔ ∃ a, r = .ok a ∧ f a = b := by
  cases r <;> simp [Except.map]

theorem Binary64.ofDecimal_lexed (d : Decimal) : (Token.float (ofDecimal false d)).Lexed := by
  have hunits (num den : Nat) : (Token.float (ofUnits false num den)).Lexed :=
    ⟨rfl, decide_eq_false (Nat.not_lt.mpr (Nat.min_le_left ..))⟩
  unfold ofDecimal
  split
  · exact hunits _ _
  · exact hunits _ _

theorem Numeral.lexed_of_token {n : Numeral} {tok : Token} (h : n.token = .ok tok) : tok.Lexed := by
  unfold Numeral.token at h
  dsimp only at h
  split at h
  · split at h
    · rename_i hle
      cases h
      exact ⟨Int.natCast_nonneg _, Int.ofNat_le.mpr hle⟩
    · exact absurd h nofun
  split at h
  · exact absurd h nofun
  · cases h
    exact Binary64.ofDecimal_lexed _

theorem lexed_of_basedToken {base : Nat} {run : List Char} {tok : Token}
    (h : basedToken base run = .ok tok) : tok.Lexed := by
  unfold basedToken at h
  dsimp only at h
  split at h
  · rename_i hvalue
    cases h
    simp only [Bool.and_eq_true, decide_eq_true_eq] at hvalue
    exact ⟨Int.natCast_nonneg _, Int.ofNat_le.mpr hvalue.2⟩
  · exact absurd h nofun

theorem lexed_of_numberAt {cs : List Char} {tok : Token} {size : Nat}
    (h : numberAt cs = .ok (tok, size)) : tok.Lexed := by
  have hdecimal (h : (Numeral.ofText cs).token.map
      (·, (Numeral.ofText cs).chars.length) = .ok (tok, size)) : tok.Lexed := by
    obtain ⟨tok', htok, heq⟩ := map_eq_ok.mp h
    cases heq
    exact Numeral.lexed_of_token htok
  unfold numberAt at h
  dsimp only at h
  split at h
  · split at h
    · obtain ⟨tok', htok, heq⟩ := map_eq_ok.mp h
      cases heq
      exact lexed_of_basedToken htok
    · exact hdecimal h
  · exact hdecimal h

theorem lexed_of_quoted {opening : LiteralOpening} {cs : List Char} {tok : Token} {size : Nat}
    (h : Lexeme.quoted opening cs = .ok ⟨some tok, size⟩) : tok.Lexed := by
  unfold Lexeme.quoted at h
  split at h
  · exact absurd h nofun
  split at h
  · exact absurd h nofun
  · exact absurd h nofun
  · dsimp only at h
    split at h <;> cases h <;> trivial

theorem lexed_of_word {c : Char} {cs : List Char} (hc : OpensOnlyWord c) :
    (wordToken (c :: cs.takeWhile continuesWord)).Lexed := by
  unfold wordToken
  split
  · trivial
  · rename_i hreserved
    refine ⟨c, cs.takeWhile continuesWord, by rw [String.toList_ofList], hc, fun d hd => ?_,
      hreserved⟩
    exact List.all_eq_true.mp List.all_takeWhile d hd

theorem isBlank_of_gapSize {c : Char} {cs : List Char} (h : gapSize (c :: cs) = 0) :
    isBlank c = false := by
  unfold gapSize at h
  split at h
  · exact absurd h nofun
  · exact absurd h nofun
  · rename_i heq
    obtain ⟨rfl, -⟩ := List.cons.inj heq
    split at h
    · exact absurd h nofun
    · rename_i hblank
      exact Bool.eq_false_iff.mpr hblank
  · rename_i heq
    exact absurd heq nofun

theorem isDigit_of_opensNumber {c : Char} {cs : List Char} (h : ¬ opensNumber (c :: cs) = true) :
    c.isDigit = false := by
  unfold opensNumber at h
  split at h
  · rename_i heq
    obtain ⟨rfl, -⟩ := List.cons.inj heq
    rfl
  · rename_i heq
    obtain ⟨rfl, -⟩ := List.cons.inj heq
    exact Bool.eq_false_iff.mpr h
  · rename_i heq
    exact absurd heq nofun

/-- Every token that is cut off a text is one that may come out of it. -/
theorem lexed_of_ofText {c : Char} {cs : List Char} {tok : Token} {size : Nat}
    (h : Lexeme.ofText c cs = .ok ⟨some tok, size⟩) : tok.Lexed := by
  unfold Lexeme.ofText at h
  split at h
  · rename_i hgap
    unfold Lexeme.tokenAt at h
    split at h
    · exact lexed_of_quoted h
    split at h
    · split at h
      · exact absurd h nofun
      · rename_i hnumber
        cases h
        exact lexed_of_numberAt hnumber
    rename_i hnumber
    split at h
    · rename_i hword
      cases h
      exact lexed_of_word ⟨hword, isBlank_of_gapSize hgap, isDigit_of_opensNumber hnumber⟩
    · split at h
      · cases h
        trivial
      · exact absurd h nofun
  · exact absurd h nofun

/-- The tokens of a text may come out of it, and its end closes them. -/
theorem lexed_of_tokensFrom {skip : Nat} {pos : Position} {cs : List Char}
    {ts : List (Located Token)} (h : tokensFrom skip pos cs = .ok ts) :
    ∃ located stop, ts = located ++ [⟨.eof, stop⟩] ∧ ∀ x ∈ located, x.value.Lexed := by
  induction cs generalizing skip pos ts with
  | nil =>
      obtain rfl : [⟨.eof, pos⟩] = ts := by
        cases skip <;> exact Except.ok.inj h
      exact ⟨[], pos, rfl, fun _ hx => absurd hx List.not_mem_nil⟩
  | cons c cs ih =>
      cases skip with
      | succ skip => exact ih h
      | zero =>
          rw [tokensFrom] at h
          split at h
          · exact absurd h nofun
          · exact ih h
          · rename_i tok size hcut
            obtain ⟨more, hmore, rfl⟩ := map_eq_ok.mp h
            obtain ⟨located, stop, rfl, hlexed⟩ := ih hmore
            refine ⟨⟨tok, pos⟩ :: located, stop, rfl, fun x hx => ?_⟩
            rcases List.mem_cons.mp hx with rfl | hx
            · exact lexed_of_ofText hcut
            · exact hlexed x hx

end CallSite
