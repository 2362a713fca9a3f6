import CallSite.Proofs.Lexing.Word
import CallSite.Token.Spelling

/-!
# Signs — what is cut off at the head of a text as a mark or a quoted literal

A mark is cut off where it does not go on as a longer one; a point must not be followed by a digit
either (`ofText_mark`).  A literal in its canonical spelling is closed by its own quote and stands
for the text that it spells, whatever follows (`tokenAt_str`, `tokenAt_bytes`).
-/

namespace CallSite

/-! ## Marks -/

namespace Mark

/-- Whether a mark would take in the character behind it. -/
def runsInto (m : Mark) (c : Char) : Bool :=
  all.any (fun n => (m.chars ++ [c]).isPrefixOf n.chars) || (m = .dot && c.isDigit)

theorem exists_chars_eq_cons (m : Mark) : ∃ c cs, m.chars = c :: cs := by
  cases m <;> exact ⟨_, _, rfl⟩

theorem chars_inj {m n : Mark} (h : m.chars = n.chars) : m = n := by
  have hall : ∀ m ∈ all, ∀ n ∈ all, m.chars = n.chars → m = n := by decide
  exact hall m (mem_all m) n (mem_all n) h

/-- The mark itself is read when it does not run into what follows. -/
theorem ofText?_of_stops {m : Mark} {rest : List Char} (h : Stops m.runsInto rest) :
    ofText? (m.chars ++ rest) = some m := by
  have hsome : (ofText? (m.chars ++ rest)).isSome = true :=
    List.find?_isSome.mpr ⟨m, mem_all m, List.isPrefixOf_iff_prefix.mpr (List.prefix_append ..)⟩
  obtain ⟨n, hn⟩ := Option.isSome_iff_exists.mp hsome
  rw [hn]
  have hprefix := chars_isPrefix_of_ofText? hn
  have hlength := length_le_of_ofText? hn (List.prefix_append m.chars rest)
  obtain ⟨more, hmore⟩ := List.prefix_of_prefix_length_le (List.prefix_append ..) hprefix hlength
  cases more with
  | nil =>
      rw [List.append_nil] at hmore
      rw [chars_inj hmore]
  | cons c more =>
      -- the longer mark begins with the next character of the text
      rw [← hmore] at hprefix
      obtain ⟨behind, hbehind⟩ := hprefix
      rw [List.append_assoc, List.append_cancel_left_eq] at hbehind
      rw [← hbehind, List.cons_append, stops_cons, runsInto, Bool.or_eq_false_iff] at h
      have hmiss := List.any_eq_false.mp h.1 n (mem_all n)
      rw [List.isPrefixOf_iff_prefix] at hmiss
      refine absurd ⟨more, ?_⟩ hmiss
      rw [← hmore, List.append_assoc]
      rfl

end Mark

/-- No mark begins like anything else. -/
theorem Mark.opens_alone {m : Mark} {c : Char} {cs : List Char} (h : m.chars = c :: cs) :
    isBlank c = false ∧ c ≠ '\\' ∧ c ≠ '#' ∧ isQuote c = false ∧ c ∉ literalLetters
      ∧ opensWord c = false ∧ c.isDigit = false := by
  cases m <;> obtain ⟨rfl, -⟩ := List.cons.inj h <;> decide

/-- A point and what belongs to it is no number, unless a digit follows. -/
theorem opensNumber_mark {m : Mark} {c : Char} {cs rest : List Char} (h : m.chars = c :: cs)
    (hrest : Stops m.runsInto rest) : opensNumber (c :: (cs ++ rest)) = false := by
  have hdigit := (Mark.opens_alone h).2.2.2.2.2.2
  by_cases hdot : c = '.'
  · subst hdot
    have hall : ∀ m ∈ Mark.all, m.chars.head? = some '.' → m = .dot ∨ m = .ellipsis := by decide
    rcases hall m (Mark.mem_all m) (by rw [h]; rfl) with rfl | rfl
    · obtain rfl : [] = cs := (List.cons.inj h).2
      cases rest with
      | nil => rfl
      | cons d rest =>
          have hd := stops_cons.mp hrest
          rw [Mark.runsInto, Bool.or_eq_false_iff] at hd
          have hdigit : d.isDigit = false := by simpa using hd.2
          exact hdigit
    · obtain rfl : ['.', '.'] = cs := (List.cons.inj h).2
      rfl
  · exact opensNumber_eq_false hdot hdigit

/-- A mark is cut off where no longer one goes on. -/
theorem Lexeme.ofText_mark {m : Mark} {c : Char} {cs rest : List Char} (h : m.chars = c :: cs)
    (hrest : Stops m.runsInto rest) :
    Lexeme.ofText c (cs ++ rest) = .ok ⟨some (.mark m), m.chars.length⟩ := by
  obtain ⟨hblank, hslash, hhash, hquote, hletter, hword, -⟩ := Mark.opens_alone h
  have hmark : Mark.ofText? (c :: (cs ++ rest)) = some m := by
    rw [← List.cons_append, ← h]
    exact Mark.ofText?_of_stops hrest
  unfold Lexeme.ofText
  rw [gapSize_eq_zero hblank hslash hhash]
  show Lexeme.tokenAt c (cs ++ rest) = _
  unfold Lexeme.tokenAt
  rw [LiteralOpening.ofText?_cons_eq_none hquote hletter]
  simp only [opensNumber_mark h hrest, hword, hmark, Bool.false_eq_true, if_false]

/-! ## Quoted literals -/

/-- A character in its canonical spelling is read as itself. -/
theorem quotedBody_literalChar (c : Char) (cs : List Char) :
    quotedBody false '\'' (literalChar c ++ cs)
      = (quotedBody false '\'' cs).map fun (text, size) =>
        (c :: text, size + (literalChar c).length) := by
  unfold literalChar
  split
  · rename_i hprotected
    rw [List.cons_append, List.cons_append, List.nil_append, quotedBody]
    rcases hprotected with rfl | rfl <;> rfl
  split
  · subst_vars
    rfl
  split
  · subst_vars
    rfl
  split
  · subst_vars
    rfl
  · rename_i hprotected hfeed htab hreturn
    have hslash : c ≠ '\\' := fun h => hprotected (Or.inr h)
    have hquote : c ≠ '\'' := fun h => hprotected (Or.inl h)
    rw [List.cons_append, List.nil_append, quotedBody]
    · rw [if_neg hfeed, if_neg hquote]
      rfl
    · exact fun h _ => hslash h
    · exact fun _ _ h _ => hslash h

/-- A canonical literal is read up to its quote. -/
theorem quotedBody_literalText (cs rest : List Char) :
    quotedBody false '\'' (cs.flatMap literalChar ++ '\'' :: rest)
      = .ok (cs, (cs.flatMap literalChar).length + 1) := by
  induction cs with
  | nil =>
      rw [List.flatMap_nil, List.nil_append, quotedBody]
      · rfl
      · exact fun h _ => absurd h (by decide)
      · exact fun _ _ h _ => absurd h (by decide)
  | cons c cs ih =>
      rw [List.flatMap_cons, List.append_assoc, quotedBody_literalChar, ih, List.length_append]
      show Except.ok (c :: cs, _) = Except.ok (c :: cs, _)
      rw [Nat.add_comm (literalChar c).length, Nat.add_right_comm]

/-- What follows the letters of a canonical literal is its text. -/
theorem Lexeme.quoted_literal (letters : List Char) (opening : LiteralOpening) (text : String)
    (hletters : opening.letters = letters.length) (hquote : opening.quote = '\'')
    (hraw : opening.kind.raw = false) (hformatted : opening.kind.formatted = false)
    (rest : List Char) :
    Lexeme.quoted opening (letters ++ literalText text.toList ++ rest)
      = .ok ⟨some (if opening.kind.bytes then .bytes text else .str text),
        (letters ++ literalText text.toList).length⟩ := by
  have hbody : (letters ++ literalText text.toList ++ rest).drop (opening.letters + 1)
      = text.toList.flatMap literalChar ++ '\'' :: rest := by
    rw [hletters, ← List.drop_drop, List.append_assoc, List.drop_left]
    simp [literalText]
  have hlength : opening.letters + 1 + ((text.toList.flatMap literalChar).length + 1)
      = (letters ++ literalText text.toList).length := by
    simp [literalText, hletters]
    omega
  unfold Lexeme.quoted
  rw [hformatted, hbody, hraw, hquote, quotedBody_literalText]
  simp only [Bool.false_eq_true, if_false, String.ofList_toList, hlength]

/-- A text in its canonical spelling is cut off. -/
theorem Lexeme.tokenAt_str (text : String) (rest : List Char) :
    Lexeme.tokenAt '\'' (text.toList.flatMap literalChar ++ ['\''] ++ rest)
      = .ok ⟨some (.str text), (Token.str text).chars.length⟩ := by
  have hopening : LiteralOpening.ofText? (literalText text.toList ++ rest)
      = some ⟨⟨false, false, false⟩, 0, '\''⟩ := by
    have hletter : '\'' ∉ literalLetters := by decide
    have htwo : LiteralOpening.withLetters? (literalText text.toList ++ rest) 2 = none :=
      LiteralOpening.withLetters?_eq_none List.mem_cons_self hletter
    have hone : LiteralOpening.withLetters? (literalText text.toList ++ rest) 1 = none :=
      LiteralOpening.withLetters?_eq_none List.mem_cons_self hletter
    show ([2, 1, 0].findSome? _) = _
    rw [List.findSome?_cons, htwo, List.findSome?_cons, hone]
    rfl
  have hquoted := Lexeme.quoted_literal [] ⟨⟨false, false, false⟩, 0, '\''⟩ text rfl rfl rfl rfl rest
  unfold Lexeme.tokenAt
  rw [show LiteralOpening.ofText? ('\'' :: (text.toList.flatMap literalChar ++ ['\''] ++ rest))
    = some ⟨⟨false, false, false⟩, 0, '\''⟩ from hopening]
  exact hquoted

/-- A byte literal in its canonical spelling is cut off. -/
theorem Lexeme.tokenAt_bytes (text : String) (rest : List Char) :
    Lexeme.tokenAt 'b' (literalText text.toList ++ rest)
      = .ok ⟨some (.bytes text), (Token.bytes text).chars.length⟩ := by
  have hopening : LiteralOpening.ofText? ('b' :: (literalText text.toList ++ rest))
      = some ⟨⟨false, true, false⟩, 1, '\''⟩ := by
    have hletter : '\'' ∉ literalLetters := by decide
    have htwo : LiteralOpening.withLetters? ('b' :: (literalText text.toList ++ rest)) 2 = none :=
      LiteralOpening.withLetters?_eq_none (List.mem_cons_of_mem _ List.mem_cons_self) hletter
    show ([2, 1, 0].findSome? _) = _
    rw [List.findSome?_cons, htwo]
    rfl
  have hquoted := Lexeme.quoted_literal ['b'] ⟨⟨false, true, false⟩, 1, '\''⟩ text rfl rfl rfl rfl rest
  unfold Lexeme.tokenAt
  rw [hopening]
  exact hquoted

end CallSite
