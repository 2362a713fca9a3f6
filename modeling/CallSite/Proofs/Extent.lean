import CallSite.Proofs.Tiling

/-!
# Extent — raw and plain literals end at the same quote

A literal runs up to the first quote of its kind that no backslash protects, on its line; a
backslash takes the character behind it along, a quote or a line end too.  That is the same for raw
and for plain literals (`quotedBody_closed`, `quotedBody_open`), so letters in front of the quote
change what a literal stands for and never which characters belong to it (`literal_extent`).  A
closed literal alone is read to its token and the end of the text (`tokenize_literal`).
-/

namespace CallSite

/-! ## Bodies -/

/-- What may stand between the quotes of a literal: characters that are no such quote, no backslash
    and no line feed, and backslashes with any character behind them. -/
inductive LiteralBody (quote : Char) : List Char → Prop where
  | nil : LiteralBody quote []
  | plain {c : Char} {cs : List Char} (hquote : c ≠ quote) (hslash : c ≠ '\\') (hfeed : c ≠ '\n')
      (hmore : LiteralBody quote cs) : LiteralBody quote (c :: cs)
  | pair {c : Char} {cs : List Char} (hmore : LiteralBody quote cs) :
      LiteralBody quote ('\\' :: c :: cs)

/-- The characters that mean something behind a backslash, and what the two stand for. -/
def escapes : List (Char × List Char) :=
  [('n', ['\n']), ('t', ['\t']), ('r', ['\r']), ('0', ['\x00']), ('\\', ['\\']), ('\'', ['\'']),
    ('"', ['"']), ('\n', [])]

/-- A body with its backslashes decoded from left to right; what means nothing behind a backslash
    is kept together with it. -/
def decoded : List Char → List Char
  | '\\' :: c :: cs => (escapes.lookup c).getD ['\\', c] ++ decoded cs
  | c :: cs => c :: decoded cs
  | [] => []

/-- A pair in a plain literal stands for what the table says. -/
theorem pairText_plain (c : Char) : pairText false c = (escapes.lookup c).getD ['\\', c] := by
  by_cases hc : c ∈ escapes.map Prod.fst
  · have hall : (escapes.map Prod.fst).all
        (fun d => pairText false d == (escapes.lookup d).getD ['\\', d]) = true := by decide
    exact eq_of_beq (List.all_eq_true.mp hall c hc)
  · have hnone : escapes.lookup c = none := by
      refine List.lookup_eq_none_iff.mpr fun e he => bne_iff_ne.mpr ?_
      rintro rfl
      exact hc (List.mem_map_of_mem he)
    rw [hnone]
    simp only [escapes, List.map_cons, List.map_nil, List.mem_cons, List.not_mem_nil, or_false,
      not_or] at hc
    simp [pairText, hc]

theorem decoded_plain {c : Char} (hslash : c ≠ '\\') (cs : List Char) :
    decoded (c :: cs) = c :: decoded cs :=
  decoded.eq_2 c cs fun _ _ h _ => hslash h

/-- A character that is nothing special stands for itself. -/
theorem quotedBody_plain {quote c : Char} (hslash : c ≠ '\\') (hfeed : c ≠ '\n')
    (hquote : c ≠ quote) (raw : Bool) (cs : List Char) :
    quotedBody raw quote (c :: cs)
      = (quotedBody raw quote cs).map fun (text, size) => (c :: text, size + 1) := by
  rw [quotedBody.eq_4 _ _ _ _ (fun h _ => hslash h) (fun _ _ h _ => hslash h), if_neg hfeed,
    if_neg hquote]

/-- No quote is a backslash or a line feed. -/
theorem ne_of_isQuote {quote : Char} (h : isQuote quote = true) : quote ≠ '\\' ∧ quote ≠ '\n' := by
  simp only [isQuote, Bool.or_eq_true, beq_iff_eq] at h
  rcases h with rfl | rfl <;> decide

/-- A body is read up to the quote behind it.  Raw it stands for itself, plain for what it is decoded
    to. -/
theorem quotedBody_closed {quote : Char} (hquote : isQuote quote = true) {body : List Char}
    (h : LiteralBody quote body) (behind : List Char) :
    quotedBody true quote (body ++ quote :: behind) = .ok (body, body.length + 1)
      ∧ quotedBody false quote (body ++ quote :: behind) = .ok (decoded body, body.length + 1) := by
  obtain ⟨hslash, hfeed⟩ := ne_of_isQuote hquote
  induction h with
  | nil =>
      have hclose (raw : Bool) : quotedBody raw quote (quote :: behind) = .ok ([], 1) := by
        rw [quotedBody.eq_4 _ _ _ _ (fun h _ => hslash h) (fun _ _ h _ => hslash h), if_neg hfeed,
          if_pos rfl]
      exact ⟨hclose true, hclose false⟩
  | @plain c cs hne hslash' hfeed' _ ih =>
      obtain ⟨htrue, hfalse⟩ := ih
      rw [List.cons_append, quotedBody_plain hslash' hfeed' hne, quotedBody_plain hslash' hfeed' hne,
        htrue, hfalse, decoded_plain hslash']
      exact ⟨rfl, rfl⟩
  | @pair c cs _ ih =>
      obtain ⟨htrue, hfalse⟩ := ih
      rw [List.cons_append, List.cons_append, quotedBody, quotedBody, htrue, hfalse]
      refine ⟨rfl, ?_⟩
      show Except.ok (pairText false c ++ decoded cs, _) = Except.ok (decoded ('\\' :: c :: cs), _)
      rw [pairText_plain]
      rfl

/-- Where no body is closed, both readings fail alike: at the end of the line or of the text, or
    behind a backslash at the end of the text. -/
theorem quotedBody_open (quote : Char) (cs : List Char) :
    (∃ body behind, cs = body ++ quote :: behind ∧ LiteralBody quote body)
      ∨ (∀ raw, quotedBody raw quote cs = .error .unterminatedString)
      ∨ ∀ raw, quotedBody raw quote cs = .error .unterminatedEscape := by
  fun_induction quotedBody true quote cs with
  | case1 => exact Or.inr (Or.inl fun _ => rfl)
  | case2 => exact Or.inr (Or.inr fun _ => rfl)
  | case3 c cs ih =>
      rcases ih with ⟨body, behind, rfl, hbody⟩ | hstring | hescape
      · exact Or.inl ⟨'\\' :: c :: body, behind, rfl, .pair hbody⟩
      · refine Or.inr (Or.inl fun raw => ?_)
        rw [quotedBody, hstring]
        rfl
      · refine Or.inr (Or.inr fun raw => ?_)
        rw [quotedBody, hescape]
        rfl
  | case4 cs hlast hpair => exact Or.inr (Or.inl fun _ => rfl)
  | case5 cs hlast hpair hfeed => exact Or.inl ⟨[], cs, rfl, .nil⟩
  | case6 c cs hlast hpair hfeed hquote ih =>
      have hslash : c ≠ '\\' := by
        rintro rfl
        cases cs with
        | nil => exact hlast rfl rfl
        | cons d ds => exact hpair d ds rfl rfl
      rcases ih with ⟨body, behind, rfl, hbody⟩ | hstring | hescape
      · exact Or.inl ⟨c :: body, behind, rfl, .plain hquote hslash hfeed hbody⟩
      · refine Or.inr (Or.inl fun raw => ?_)
        rw [quotedBody_plain hslash hfeed hquote, hstring]
        rfl
      · refine Or.inr (Or.inr fun raw => ?_)
        rw [quotedBody_plain hslash hfeed hquote, hescape]
        rfl

/-! ## Literals -/

/-- A front of a text is cut off as a token wherever the text stands, and the text goes on behind
    it. -/
def CutsOff (front behind : List Char) (tok : Token) : Prop :=
  ∀ pos : Position, tokensFrom 0 pos (front ++ behind)
    = (tokensFrom 0 (pos.after front) behind).map (⟨tok, pos⟩ :: ·)

/-- A text is refused wherever it stands, and the character behind its front is blamed. -/
def RefusedBehind (front behind : List Char) (fault : Fault) : Prop :=
  ∀ pos : Position, tokensFrom 0 pos (front ++ behind) = .error ⟨fault, pos.after front⟩

/-- The token of a literal. -/
def literalToken (bytes : Bool) (cs : List Char) : Token :=
  if bytes then .bytes (String.ofList cs) else .str (String.ofList cs)

/-- The letters announce a literal that is not formatted. -/
def Announces (letters : List Char) (raw bytes : Bool) : Prop :=
  LiteralKind.ofLetters? (letters.map Char.toLower) = some ⟨raw, bytes, false⟩

namespace Announces

variable {letters : List Char} {raw bytes : Bool} {quote : Char}

/-- Letters in front of a quote open a literal. -/
theorem opening (h : Announces letters raw bytes) (hquote : isQuote quote = true) (cs : List Char) :
    LiteralOpening.ofText? (letters ++ quote :: cs)
      = some ⟨⟨raw, bytes, false⟩, letters.length, quote⟩ := by
  rw [LiteralOpening.ofText?_eq_some_iff]
  exact ⟨letters, cs, rfl, rfl, hquote, h⟩

/-- No gap opens with a letter of literals or a quote. -/
theorem gapSize (h : Announces letters raw bytes) (hquote : isQuote quote = true) (cs : List Char) :
    gapSize (letters ++ quote :: cs) = 0 := by
  cases letters with
  | nil =>
      simp only [isQuote, Bool.or_eq_true, beq_iff_eq] at hquote
      rcases hquote with rfl | rfl <;> rfl
  | cons c letters =>
      have hmem : c ∈ literalLetters :=
        mem_literalLetters (ofLetters?_eq_some h _ (List.mem_map_of_mem List.mem_cons_self))
      have hall : literalLetters.all (fun c => !isBlank c && c != '\\' && c != '#') = true := by
        decide
      have hc := List.all_eq_true.mp hall c hmem
      simp only [Bool.and_eq_true, Bool.not_eq_true', bne_iff_ne] at hc
      exact gapSize_eq_zero hc.1.1 hc.1.2 hc.2

/-- Where letters announce a literal in front of a quote, the literal is what is cut off. -/
theorem ofText (h : Announces letters raw bytes) (hquote : isQuote quote = true) {c : Char}
    {ds cs : List Char} (hcs : letters ++ quote :: cs = c :: ds) :
    Lexeme.ofText c ds
      = Lexeme.quoted ⟨⟨raw, bytes, false⟩, letters.length, quote⟩ (c :: ds) := by
  have hgap := h.gapSize hquote cs
  have hopening := h.opening hquote cs
  rw [hcs] at hgap hopening
  unfold Lexeme.ofText
  rw [hgap]
  show Lexeme.tokenAt c ds = _
  unfold Lexeme.tokenAt
  rw [hopening]

/-- Behind the letters and the quote stands the body. -/
theorem drop_opening (letters : List Char) (quote : Char) (cs : List Char) :
    (letters ++ quote :: cs).drop (letters.length + 1) = cs := by
  rw [← List.drop_drop, List.drop_left]
  rfl

/-- A literal whose body is closed is cut off up to its quote. -/
theorem cutsOff (h : Announces letters raw bytes) (hquote : isQuote quote = true)
    {body value behind : List Char}
    (hbody : quotedBody raw quote (body ++ quote :: behind) = .ok (value, body.length + 1)) :
    CutsOff (letters ++ quote :: (body ++ [quote])) behind (literalToken bytes value) := by
  intro pos
  obtain ⟨c, ds, hcs⟩ : ∃ c ds, letters ++ quote :: (body ++ [quote]) = c :: ds :=
    List.exists_cons_of_ne_nil (by simp)
  have htext : letters ++ quote :: (body ++ quote :: behind) = c :: (ds ++ behind) := by
    show _ = c :: ds ++ behind
    rw [← hcs]
    simp
  have hcut : Lexeme.ofText c (ds ++ behind)
      = .ok ⟨some (literalToken bytes value), (c :: ds).length⟩ := by
    rw [h.ofText hquote htext, ← htext, ← hcs]
    unfold Lexeme.quoted
    have hsize : (letters ++ quote :: (body ++ [quote])).length
        = letters.length + 1 + (body.length + 1) := by
      simp only [List.length_append, List.length_cons, List.length_nil]
      omega
    simp only [drop_opening, hbody, hsize, Bool.false_eq_true, if_false, literalToken]
  rw [hcs]
  exact tokensFrom_cut hcut pos

/-- A closed literal is cut off.  Raw it stands for the characters of its body, plain for what they
    are decoded to. -/
theorem cutsOff_closed (h : Announces letters raw bytes) (hquote : isQuote quote = true)
    {body : List Char} (hbody : LiteralBody quote body) (behind : List Char) :
    CutsOff (letters ++ quote :: (body ++ [quote])) behind
      (literalToken bytes (if raw then body else decoded body)) := by
  obtain ⟨hraw, hplain⟩ := quotedBody_closed hquote hbody behind
  cases raw with
  | true => exact h.cutsOff hquote hraw
  | false => exact h.cutsOff hquote hplain

/-- A literal that is not cut off is refused where the blame lies. -/
theorem refusedBehind (h : Announces letters raw bytes) (hquote : isQuote quote = true)
    {cs front behind : List Char} (hcs : quote :: cs = front ++ behind) {fault : Fault}
    (hfault : Lexeme.quoted ⟨⟨raw, bytes, false⟩, letters.length, quote⟩ (letters ++ quote :: cs)
      = .error ⟨fault, (letters ++ front).length⟩) :
    RefusedBehind (letters ++ front) behind fault := by
  intro pos
  obtain ⟨c, ds, htext⟩ : ∃ c ds, letters ++ quote :: cs = c :: ds :=
    List.exists_cons_of_ne_nil (by simp)
  have hcut := h.ofText hquote htext
  rw [← htext, hfault] at hcut
  have hfront : (c :: ds).take (letters ++ front).length = letters ++ front := by
    rw [← htext, hcs, ← List.append_assoc, List.take_left]
  rw [List.append_assoc, ← hcs, htext, tokensFrom, hcut]
  show Except.error (⟨fault, pos.after ((c :: ds).take (letters ++ front).length)⟩ : ParseError) = _
  rw [hfront]

/-- A literal whose line or text ends is blamed on its quote. -/
theorem refused_string (h : Announces letters raw bytes) (hquote : isQuote quote = true)
    {cs : List Char} (hbody : quotedBody raw quote cs = .error .unterminatedString) :
    RefusedBehind (letters ++ []) (quote :: cs) .unterminatedString := by
  refine h.refusedBehind hquote rfl ?_
  simp [Lexeme.quoted, hbody]

/-- A literal that ends behind a backslash is blamed on the end of the text. -/
theorem refused_escape (h : Announces letters raw bytes) (hquote : isQuote quote = true)
    {cs : List Char} (hbody : quotedBody raw quote cs = .error .unterminatedEscape) :
    RefusedBehind (letters ++ quote :: cs) [] .unterminatedEscape := by
  refine h.refusedBehind hquote (List.append_nil _).symm ?_
  simp [Lexeme.quoted, hbody]

end Announces

/-- The canonical literal of a text is cut off and stands for the text. -/
theorem cutsOff_literalText (text : String) (behind : List Char) :
    CutsOff (literalText text.toList) behind (.str text) := by
  have hplain : Announces [] false false := rfl
  have hcut : CutsOff ([] ++ '\'' :: (text.toList.flatMap literalChar ++ ['\''])) behind
      (literalToken false text.toList) :=
    hplain.cutsOff rfl (quotedBody_literalText text.toList behind)
  rwa [literalToken, String.ofList_toList] at hcut

/-- Raw and plain literals have the same extent.  In front of the same characters, letters that make
    a literal raw and letters that do not have either the same body behind them, of which the raw
    literal keeps the characters and the plain one what they are decoded to, or no body at all, and
    then both literals are refused for the same reason and at the same place.  The canonical literal
    of a text stands for the text. -/
theorem literal_extent :
    (∀ {quote : Char} {cs raw plain : List Char} {bytes bytes' : Bool},
      isQuote quote = true → Announces raw true bytes → Announces plain false bytes' →
        (∃ body behind, cs = body ++ quote :: behind ∧ LiteralBody quote body
          ∧ CutsOff (raw ++ quote :: (body ++ [quote])) behind (literalToken bytes body)
          ∧ CutsOff (plain ++ quote :: (body ++ [quote])) behind
            (literalToken bytes' (decoded body)))
        ∨ ((∀ body behind, cs = body ++ quote :: behind → ¬ LiteralBody quote body)
          ∧ ∃ fault front behind, quote :: cs = front ++ behind
            ∧ RefusedBehind (raw ++ front) behind fault
            ∧ RefusedBehind (plain ++ front) behind fault))
      ∧ ∀ (text : String) (behind : List Char),
        CutsOff (literalText text.toList) behind (.str text) := by
  constructor
  · intro quote cs raw plain bytes bytes' hquote hraw hplain
    -- where reading fails there is no body, since a body is read
    have hnone {fault : Fault} (h : ∀ raw, quotedBody raw quote cs = .error fault) :
        ∀ body behind, cs = body ++ quote :: behind → ¬ LiteralBody quote body := by
      rintro body behind rfl hbody
      exact absurd ((h true).symm.trans (quotedBody_closed hquote hbody behind).1) nofun
    rcases quotedBody_open quote cs with ⟨body, behind, rfl, hbody⟩ | hstring | hescape
    · exact Or.inl ⟨body, behind, rfl, hbody, hraw.cutsOff_closed hquote hbody behind,
        hplain.cutsOff_closed hquote hbody behind⟩
    · exact Or.inr ⟨hnone hstring, _, [], _, rfl, hraw.refused_string hquote (hstring true),
        hplain.refused_string hquote (hstring false)⟩
    · exact Or.inr ⟨hnone hescape, _, _, [], (List.append_nil _).symm,
        hraw.refused_escape hquote (hescape true), hplain.refused_escape hquote (hescape false)⟩
  · exact cutsOff_literalText

/-- A quote behind a backslash does not close the literal, raw or plain, and a pair of backslashes in
    front of a quote does not protect it. -/
theorem literal_extent_escapedQuote :
    let body := ['a', '\\', '\'', '\\', 'n', '\\', '\\']
    let cs := body ++ ['\'', 'n', '\'']
    isQuote '\'' = true ∧ Announces ['R', 'b'] true true ∧ Announces [] false false
      ∧ LiteralBody '\'' body ∧ decoded body = ['a', '\'', '\n', '\\']
      ∧ (∃ body behind, cs = body ++ '\'' :: behind ∧ LiteralBody '\'' body
        ∧ CutsOff (['R', 'b'] ++ '\'' :: (body ++ ['\''])) behind (literalToken true body)
        ∧ CutsOff ([] ++ '\'' :: (body ++ ['\''])) behind (literalToken false (decoded body)))
      ∧ CutsOff (literalText "it's".toList) [] (.str "it's") := by
  intro body cs
  have hbody : LiteralBody '\'' body :=
    .plain (by decide) (by decide) (by decide) (.pair (.pair (.pair .nil)))
  have hquote : isQuote '\'' = true := rfl
  have hraw : Announces ['R', 'b'] true true := rfl
  have hplain : Announces [] false false := rfl
  refine ⟨hquote, hraw, hplain, hbody, rfl, ?_, literal_extent.2 "it's" []⟩
  exact (literal_extent.1 hquote hraw hplain).resolve_right
    fun h => h.1 body ['n', '\''] rfl hbody

/-! ## Literals alone -/

/-- Where a whole text is cut off as a token, it is read to the token and its end. -/
theorem tokenize_of_cutsOff {cs : List Char} {tok : Token} (h : CutsOff cs [] tok) :
    tokenize (String.ofList cs) = .ok [⟨tok, .start⟩, ⟨.eof, Position.start.after cs⟩] := by
  have hread := h .start
  rw [List.append_nil] at hread
  rw [tokenize, String.toList_ofList, hread, tokensFrom]
  rfl

/-- A closed literal alone is read, raw as the characters between its quotes and plain as what they
    are decoded to. -/
theorem tokenize_literal {letters body : List Char} {raw bytes : Bool} {quote : Char}
    (h : Announces letters raw bytes) (hquote : isQuote quote = true)
    (hbody : LiteralBody quote body) :
    let literal := letters ++ quote :: (body ++ [quote])
    tokenize (String.ofList literal)
      = .ok [⟨literalToken bytes (if raw then body else decoded body), .start⟩,
          ⟨.eof, Position.start.after literal⟩] :=
  tokenize_of_cutsOff (h.cutsOff_closed hquote hbody [])

/-- The canonical literal of a text is read as the text. -/
theorem tokenize_literalText (text : String) :
    tokenize (String.ofList (literalText text.toList))
      = .ok [⟨.str text, .start⟩, ⟨.eof, Position.start.after (literalText text.toList)⟩] :=
  tokenize_of_cutsOff (cutsOff_literalText text [])

end CallSite
