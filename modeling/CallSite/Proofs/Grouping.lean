import CallSite.Proofs.Gauge
import CallSite.Proofs.Joining
import CallSite.Proofs.RoundTrip

/-!
# Groups — parentheses around a whole text

Parentheses around an expression change nothing but the depth at which it is read.  Each pair takes
one level: tokens between parentheses are derived with one level more than without them, and not
with less (`derives_grouped_iff`).  So with `n` pairs a text is read as before as long as its peak
and `n` together stay within `maxNesting`, and is refused as nested too deeply beyond
(`ofSource_grouped`).

For the refusal the parser is run on the opening parenthesis.  What it reads behind it with too
little depth is either what it reads with enough, or a complaint.
-/

namespace CallSite

open CallSite.Parser CallSite.Grammar

/-! ## Tokens between parentheses -/

/-- Tokens with so many pairs of parentheses around them. -/
def grouped (n : Nat) (ts : List Token) : List Token :=
  List.replicate n (.mark .leftParen) ++ ts ++ List.replicate n (.mark .rightParen)

theorem grouped_zero (ts : List Token) : grouped 0 ts = ts := by
  simp [grouped]

theorem grouped_succ (n : Nat) (ts : List Token) :
    grouped (n + 1) ts = .mark .leftParen :: grouped n ts ++ [.mark .rightParen] := by
  rw [grouped, grouped, List.replicate_succ, List.replicate_succ']
  simp

theorem ne_eof_of_grouped (n : Nat) {ts : List Token} (hts : ∀ tok ∈ ts, tok ≠ .eof) :
    ∀ tok ∈ grouped n ts, tok ≠ .eof := by
  intro tok htok
  rcases List.mem_append.mp htok with htok | htok
  · rcases List.mem_append.mp htok with htok | htok
    · rw [List.eq_of_mem_replicate htok]
      exact nofun
    · exact hts tok htok
  · rw [List.eq_of_mem_replicate htok]
    exact nofun

/-- There is one way to get from a cursor to another. -/
theorem Cursor.Reads.unique {c m : Cursor} {ts us : List Token} (hts : c.Reads ts m)
    (hus : c.Reads us m) : ts = us := by
  have hlength : ts.length = us.length := by
    have := hts.length
    have := hus.length
    omega
  induction ts generalizing c us with
  | nil => exact (List.eq_nil_of_length_eq_zero hlength.symm).symm
  | cons tok ts ih =>
      cases us with
      | nil => exact absurd hlength nofun
      | cons tok' us =>
          obtain ⟨-, htok, hts⟩ := hts
          obtain ⟨-, htok', hus⟩ := hus
          rw [← htok, ← htok', ih hts hus (Nat.succ.inj hlength)]

theorem Grammar.Derives.add {n p : Nat} {ts : List Token} {t : Node} (h : Derives n p ts t)
    (more : Nat) : Derives (n + more) p ts t := by
  induction more with
  | zero => exact h
  | succ more ih => exact ih.succ

/-- Parentheses around what is derived take one level. -/
theorem derives_group {n : Nat} {ts : List Token} {t : Node} (h : Derives n 0 ts t) :
    Derives (n + 1) 0 (.mark .leftParen :: ts ++ [.mark .rightParen]) t :=
  Phrase.looser (.operand (.atom (.group h))) (Nat.zero_le _)

/-- An item that is read behind an opening parenthesis is what it is read as with more depth. -/
theorem displayItem_deeper {depth more : Nat} {c m m' : Cursor} {ts : List Token} {t first : Node}
    (ht : Derives (depth + more) 0 ts t) (hc : c.Reads ts m) (hm : Follows 0 m.token)
    (hread : displayItem (climb (operand depth)) c = .ok first m') : Derives depth 0 ts t := by
  have hdeeper := displayItem_complete (operand_recognizes (depth + more)) (.plain ht) hc hm
  have hshallower : Shallower (displayItem (climb (operand depth)))
      (displayItem (climb (operand (depth + more)))) :=
    Alike.shallower <| alike_displayItem sameCursor_eq
      fun p => alike_climb sameCursor_eq (alike_operand_add depth more) p
  rcases hshallower c with heq | ⟨pos, c', hcomplaint⟩
  · rw [heq, hdeeper] at hread
    cases hread
    obtain ⟨us, hus, hitem⟩ := displayItem_sound (operand_recognizes depth) (heq.trans hdeeper)
    obtain rfl := hc.unique hus
    cases hitem with
    | plain ht => exact ht
    | starred _ => exact absurd rfl (ht.unstarred _)
  · rw [hcomplaint] at hread
    cases hread

/-- Every list of tokens stands in front of some end of a text. -/
theorem exists_reads {ts : List Token} (h : ∀ tok ∈ ts, tok ≠ .eof) :
    ∃ c c' : Cursor, c.Reads ts c' ∧ c'.token = .eof := by
  have hall : ∀ x ∈ ts.map (Located.mk · .start), x.value ≠ .eof := List.forall_mem_map.mpr h
  have hvalues : (ts.map (Located.mk · .start)).map Located.value = ts := by
    rw [List.map_map]
    exact List.map_id ts
  have hreads := @Cursor.reads_of_rest _ [] .start hall
  rw [hvalues] at hreads
  exact ⟨_, _, hreads, rfl⟩

/-- What is derived between parentheses is derived without them with one level less, if it is
    derived at all. -/
theorem derives_of_group {depth n : Nat} {ts : List Token} {t u : Node}
    (hts : ∀ tok ∈ ts, tok ≠ .eof) (ht : Derives n 0 ts t)
    (h : Derives (depth + 1) 0 (.mark .leftParen :: ts ++ [.mark .rightParen]) u) :
    Derives depth 0 ts t := by
  obtain ⟨c, c', hreads, hend⟩ := exists_reads (ne_eof_of_grouped 1 hts)
  rw [grouped_succ, grouped_zero] at hreads
  have hfollows : Follows 0 c'.token := hend ▸ follows_of_none rfl rfl 0
  have hrun := (operand_recognizes (depth + 1)).complete (Nat.zero_le _) h hreads hfollows
  obtain ⟨-, hopen, hreads⟩ := hreads
  obtain ⟨m, hinner, -, hclose, -⟩ := Cursor.reads_append.mp hreads
  -- the run comes by the item behind the opening parenthesis
  obtain ⟨left, m₁, hunary, -⟩ := bind_eq_ok.mp hrun
  have hprimary : primary (climb (operand depth)) c = .ok left m₁ := by
    have : unary (climb (operand depth)) 0 c = .ok left m₁ := hunary
    rwa [unary, peek_bind, hopen] at this
  obtain ⟨a, m₂, hatom, -⟩ := bind_eq_ok.mp hprimary
  have hparen : parenthesized (climb (operand depth)) c.next = .ok a m₂ := by
    rwa [atom, peek_bind, hopen] at hatom
  have hne : c.next.token ≠ .mark .rightParen :=
    Item.token_ne_close (operand_recognizes n) (.plain ht) hinner
  simp only [parenthesized] at hparen
  rw [bind_of_ok (eat_of_ne hne)] at hparen
  obtain ⟨first, m₃, hitem, -⟩ := bind_eq_ok.mp hparen
  have hdeep : Derives (depth + n) 0 ts t := Nat.add_comm n depth ▸ ht.add depth
  exact displayItem_deeper hdeep hinner
    (follows_of_comma_or (Or.inl rfl) (Or.inr hclose)) hitem

theorem derives_grouped {depth : Nat} {ts : List Token} {t : Node} (h : Derives depth 0 ts t)
    (n : Nat) : Derives (depth + n) 0 (grouped n ts) t := by
  induction n with
  | zero =>
      rw [grouped_zero]
      exact h
  | succ n ih =>
      rw [grouped_succ]
      exact derives_group ih

/-- Each pair of parentheses takes one level. -/
theorem derives_grouped_iff {depth d : Nat} {ts : List Token} {t : Node}
    (hts : ∀ tok ∈ ts, tok ≠ .eof) (ht : Derives d 0 ts t) (n : Nat) :
    Derives depth 0 (grouped n ts) t ↔ Derives (depth - n) 0 ts t := by
  induction n generalizing depth with
  | zero =>
      rw [grouped_zero]
      exact Iff.rfl
  | succ n ih =>
      rw [grouped_succ]
      cases depth with
      | zero =>
          rw [Nat.zero_sub]
          exact Iff.rfl
      | succ depth =>
          rw [Nat.succ_sub_succ, ← ih]
          constructor
          · exact derives_of_group (ne_eof_of_grouped n hts) (derives_grouped ht n)
          · exact derives_group

/-! ## Texts between parentheses -/

/-- A text in a line of its own behind so many opening parentheses, and as many closing ones. -/
def groupedText (n : Nat) (src : String) : String :=
  String.ofList (List.replicate n '(') ++ src ++ "\n" ++ String.ofList (List.replicate n ')')

/-- A mark of one character that is no part of a longer one may be repeated. -/
theorem Lexes.replicate {m : Mark} {c : Char} {rest : List Char} {ts : List Token}
    (h : Lexes rest ts) (hm : Piece.isQuiet m = true) (hc : m.chars = [c]) (n : Nat) :
    Lexes (List.replicate n c ++ rest) (List.replicate n (.mark m) ++ ts) := by
  induction n with
  | zero => exact h
  | succ n ih =>
      have hmark : (Token.mark m).Legible := trivial
      have hcut := ih.token hmark fun c _ => Piece.runsInto_quiet hm c
      rw [show (Token.mark m).chars = [c] from hc] at hcut
      exact hcut

/-- The tokens of a text between parentheses are those of the text between theirs. -/
theorem lexes_groupedText {src : String} {own : List (Located Token)} {stop : Position}
    (h : tokenize src = .ok (own ++ [⟨.eof, stop⟩])) (n : Nat) :
    Lexes (groupedText n src).toList (grouped n (own.map Located.value)) := by
  have hclosing : Lexes (List.replicate n ')') (List.replicate n (.mark .rightParen)) := by
    simpa using lexes_nil.replicate (m := .rightParen) rfl rfl n
  have hinner := (lexes_of_tokensFrom h).joined hclosing
  have := hinner.replicate (m := .leftParen) rfl rfl n
  simpa [groupedText, grouped] using this

namespace Node

/-- How many operands are open at once when the tree of a text is read. -/
def peakOf (src : String) : Nat :=
  match tokenize src with
  | .ok tokens => Gauge.peakOf tokens
  | .error _ => 0

/-- Parentheses around a text that is an expression give the same tree, as long as there are no more
    of them than `maxNesting` leaves above the peak of the text.  With more of them the text is
    refused, and the fault is its nesting. -/
theorem ofSource_grouped {src : String} {t : Node} (h : ofSource src = .ok t) (n : Nat) :
    (n + peakOf src ≤ maxNesting → ofSource (groupedText n src) = .ok t)
      ∧ (maxNesting < n + peakOf src → ∃ e, ofSource (groupedText n src) = .error e
        ∧ e.fault.message = "expression nested too deeply") := by
  obtain ⟨own, stop, htokens, hlexed, hderives⟩ := ofSource_eq_ok.mp h
  have hown : ∀ tok ∈ own.map Located.value, tok ≠ .eof :=
    List.forall_mem_map.mpr fun x hx => (hlexed x hx).ne_eof
  obtain ⟨located, stop', hcut, hvalues⟩ := lexes_groupedText htokens n .start
  have hgrouped : ∀ x ∈ located, x.value ≠ .eof := by
    intro x hx
    exact ne_eof_of_grouped n hown _ (hvalues ▸ List.mem_map_of_mem hx)
  have hsource : ofSource (groupedText n src) = complete.onTokens (located ++ [⟨.eof, stop'⟩]) := by
    rw [ofSource, tokenize, hcut]
    rfl
  -- the text is read with the depths that the parentheses leave, if its peak is among them
  have hpeak {limit : Nat} (hlimit : limit ≤ maxNesting) :
      Derives limit 0 (own.map Located.value) t ↔ peakOf src ≤ limit := by
    have hread : complete.onTokens (own ++ [⟨.eof, stop⟩]) = .ok t :=
      (completeWithin_iff maxNesting fun x hx => (hlexed x hx).ne_eof).mpr hderives
    rw [peakOf, htokens, ← completeWithin_iff limit fun x hx => (hlexed x hx).ne_eof]
    exact Gauge.peak_le_iff hread hlimit
  have hread : ofSource (groupedText n src) = .ok t ↔ n + peakOf src ≤ maxNesting := by
    rw [hsource]
    refine (completeWithin_iff maxNesting hgrouped).trans ?_
    rw [hvalues, derives_grouped_iff hown hderives, hpeak (Nat.sub_le ..)]
    have hpos : ¬ peakOf src ≤ 0 := fun hzero => ((hpeak (Nat.zero_le _)).mpr hzero).elim
    omega
  refine ⟨hread.mpr, fun hlt => ?_⟩
  -- with depth enough for all of it the text is read, so with less it can only be too deep
  have hdeeper : (completeWithin (maxNesting + n)).onTokens (located ++ [⟨.eof, stop'⟩]) = .ok t :=
    (completeWithin_iff _ hgrouped).mpr (hvalues ▸ derives_grouped hderives n)
  rcases completeWithin_of_deeper hdeeper with hok | ⟨pos, herror⟩
  · have := hread.mp (hsource.trans hok)
    omega
  · exact ⟨_, hsource.trans herror, rfl⟩

/-- Two operands are open in a negation, so ninety-eight pairs of parentheses fit around it. -/
theorem ofSource_grouped_neg :
    ofSource "-a" = .ok (.unary .neg (.name "a")) ∧ peakOf "-a" = 2
      ∧ ofSource (groupedText 98 "-a") = .ok (.unary .neg (.name "a"))
      ∧ ∃ e, ofSource (groupedText 99 "-a") = .error e
        ∧ e.fault.message = "expression nested too deeply" := by
  have htokens : tokenize "-a" = .ok [⟨.mark .minus, ⟨1, 1⟩⟩, ⟨.ident "a", ⟨1, 2⟩⟩,
      ⟨.eof, ⟨1, 3⟩⟩] := by
    decide +kernel
  have hread : ofSource "-a" = .ok (.unary .neg (.name "a")) := by
    rw [ofSource, htokens]
    rfl
  have hpeak : peakOf "-a" = 2 := by
    rw [peakOf, htokens]
    rfl
  refine ⟨hread, hpeak, (ofSource_grouped hread 98).1 ?_, (ofSource_grouped hread 99).2 ?_⟩
  · rw [hpeak]
    decide
  · rw [hpeak]
    decide

end Node

end CallSite
