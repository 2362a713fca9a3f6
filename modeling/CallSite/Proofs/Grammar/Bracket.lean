import Mathlib.Logic.Basic
import CallSite.Proofs.Grammar

/-!
# Brackets — the readers of bracketed text recognize their rules

`Recognizes sub inner` says that the readers `sub` of nested operands read the languages `inner`:
soundly, up to where no operator of the level can follow, and completely in front of every token
that cannot go on with the operand.  From this each reader of bracketed text is shown to read its
rule of the grammar, soundly and completely.
-/

namespace CallSite

open Grammar

/-! ## The tokens around an operand -/

/-- The tokens with which an operand may begin. -/
def Token.begins : Token → Bool
  | .word .andWord | .word .orWord | .word .lambdaWord | .eof => false
  | .mark m =>
    match m with
    | .leftParen | .leftBracket | .leftBrace | .ellipsis | .plus | .minus | .tilde => true
    | _ => false
  | _ => true

/-- The tokens that do not go on with an operand that is read. -/
def Token.closes : Token → Bool
  | .str _ | .mark .dot | .mark .leftParen | .mark .leftBracket => false
  | _ => true

/-- A token is no operator of this precedence or a greater one. -/
def Below (p : Nat) (tok : Token) : Prop :=
  ∀ op, BinaryOp.ofToken? tok = some op → op.precedence < p

/-- A token may follow a phrase of this level. -/
structure Follows (p : Nat) (tok : Token) : Prop where
  below : Below p tok
  closes : tok.closes = true

theorem Below.mono {p q : Nat} {tok : Token} (h : Below p tok) (hpq : p ≤ q) : Below q tok :=
  fun op hop => Nat.lt_of_lt_of_le (h op hop) hpq

theorem Follows.mono {p q : Nat} {tok : Token} (h : Follows p tok) (hpq : p ≤ q) :
    Follows q tok := ⟨h.below.mono hpq, h.closes⟩

/-- A token that is no operator is below every level. -/
theorem below_of_none {tok : Token} (h : BinaryOp.ofToken? tok = none) (p : Nat) : Below p tok :=
  fun _ hop => absurd (h.symm.trans hop) nofun

/-- A token that is no operator may follow a phrase of any level. -/
theorem follows_of_none {tok : Token} (h : BinaryOp.ofToken? tok = none)
    (hcloses : tok.closes = true) (p : Nat) : Follows p tok := ⟨below_of_none h p, hcloses⟩

/-- A text opens like an operand: its first token begins one, and no equals sign comes next. -/
def Opens (ts : List Token) : Prop :=
  ∃ tok rest, ts = tok :: rest ∧ tok.begins = true ∧ rest.head? ≠ some (.mark .assign)

theorem Opens.append {ts us : List Token} (h : Opens ts)
    (hus : us.head? ≠ some (.mark .assign)) : Opens (ts ++ us) := by
  obtain ⟨tok, rest, rfl, hbegins, hrest⟩ := h
  refine ⟨tok, rest ++ us, rfl, hbegins, ?_⟩
  cases rest with
  | nil => exact hus
  | cons u rest => exact hrest

/-- What opens like an operand begins with no equals sign. -/
theorem Opens.head {ts : List Token} (h : Opens ts) :
    ∃ tok rest, ts = tok :: rest ∧ tok ≠ .mark .assign := by
  obtain ⟨tok, rest, rfl, hbegins, -⟩ := h
  refine ⟨tok, rest, rfl, ?_⟩
  rintro rfl
  exact absurd hbegins (by decide)

theorem Opens.head_ne_assign {ts : List Token} (h : Opens ts) :
    ts.head? ≠ some (.mark .assign) := by
  obtain ⟨tok, rest, rfl, htok⟩ := h.head
  simpa using htok

/-- Where an operand is read, no token stands that begins none. -/
theorem Opens.token_ne {ts : List Token} (h : Opens ts) {c c' : Cursor} (hc : c.Reads ts c')
    {tok : Token} (htok : tok.begins = false) : c.token ≠ tok := by
  obtain ⟨first, rest, rfl, hbegins, -⟩ := h
  rintro rfl
  rw [hc.2.1, hbegins] at htok
  exact absurd htok nofun

/-- A text that does not begin with a unary operator. -/
def Unsigned (ts : List Token) : Prop := ∃ tok rest, ts = tok :: rest ∧ UnaryOp.ofToken? tok = none

theorem Unsigned.append {ts us : List Token} (h : Unsigned ts) : Unsigned (ts ++ us) := by
  obtain ⟨tok, rest, rfl, htok⟩ := h
  exact ⟨tok, rest ++ us, rfl, htok⟩

theorem Unsigned.ofToken?_eq_none {ts : List Token} (h : Unsigned ts) {c c' : Cursor}
    (hc : c.Reads ts c') : UnaryOp.ofToken? c.token = none := by
  obtain ⟨tok, rest, rfl, htok⟩ := h
  rw [hc.2.1, htok]

namespace Grammar

variable {inner : Nat → Language Node}

/-- A row begins with no equals sign, and neither does the mark behind it. -/
theorem Row.head_ne_assign {α : Type} {item : Language α} {ts : List Token} {as : List α}
    (h : Row item ts as)
    (hitem : ∀ ts a, item ts a → ∃ tok rest, ts = tok :: rest ∧ tok ≠ .mark .assign)
    (m : Mark) (hm : m ≠ .assign) : (ts ++ [Token.mark m]).head? ≠ some (.mark .assign) := by
  cases h with
  | none => simpa using hm
  | last ha =>
      obtain ⟨tok, rest, rfl, htok⟩ := hitem _ _ ha
      simpa using htok
  | more ha _ =>
      obtain ⟨tok, rest, rfl, htok⟩ := hitem _ _ ha
      simpa using htok

theorem Item.head {ts : List Token} {t : Node}
    (hinner : ∀ p ts t, inner p ts t → Opens ts) (h : Item inner ts t) :
    ∃ tok rest, ts = tok :: rest ∧ tok ≠ .mark .assign := by
  cases h with
  | plain ht => exact (hinner _ _ _ ht).head
  | starred _ => exact ⟨_, _, rfl, nofun⟩

theorem EntryText.head {ts : List Token} {e : Entry Node}
    (hinner : ∀ p ts t, inner p ts t → Opens ts) (h : EntryText inner ts e) :
    ∃ tok rest, ts = tok :: rest ∧ tok ≠ .mark .assign := by
  cases h with
  | item hk _ => exact ((hinner _ _ _ hk).append (by simp)).head
  | unpacked _ => exact ⟨_, _, rfl, nofun⟩

theorem Atom.opens {ts : List Token} {t : Node}
    (hinner : ∀ p ts t, inner p ts t → Opens ts) (h : Atom inner ts t) : Opens ts := by
  cases h with
  | name id => exact ⟨_, [], rfl, rfl, by simp⟩
  | constant value hvalue =>
      refine ⟨_, [], rfl, ?_, by simp⟩
      cases value with
      | bool b => cases b <;> rfl
      | _ => rfl
  | texts parts hparts =>
      cases parts with
      | nil => exact absurd rfl hparts
      | cons text parts =>
          refine ⟨.str text, parts.map .str, rfl, rfl, ?_⟩
          cases parts <;> simp
  | group ht => exact ⟨_, _, rfl, rfl, ((hinner _ _ _ ht).append (by simp)).head_ne_assign⟩
  | unit => exact ⟨_, _, rfl, rfl, by simp⟩
  | tuple ht hmore =>
      exact ⟨_, _, rfl, rfl,
        Row.head_ne_assign (.more ht hmore) (fun _ _ => Item.head hinner) _ (by decide)⟩
  | list hitems =>
      exact ⟨_, _, rfl, rfl, hitems.head_ne_assign (fun _ _ => Item.head hinner) _ (by decide)⟩
  | dict hentries =>
      exact ⟨_, _, rfl, rfl,
        hentries.head_ne_assign (fun _ _ => EntryText.head hinner) _ (by decide)⟩

theorem Postfix.opens {ts : List Token} {t : Node}
    (hinner : ∀ p ts t, inner p ts t → Opens ts) (h : Postfix inner ts t) : Opens ts := by
  induction h with
  | atom ht => exact ht.opens hinner
  | member attr _ ih => exact ih.append (by simp)
  | call _ _ ih => exact (ih.append (by simp)).append (by simp)
  | subscript _ _ ih => exact (ih.append (by simp)).append (by simp)

/-- No postfix expression begins with a unary operator. -/
theorem Postfix.unsigned {ts : List Token} {t : Node} (h : Postfix inner ts t) : Unsigned ts := by
  induction h with
  | atom ht =>
      cases ht with
      | constant value _ =>
          refine ⟨_, _, rfl, ?_⟩
          cases value with
          | bool b => cases b <;> rfl
          | _ => rfl
      | texts parts hparts =>
          cases parts with
          | nil => exact absurd rfl hparts
          | cons text parts => exact ⟨_, _, rfl, rfl⟩
      | _ => exact ⟨_, _, rfl, rfl⟩
  | member attr _ ih => exact ih.append
  | call _ _ ih | subscript _ _ ih => exact ih.append.append

theorem Phrase.opens {p : Nat} {ts : List Token} {t : Node}
    (hinner : ∀ p ts t, inner p ts t → Opens ts) (h : Phrase inner p ts t) : Opens ts := by
  have hop (op : BinaryOp) (us : List Token) :
      (op.token :: us).head? ≠ some (.mark .assign) := by
    cases op <;> simp [BinaryOp.token]
  induction h with
  | operand ht => exact ht.opens hinner
  | power ht _ _ => exact (ht.opens hinner).append (hop _ _)
  | unary op ht =>
      refine ⟨op.token, _, rfl, ?_, (hinner _ _ _ ht).head_ne_assign⟩
      cases op <;> rfl
  | binary op _ _ _ _ ih _ => exact ih.append (hop _ _)
  | compare steps _ hne _ _ ih _ =>
      refine ih.append ?_
      cases steps with
      | nil => exact absurd rfl hne
      | cons s steps => exact hop _ _
  | tighter _ _ ih => exact ih

theorem Atom.unstarred {ts : List Token} {t : Node}
    (hinner : ∀ p ts t, inner p ts t → ∀ v, t ≠ .starred v) (h : Atom inner ts t) :
    ∀ v, t ≠ .starred v := by
  cases h with
  | group ht => exact hinner _ _ _ ht
  | _ => exact nofun

/-- No phrase is a starred item. -/
theorem Phrase.unstarred {p : Nat} {ts : List Token} {t : Node}
    (hinner : ∀ p ts t, inner p ts t → ∀ v, t ≠ .starred v) (h : Phrase inner p ts t) :
    ∀ v, t ≠ .starred v := by
  induction h with
  | operand ht =>
      cases ht with
      | atom ht => exact ht.unstarred hinner
      | _ => exact nofun
  | tighter _ _ ih => exact ih
  | _ => exact nofun

theorem Derives.unstarred {n p : Nat} {ts : List Token} {t : Node} (h : Derives n p ts t) :
    ∀ v, t ≠ .starred v := by
  induction n generalizing p ts t with
  | zero => exact h.elim
  | succ n ih => exact Phrase.unstarred (fun _ _ _ => ih) h

theorem Derives.opens {n p : Nat} {ts : List Token} {t : Node} (h : Derives n p ts t) :
    Opens ts := by
  induction n generalizing p ts t with
  | zero => exact h.elim
  | succ n ih => exact Phrase.opens (fun _ _ _ => ih) h

end Grammar

/-! ## Readers of nested operands -/

namespace Parser

/-- The readers of nested operands read these languages.  The power takes signs on its right, so
    from level 11 on the readers are all one. -/
structure Recognizes (sub : Nat → Parser Node) (inner : Nat → Language Node) : Prop where
  opens : ∀ {p ts t}, inner p ts t → Opens ts
  unstarred : ∀ {p ts t}, inner p ts t → ∀ v, t ≠ .starred v
  sound : ∀ p, Sound (sub p) (inner (min p 11))
  stops : ∀ {p c c' t}, sub p c = .ok t c' → Below p c'.token
  complete : ∀ {p c c' ts t}, p ≤ 12 → inner (min p 11) ts t → c.Reads ts c' →
    Follows p c'.token → sub p c = .ok t c'

variable {sub : Nat → Parser Node} {inner : Nat → Language Node}

theorem expression_sound (R : Recognizes sub inner) : Sound (expression sub) (inner 0) := by
  intro c c' t h
  simp only [expression, peek_bind] at h
  by_cases hlambda : c.token = .word .lambdaWord
  · rw [if_pos hlambda] at h
    exact absurd h (by simp)
  · rw [if_neg hlambda] at h
    exact R.sound 0 h

theorem expression_complete (R : Recognizes sub inner) {c c' : Cursor} {ts : List Token} {t : Node}
    (ht : inner 0 ts t) (hc : c.Reads ts c') (hc' : Follows 0 c'.token) :
    expression sub c = .ok t c' := by
  have hlambda : c.token ≠ .word .lambdaWord := (R.opens ht).token_ne hc rfl
  simp only [expression, peek_bind, if_neg hlambda]
  exact R.complete (by decide) ht hc hc'

theorem unpackable_sound (R : Recognizes sub inner) :
    Sound (unpackable sub) (inner BinaryOp.bitOr.precedence) := R.sound BinaryOp.bitOr.precedence

theorem unpackable_complete (R : Recognizes sub inner) {c c' : Cursor} {ts : List Token} {t : Node}
    (ht : inner BinaryOp.bitOr.precedence ts t) (hc : c.Reads ts c') (hc' : Follows 0 c'.token) :
    unpackable sub c = .ok t c' :=
  R.complete (p := BinaryOp.bitOr.precedence) (by decide) ht hc (hc'.mono (Nat.zero_le _))

/-! ## Rows -/

section Rows

variable {σ α : Type}

/-- A reader of single items reads a language: `push` says what an item does to what was read
    before, and which items may come next. -/
structure ReadsItems (close : Mark) (item : σ → Parser σ) (push : σ → α → Option σ)
    (I : Language α) : Prop where
  sound : ∀ s, Sound (item s) fun ts s' => ∃ a, I ts a ∧ push s a = some s'
  complete : ∀ {s s' a ts c c'}, I ts a → push s a = some s' → c.Reads ts c' →
    c'.token = .mark .comma ∨ c'.token = .mark close → item s c = .ok s' c'
  begins : ∀ {ts a}, I ts a → ∃ tok rest, ts = tok :: rest ∧ tok ≠ .mark close

variable {close : Mark} {item : σ → Parser σ} {push : σ → α → Option σ} {I : Language α}

theorem itemsWithin_sound (R : ReadsItems close item push I) (fuel : Nat) (s : σ) :
    Sound (itemsWithin close item fuel s) fun ts s' =>
      ∃ as, Row I ts as ∧ as.foldlM push s = some s' := by
  induction fuel generalizing s with
  | zero =>
      intro c c' s' h
      obtain ⟨rfl, rfl⟩ := pure_eq_ok.mp h
      exact ⟨[], rfl, [], .none, rfl⟩
  | succ fuel ih =>
      intro c c' s' h
      simp only [itemsWithin, peek_bind] at h
      by_cases hclose : c.token = .mark close
      · rw [if_pos hclose] at h
        obtain ⟨rfl, rfl⟩ := pure_eq_ok.mp h
        exact ⟨[], rfl, [], .none, rfl⟩
      · rw [if_neg hclose] at h
        obtain ⟨s₁, c₁, hitem, h⟩ := bind_eq_ok.mp h
        obtain ⟨ts, hts, a, ha, hpush⟩ := R.sound s hitem
        obtain ⟨b, c₂, heat, h⟩ := bind_eq_ok.mp h
        rcases eat_eq_ok.mp heat with ⟨rfl, hcomma, rfl⟩ | ⟨rfl, -, rfl⟩
        · -- a comma: the row goes on, and may end at once
          obtain ⟨us, hus, as, has, hfold⟩ := ih s₁ h
          refine ⟨ts ++ .mark .comma :: us, ?_, a :: as, .more ha has, ?_⟩
          · exact Cursor.reads_append.mpr ⟨c₁, hts, nofun, hcomma, hus⟩
          · rw [List.foldlM_cons, hpush]
            exact hfold
        · obtain ⟨rfl, rfl⟩ := pure_eq_ok.mp h
          refine ⟨ts, hts, [a], .last ha, ?_⟩
          rw [List.foldlM_cons, hpush]
          rfl

theorem items_sound (R : ReadsItems close item push I) (s : σ) :
    Sound (items close item s) fun ts s' => ∃ as, Row I ts as ∧ as.foldlM push s = some s' := by
  intro c c' s' h
  simp only [items, remaining_bind] at h
  exact itemsWithin_sound R _ s h

theorem itemsWithin_complete (R : ReadsItems close item push I) (hclose : close ≠ .comma)
    {fuel : Nat} {s s' : σ} {c c' : Cursor} {ts : List Token} {as : List α} (h : Row I ts as)
    (hfold : as.foldlM push s = some s') (hc : c.Reads ts c') (hc' : c'.token = .mark close)
    (hfuel : c.rest.length < fuel) : itemsWithin close item fuel s c = .ok s' c' := by
  induction h generalizing s c fuel with
  | none =>
      obtain rfl : c = c' := hc
      obtain rfl : s = s' := Option.some.inj hfold
      cases fuel with
      | zero => rfl
      | succ fuel => simp [itemsWithin, hc']
  | @last ts a ha =>
      obtain ⟨fuel, rfl⟩ : ∃ n, fuel = n + 1 := ⟨fuel - 1, by omega⟩
      obtain ⟨tok, rest, rfl, htok⟩ := R.begins ha
      have hopen : c.token ≠ .mark close := by
        rw [hc.2.1]
        exact htok
      have hpush : push s a = some s' := by
        rw [List.foldlM_cons] at hfold
        cases hp : push s a with
        | none => rw [hp] at hfold; exact absurd hfold nofun
        | some s₁ => rw [hp] at hfold; exact hfold
      have hcomma : c'.token ≠ .mark .comma := by
        rw [hc']
        simpa using hclose
      simp only [itemsWithin, peek_bind, if_neg hopen]
      rw [bind_of_ok (R.complete ha hpush hc (Or.inr hc')), bind_of_ok (eat_of_ne hcomma)]
      rfl
  | @more ts us a as ha _ ih =>
      obtain ⟨fuel, rfl⟩ : ∃ n, fuel = n + 1 := ⟨fuel - 1, by omega⟩
      obtain ⟨m, hts, hcomma⟩ := Cursor.reads_append.mp hc
      obtain ⟨-, hcomma, hus⟩ := hcomma
      have hlen := hts.length
      have hlen' := Cursor.length_next (c := m) (by rw [hcomma]; exact nofun)
      obtain ⟨tok, rest, rfl, htok⟩ := R.begins ha
      have hopen : c.token ≠ .mark close := by
        rw [hts.2.1]
        exact htok
      obtain ⟨s₁, hpush, hfold⟩ : ∃ s₁, push s a = some s₁ ∧ as.foldlM push s₁ = some s' := by
        rw [List.foldlM_cons] at hfold
        exact Option.bind_eq_some_iff.mp hfold
      simp only [itemsWithin, peek_bind, if_neg hopen]
      rw [bind_of_ok (R.complete ha hpush hts (Or.inl hcomma)), bind_of_ok (eat_of hcomma)]
      exact ih hfold hus (by omega)

theorem items_complete (R : ReadsItems close item push I) (hclose : close ≠ .comma) {s s' : σ}
    {c c' : Cursor} {ts : List Token} {as : List α} (h : Row I ts as)
    (hfold : as.foldlM push s = some s') (hc : c.Reads ts c') (hc' : c'.token = .mark close) :
    items close item s c = .ok s' c' := by
  simp only [items, remaining_bind]
  exact itemsWithin_complete R hclose h hfold hc hc' (Nat.lt_succ_self _)

end Rows

/-! ## Items of lists and tuples -/

/-- Takes one more item behind what was read. -/
def snoc {α : Type} (read : List α) (a : α) : Option (List α) := some (read ++ [a])

@[simp] theorem foldlM_snoc {α : Type} (as read : List α) :
    as.foldlM snoc read = some (read ++ as) := by
  induction as generalizing read with
  | nil => simp
  | cons a as ih =>
      rw [List.foldlM_cons]
      show as.foldlM snoc (read ++ [a]) = _
      rw [ih, List.append_assoc]
      rfl

/-- Items that are collected stand behind those that were read before. -/
theorem items_snoc_sound {α : Type} {close : Mark} {item : List α → Parser (List α)}
    {I : Language α} (R : ReadsItems close item snoc I) (read : List α) :
    Sound (items close item read) fun ts all => ∃ as, Row I ts as ∧ all = read ++ as := by
  intro c c' all h
  obtain ⟨ts, hts, as, has, hfold⟩ := items_sound R read h
  rw [foldlM_snoc] at hfold
  exact ⟨ts, hts, as, has, (Option.some.inj hfold).symm⟩

/-- Behind an item of a row comes a token that may follow any phrase. -/
theorem follows_of_comma_or {close : Mark} {tok : Token}
    (hclose : close = .rightParen ∨ close = .rightBracket ∨ close = .rightBrace)
    (h : tok = .mark .comma ∨ tok = .mark close) : Follows 0 tok := by
  rcases h with rfl | rfl
  · exact follows_of_none rfl rfl 0
  · rcases hclose with rfl | rfl | rfl <;> exact follows_of_none rfl rfl 0

/-- What begins an operand closes no bracket. -/
theorem begins_ne_close {close : Mark} {ts : List Token}
    (hclose : close = .rightParen ∨ close = .rightBracket ∨ close = .rightBrace)
    (h : Opens ts) : ∃ tok rest, ts = tok :: rest ∧ tok ≠ .mark close := by
  obtain ⟨tok, rest, rfl, hbegins, -⟩ := h
  refine ⟨tok, rest, rfl, ?_⟩
  rintro rfl
  rcases hclose with rfl | rfl | rfl <;> exact absurd hbegins (by decide)

theorem displayItem_sound (R : Recognizes sub inner) : Sound (displayItem sub) (Item inner) := by
  intro c c' t h
  simp only [displayItem] at h
  obtain ⟨b, m, heat, h⟩ := bind_eq_ok.mp h
  rcases eat_eq_ok.mp heat with ⟨rfl, hstar, rfl⟩ | ⟨rfl, -, rfl⟩
  · obtain ⟨v, ts, rfl, hts, hinner⟩ := (unpackable_sound R).of_bind_pure h
    exact ⟨.mark .star :: ts, ⟨nofun, hstar, hts⟩, .starred hinner⟩
  · obtain ⟨ts, hts, hinner⟩ := expression_sound R h
    exact ⟨ts, hts, .plain hinner⟩

theorem displayItem_complete (R : Recognizes sub inner) {c c' : Cursor} {ts : List Token} {t : Node}
    (ht : Item inner ts t) (hc : c.Reads ts c') (hc' : Follows 0 c'.token) :
    displayItem sub c = .ok t c' := by
  simp only [displayItem]
  cases ht with
  | plain ht =>
      have hstar : c.token ≠ .mark .star := (R.opens ht).token_ne hc rfl
      rw [bind_of_ok (eat_of_ne hstar)]
      exact expression_complete R ht hc hc'
  | starred ht =>
      obtain ⟨-, hstar, hts⟩ := hc
      rw [bind_of_ok (eat_of hstar)]
      exact bind_of_ok (unpackable_complete R ht hts hc')

/-- Collecting what a reader reads collects the items of its language. -/
theorem readsItems_snoc {p : Parser Node} {I : Language Node} {close : Mark}
    (hclose : close = .rightParen ∨ close = .rightBracket ∨ close = .rightBrace)
    (hsound : Sound p I)
    (hcomplete : ∀ {c c' ts t}, I ts t → c.Reads ts c' → Follows 0 c'.token → p c = .ok t c')
    (hbegins : ∀ {ts t}, I ts t → ∃ tok rest, ts = tok :: rest ∧ tok ≠ .mark close) :
    ReadsItems close (fun read => do return read ++ [← p]) snoc I where
  sound read := by
    intro c c' read' h
    obtain ⟨t, ts, rfl, hts, ht⟩ := hsound.of_bind_pure h
    exact ⟨ts, hts, t, ht, rfl⟩
  complete := by
    intro read read' t ts c c' ht hpush hc hc'
    cases hpush
    exact bind_of_ok (hcomplete ht hc (follows_of_comma_or hclose hc'))
  begins := hbegins

theorem moreItems_reads (R : Recognizes sub inner) {close : Mark}
    (hclose : close = .rightParen ∨ close = .rightBracket ∨ close = .rightBrace) :
    ReadsItems close (moreItems sub) snoc (Item inner) := by
  refine readsItems_snoc hclose (displayItem_sound R) (displayItem_complete R) ?_
  intro ts t ht
  cases ht with
  | plain ht => exact begins_ne_close hclose (R.opens ht)
  | starred _ =>
      refine ⟨_, _, rfl, ?_⟩
      rcases hclose with rfl | rfl | rfl <;> exact nofun

theorem moreIndices_reads (R : Recognizes sub inner) :
    ReadsItems .rightBracket (moreIndices sub) snoc (inner 0) :=
  readsItems_snoc (by simp) (expression_sound R) (expression_complete R)
    fun ht => begins_ne_close (by simp) (R.opens ht)

theorem moreEntries_reads (R : Recognizes sub inner) :
    ReadsItems .rightBrace (moreEntries sub) snoc (EntryText inner) where
  sound read := by
    intro c c' read' h
    simp only [moreEntries] at h
    obtain ⟨b, m, heat, h⟩ := bind_eq_ok.mp h
    rcases eat_eq_ok.mp heat with ⟨rfl, hstar, rfl⟩ | ⟨rfl, -, rfl⟩
    · obtain ⟨v, ts, rfl, hts, hinner⟩ := (unpackable_sound R).of_bind_pure h
      exact ⟨.mark .doubleStar :: ts, ⟨nofun, hstar, hts⟩, _, .unpacked hinner, rfl⟩
    · obtain ⟨k, m, hk, h⟩ := bind_eq_ok.mp h
      rw [peek_bind] at h
      by_cases hcolon : m.token = .mark .colon
      · rw [if_neg (not_not_intro hcolon), advance_bind] at h
        obtain ⟨ks, hks, hkey⟩ := expression_sound R hk
        obtain ⟨v, vs, rfl, hvs, hvalue⟩ := (expression_sound R).of_bind_pure h
        refine ⟨ks ++ .mark .colon :: vs, ?_, _, .item hkey hvalue, rfl⟩
        exact Cursor.reads_append.mpr ⟨m, hks, nofun, hcolon, hvs⟩
      · rw [if_pos hcolon] at h
        exact absurd h (by simp)
  complete := by
    intro read read' e ts c c' he hpush hc hc'
    cases hpush
    have hfollows := follows_of_comma_or (by simp) hc'
    simp only [moreEntries]
    cases he with
    | @item ks vs k v hk hv =>
        obtain ⟨m, hks, -, hcolon, hvs⟩ := Cursor.reads_append.mp hc
        have hstar : c.token ≠ .mark .doubleStar := (R.opens hk).token_ne hks rfl
        have hm : Follows 0 m.token := by
          rw [hcolon]
          exact follows_of_none rfl rfl 0
        rw [bind_of_ok (eat_of_ne hstar)]
        show (expression sub >>= _) c = _
        rw [bind_of_ok (expression_complete R hk hks hm), peek_bind,
          if_neg (not_not_intro hcolon), advance_bind]
        exact bind_of_ok (expression_complete R hv hvs hfollows)
    | unpacked hv =>
        obtain ⟨-, hstar, hvs⟩ := hc
        rw [bind_of_ok (eat_of hstar)]
        exact bind_of_ok (unpackable_complete R hv hvs hfollows)
  begins := by
    intro ts e he
    cases he with
    | item hk _ => exact begins_ne_close (by simp) ((R.opens hk).append (by simp))
    | unpacked _ => exact ⟨_, _, rfl, nofun⟩

/-! ## Arguments of calls -/

/-- Takes one more argument into a call, if it may come next. -/
def takeArgument (read : Call Node) : Argument → Option (Call Node)
  | .plain value =>
    if read.keywords.isEmpty then some ⟨read.func, read.args ++ [value], read.keywords⟩ else none
  | .starred value =>
    if read.keywords.any Keyword.isUnpacked then none
    else some ⟨read.func, read.args ++ [.starred value], read.keywords⟩
  | .named name value =>
    some ⟨read.func, read.args, read.keywords ++ [.named name value]⟩
  | .unpacked value =>
    some ⟨read.func, read.args, read.keywords ++ [.unpacked value]⟩

/-- Whether an argument may come behind these keyword arguments. -/
def MayFollow (keywords : List (Keyword Node)) : Argument → Prop
  | .plain _ => keywords.isEmpty = true
  | .starred _ => keywords.any Keyword.isUnpacked = false
  | .named _ _ | .unpacked _ => True

theorem takeArgument_eq_some {read site : Call Node} {a : Argument} :
    takeArgument read a = some site ↔ MayFollow read.keywords a
      ∧ site = ⟨read.func, read.args ++ a.positional?.toList,
          read.keywords ++ a.keyword?.toList⟩ := by
  cases a with
  | plain value =>
      simp only [takeArgument, MayFollow, Argument.positional?, Argument.keyword?]
      by_cases h : read.keywords.isEmpty = true
      · simp [h, eq_comm]
      · simp [h]
  | starred value =>
      simp only [takeArgument, MayFollow, Argument.positional?, Argument.keyword?]
      by_cases h : read.keywords.any Keyword.isUnpacked = true
      · simp [h]
      · simp [h, eq_comm]
  | named name value =>
      simp [takeArgument, MayFollow, Argument.positional?, Argument.keyword?, eq_comm]
  | unpacked value =>
      simp [takeArgument, MayFollow, Argument.positional?, Argument.keyword?, eq_comm]

/-- One more argument in front adds what it may precede. -/
theorem mayFollow_append (keywords : List (Keyword Node)) (a b : Argument) :
    MayFollow (keywords ++ a.keyword?.toList) b ↔ MayFollow keywords b ∧ a.MayPrecede b := by
  cases a <;> cases b <;>
    simp [MayFollow, Argument.keyword?, Argument.MayPrecede, Keyword.isUnpacked]

theorem filterMap_cons_toList {α β : Type} (f : α → Option β) (a : α) (as : List α) :
    (a :: as).filterMap f = (f a).toList ++ as.filterMap f := by
  cases h : f a <;> simp [h]

/-- Taking arguments one by one checks that each may precede all behind it. -/
theorem foldlM_takeArgument {args : List Argument} (read : Call Node) {site : Call Node} :
    args.foldlM takeArgument read = some site ↔
      args.Pairwise Argument.MayPrecede ∧ (∀ a ∈ args, MayFollow read.keywords a)
        ∧ site = ⟨read.func, read.args ++ args.filterMap Argument.positional?,
            read.keywords ++ args.filterMap Argument.keyword?⟩ := by
  induction args generalizing read with
  | nil =>
      obtain ⟨func, args, keywords⟩ := read
      simp [eq_comm]
  | cons a args ih =>
      rw [List.foldlM_cons, Option.bind_eq_bind, Option.bind_eq_some_iff, filterMap_cons_toList,
        filterMap_cons_toList, List.pairwise_cons]
      constructor
      · rintro ⟨s₁, htake, hfold⟩
        obtain ⟨ha, rfl⟩ := takeArgument_eq_some.mp htake
        obtain ⟨hpair, hall, rfl⟩ := (ih _).mp hfold
        have hall' (b : Argument) (hb : b ∈ args) := (mayFollow_append _ _ _).mp (hall b hb)
        refine ⟨⟨fun b hb => (hall' b hb).2, hpair⟩, ?_, by simp⟩
        intro b hb
        rcases List.mem_cons.mp hb with rfl | hb
        · exact ha
        · exact (hall' b hb).1
      · rintro ⟨⟨hprec, hpair⟩, hall, rfl⟩
        refine ⟨_, takeArgument_eq_some.mpr ⟨hall a List.mem_cons_self, rfl⟩, (ih _).mpr ?_⟩
        refine ⟨hpair, ?_, by simp⟩
        intro b hb
        exact (mayFollow_append _ _ _).mpr ⟨hall b (List.mem_cons_of_mem a hb), hprec b hb⟩

theorem keyword?_eq_some {c : Cursor} {name : String} :
    c.keyword? = some name ↔ c.token = .ident name ∧ c.next.token = .mark .assign := by
  obtain ⟨rest, last⟩ := c
  rcases rest with _ | ⟨⟨t, p⟩, _ | ⟨⟨u, q⟩, rest⟩⟩
  · simp [Cursor.keyword?, Cursor.token]
  · simp [Cursor.keyword?, Cursor.token, Cursor.next]
  · unfold Cursor.keyword?
    split
    · rename_i h
      cases h
      simp [Cursor.token, Cursor.next]
    · rename_i h
      simp only [Cursor.token, Cursor.next, List.tail_cons, reduceCtorEq, false_iff]
      rintro ⟨rfl, rfl⟩
      exact h _ _ _ _ rfl

/-- An operand is no keyword argument: no equals sign comes second, inside it or behind it. -/
theorem keyword?_eq_none_of_opens {ts : List Token} (h : Opens ts) {c c' : Cursor}
    (hc : c.Reads ts c') (hc' : c'.token ≠ .mark .assign) : c.keyword? = none := by
  obtain ⟨tok, rest, rfl, -, hrest⟩ := h
  cases hkey : c.keyword? with
  | none => rfl
  | some name =>
      obtain ⟨-, hassign⟩ := keyword?_eq_some.mp hkey
      cases rest with
      | nil =>
          obtain rfl : c.next = c' := hc.2.2
          exact absurd hassign hc'
      | cons u rest => exact absurd (congrArg some (hc.2.2.2.1.symm.trans hassign)) hrest

/-- The four ways in which the next argument is read. -/
theorem moreArguments_eq (read : Call Node) (c : Cursor) :
    moreArguments sub read c =
      if c.token = .mark .doubleStar then
        (expression sub >>= fun value =>
          pure ⟨read.func, read.args, read.keywords ++ [.unpacked value]⟩) c.next
      else if c.token = .mark .star then
        if read.keywords.any Keyword.isUnpacked then fail .starredAfterDoubleStarred c
        else
          (expression sub >>= fun value =>
            pure ⟨read.func, read.args ++ [.starred value], read.keywords⟩) c.next
      else
        match c.keyword? with
        | some name =>
          (expression sub >>= fun value =>
            pure ⟨read.func, read.args, read.keywords ++ [.named name value]⟩) c.next.next
        | none =>
          if read.keywords.isEmpty then
            (expression sub >>= fun value =>
              pure ⟨read.func, read.args ++ [value], read.keywords⟩) c
          else fail .positionalAfterKeyword c := by
  simp only [moreArguments, peek_bind]
  generalize c.token = tok
  by_cases hdouble : tok = .mark .doubleStar
  · subst hdouble
    rfl
  · rw [if_neg hdouble]
    by_cases hstar : tok = .mark .star
    · subst hstar
      by_cases hunpacked : read.keywords.any Keyword.isUnpacked = true
      · simp only [hunpacked, if_true]
      · simp only [hunpacked, if_true]
        rfl
    · rw [if_neg hstar]
      -- every other token leaves the choice to the token behind it
      cases tok with
      | mark m =>
          cases m with
          | doubleStar => exact absurd rfl hdouble
          | star => exact absurd rfl hstar
          | _ =>
              simp only [keyword?_bind]
              cases c.keyword? with
              | some name => rfl
              | none => exact ite_apply ..
      | _ =>
          simp only [keyword?_bind]
          cases c.keyword? with
          | some name => rfl
          | none => exact ite_apply ..

theorem moreArguments_sound (R : Recognizes sub inner) (read : Call Node) :
    Sound (moreArguments sub read) fun ts site =>
      ∃ a, ArgumentText inner ts a ∧ takeArgument read a = some site := by
  intro c c' site h
  rw [moreArguments_eq] at h
  by_cases hdouble : c.token = .mark .doubleStar
  · rw [if_pos hdouble] at h
    obtain ⟨v, ts, rfl, hts, hinner⟩ := (expression_sound R).of_bind_pure h
    exact ⟨.mark .doubleStar :: ts, ⟨nofun, hdouble, hts⟩, _, .unpacked hinner, rfl⟩
  rw [if_neg hdouble] at h
  by_cases hstar : c.token = .mark .star
  · rw [if_pos hstar] at h
    by_cases hunpacked : read.keywords.any Keyword.isUnpacked = true
    · rw [if_pos hunpacked] at h
      exact absurd h (by simp)
    rw [if_neg hunpacked] at h
    obtain ⟨v, ts, rfl, hts, hinner⟩ := (expression_sound R).of_bind_pure h
    exact ⟨.mark .star :: ts, ⟨nofun, hstar, hts⟩, _, .starred hinner, if_neg hunpacked⟩
  rw [if_neg hstar] at h
  cases hkey : c.keyword? with
  | some name =>
      rw [hkey] at h
      obtain ⟨htok, hassign⟩ := keyword?_eq_some.mp hkey
      obtain ⟨v, ts, rfl, hts, hinner⟩ := (expression_sound R).of_bind_pure h
      exact ⟨.ident name :: .mark .assign :: ts, ⟨nofun, htok, nofun, hassign, hts⟩, _,
        .named name hinner, rfl⟩
  | none =>
      rw [hkey] at h
      by_cases hempty : read.keywords.isEmpty = true
      · simp only [if_pos hempty] at h
        obtain ⟨v, ts, rfl, hts, hinner⟩ := (expression_sound R).of_bind_pure h
        exact ⟨ts, hts, _, .plain hinner, if_pos hempty⟩
      · simp only [if_neg hempty] at h
        exact absurd h (by simp)

theorem moreArguments_complete (R : Recognizes sub inner) {read site : Call Node} {a : Argument}
    {ts : List Token} {c c' : Cursor} (ha : ArgumentText inner ts a)
    (htake : takeArgument read a = some site) (hc : c.Reads ts c')
    (hc' : c'.token = .mark .comma ∨ c'.token = .mark .rightParen) :
    moreArguments sub read c = .ok site c' := by
  obtain ⟨hmay, rfl⟩ := takeArgument_eq_some.mp htake
  have hfollows := follows_of_comma_or (by simp) hc'
  rw [moreArguments_eq]
  cases ha with
  | unpacked ht =>
      obtain ⟨-, htok, hts⟩ := hc
      rw [if_pos htok, bind_of_ok (expression_complete R ht hts hfollows)]
      simp [Argument.positional?, Argument.keyword?]
  | starred ht =>
      obtain ⟨-, htok, hts⟩ := hc
      have hdouble : c.token ≠ .mark .doubleStar := by rw [htok]; exact nofun
      have hunpacked : ¬ read.keywords.any Keyword.isUnpacked = true := by
        rw [show read.keywords.any Keyword.isUnpacked = false from hmay]
        exact nofun
      rw [if_neg hdouble, if_pos htok, if_neg hunpacked,
        bind_of_ok (expression_complete R ht hts hfollows)]
      simp [Argument.positional?, Argument.keyword?]
  | named name ht =>
      obtain ⟨-, htok, -, hassign, hts⟩ := hc
      have hdouble : c.token ≠ .mark .doubleStar := by rw [htok]; exact nofun
      have hstar : c.token ≠ .mark .star := by rw [htok]; exact nofun
      rw [if_neg hdouble, if_neg hstar, keyword?_eq_some.mpr ⟨htok, hassign⟩]
      show (expression sub >>= _) _ = _
      rw [bind_of_ok (expression_complete R ht hts hfollows)]
      simp [Argument.positional?, Argument.keyword?]
  | plain ht =>
      have hdouble : c.token ≠ .mark .doubleStar := (R.opens ht).token_ne hc rfl
      have hstar : c.token ≠ .mark .star := (R.opens ht).token_ne hc rfl
      have hassign : c'.token ≠ .mark .assign := by
        rcases hc' with hc' | hc' <;> rw [hc'] <;> exact nofun
      rw [if_neg hdouble, if_neg hstar, keyword?_eq_none_of_opens (R.opens ht) hc hassign]
      show (if read.keywords.isEmpty = true then _ else _) = _
      rw [if_pos (show read.keywords.isEmpty = true from hmay),
        bind_of_ok (expression_complete R ht hc hfollows)]
      simp [Argument.positional?, Argument.keyword?]

theorem moreArguments_reads (R : Recognizes sub inner) :
    ReadsItems .rightParen (moreArguments sub) takeArgument (ArgumentText inner) where
  sound := moreArguments_sound R
  complete := moreArguments_complete R
  begins := by
    intro ts a ha
    cases ha with
    | plain ht => exact begins_ne_close (by simp) (R.opens ht)
    | _ => exact ⟨_, _, rfl, nofun⟩

end Parser

end CallSite
