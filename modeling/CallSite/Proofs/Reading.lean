import CallSite.Parser.Source

/-!
# Reading — what a parser does between two cursors

`Cursor.Reads c ts c'` says that the tokens `ts` lead from `c` to `c'`.  Every statement about a
parser is made with this relation, in one of two directions:

* `Parser.Sound p L`: whatever `p` returns was read from tokens of the language `L`;
* completeness lemmas take a language, a reading of its tokens and a condition on the token that
  follows, and give the result of the parser.

The lemmas `bind_eq_ok`, `pure_eq_ok`, `fail_eq_ok` and their kin are the only ones that open a
parser, and `eat_of`, `expect_of` and `bind_of_ok` the only ones that run it.
-/

namespace CallSite

/-- A language: which lists of tokens stand for which value. -/
abbrev Language (α : Type) := List Token → α → Prop

/-! ## Readings -/

namespace Cursor

/-- The cursor behind the next token. -/
def next (c : Cursor) : Cursor := ⟨c.rest.tail, c.last⟩

/-- The tokens between two cursors.  The end of the text is never read. -/
def Reads : Cursor → List Token → Cursor → Prop
  | c, [], c' => c = c'
  | c, tok :: ts, c' => tok ≠ .eof ∧ c.token = tok ∧ c.next.Reads ts c'

@[simp] theorem reads_nil {c c' : Cursor} : c.Reads [] c' ↔ c = c' := Iff.rfl

@[simp] theorem reads_cons {c c' : Cursor} {tok : Token} {ts : List Token} :
    c.Reads (tok :: ts) c' ↔ tok ≠ .eof ∧ c.token = tok ∧ c.next.Reads ts c' := Iff.rfl

/-- Two stretches are read one behind the other. -/
@[simp] theorem reads_append {c c' : Cursor} {ts us : List Token} :
    c.Reads (ts ++ us) c' ↔ ∃ m, c.Reads ts m ∧ m.Reads us c' := by
  induction ts generalizing c with
  | nil => simp
  | cons tok ts ih =>
      simp only [List.cons_append, reads_cons, ih]
      constructor
      · rintro ⟨hne, htok, m, hts, hus⟩
        exact ⟨m, ⟨hne, htok, hts⟩, hus⟩
      · rintro ⟨m, ⟨hne, htok, hts⟩, hus⟩
        exact ⟨hne, htok, m, hts, hus⟩

/-- Only the end of the text leaves a cursor with nothing to read. -/
theorem rest_ne_nil {c : Cursor} (h : c.token ≠ .eof) : c.rest ≠ [] := by
  intro hnil
  exact h (by simp [token, hnil])

/-- Moving past a token makes the rest shorter by one. -/
theorem length_next {c : Cursor} (h : c.token ≠ .eof) :
    c.next.rest.length + 1 = c.rest.length := by
  have hne := rest_ne_nil h
  cases hrest : c.rest with
  | nil => exact absurd hrest hne
  | cons t rest => simp [next, hrest]

/-- Every token that is read makes the rest shorter by one. -/
theorem Reads.length {c c' : Cursor} {ts : List Token} (h : c.Reads ts c') :
    c.rest.length = ts.length + c'.rest.length := by
  induction ts generalizing c with
  | nil =>
      cases h
      simp
  | cons tok ts ih =>
      obtain ⟨hne, htok, hts⟩ := h
      have hlen := length_next (c := c) (by rw [htok]; exact hne)
      have := ih hts
      simp only [List.length_cons]
      omega

theorem Reads.length_le {c c' : Cursor} {ts : List Token} (h : c.Reads ts c') :
    c'.rest.length ≤ c.rest.length := by
  rw [h.length]
  exact Nat.le_add_left _ _

/-- Up to the end of the text there is only one thing to read. -/
theorem Reads.eq_of_eof {c c' d : Cursor} {ts us : List Token} (hts : c.Reads ts c')
    (hc' : c'.token = .eof) (hus : c.Reads us d) (hd : d.token = .eof) : ts = us := by
  induction ts generalizing c us with
  | nil =>
      cases hts
      cases us with
      | nil => rfl
      | cons tok us => exact absurd (hus.2.1.symm.trans hc') hus.1
  | cons tok ts ih =>
      obtain ⟨hne, htok, hts⟩ := hts
      cases us with
      | nil =>
          cases hus
          exact absurd (htok.symm.trans hd) hne
      | cons tok' us =>
          obtain ⟨-, htok', hus⟩ := hus
          rw [← htok, ← htok', ih hts hus]

/-- The tokens in front of the end are read one by one. -/
theorem reads_of_rest {ts rest : List (Located Token)} {last : Position}
    (h : ∀ t ∈ ts, t.value ≠ .eof) :
    Reads ⟨ts ++ rest, last⟩ (ts.map Located.value) ⟨rest, last⟩ := by
  induction ts with
  | nil => rfl
  | cons t ts ih =>
      refine ⟨h t List.mem_cons_self, rfl, ?_⟩
      exact ih fun u hu => h u (List.mem_cons_of_mem t hu)

end Cursor

/-! ## Opening a parser -/

namespace Parser

variable {α β : Type}

/-- What a sequence returns comes from its second part, run behind the first. -/
theorem bind_eq_ok {p : Parser α} {f : α → Parser β} {c c' : Cursor} {b : β} :
    (p >>= f) c = .ok b c' ↔ ∃ a m, p c = .ok a m ∧ f a m = .ok b c' := by
  show EStateM.bind p f c = .ok b c' ↔ _
  unfold EStateM.bind
  cases hp : p c with
  | ok a m =>
      constructor
      · intro h
        exact ⟨a, m, rfl, h⟩
      · rintro ⟨a', m', h, hf⟩
        cases h
        exact hf
  | error e m => simp

@[simp] theorem pure_eq_ok {a b : α} {c c' : Cursor} :
    (pure a : Parser α) c = .ok b c' ↔ a = b ∧ c = c' := by
  show EStateM.Result.ok a c = .ok b c' ↔ _
  simp

@[simp] theorem fail_eq_ok {fault : Fault} {b : α} {c c' : Cursor} :
    (fail fault : Parser α) c = .ok b c' ↔ False := by
  simp [fail]

@[simp] theorem peek_eq_ok {tok : Token} {c c' : Cursor} :
    peek c = .ok tok c' ↔ c.token = tok ∧ c = c' := by
  simp [peek]

@[simp] theorem advance_eq_ok {u : Unit} {c c' : Cursor} :
    advance c = .ok u c' ↔ c.next = c' := by
  simp [advance, Cursor.next]

@[simp] theorem eat_eq_ok {m : Mark} {b : Bool} {c c' : Cursor} :
    eat m c = .ok b c' ↔
      (b = true ∧ c.token = .mark m ∧ c.next = c') ∨ (b = false ∧ c.token ≠ .mark m ∧ c = c') := by
  unfold eat
  rw [bind_eq_ok]
  constructor
  · rintro ⟨tok, m', hpeek, h⟩
    obtain ⟨rfl, rfl⟩ := peek_eq_ok.mp hpeek
    by_cases htok : c.token = .mark m
    · rw [if_pos htok] at h
      obtain ⟨_, m'', hadv, hpure⟩ := bind_eq_ok.mp h
      obtain ⟨rfl, rfl⟩ := pure_eq_ok.mp hpure
      exact Or.inl ⟨rfl, htok, advance_eq_ok.mp hadv⟩
    · rw [if_neg htok] at h
      obtain ⟨rfl, rfl⟩ := pure_eq_ok.mp h
      exact Or.inr ⟨rfl, htok, rfl⟩
  · rintro (⟨rfl, htok, rfl⟩ | ⟨rfl, htok, rfl⟩)
    · exact ⟨c.token, c, rfl, by rw [if_pos htok]; rfl⟩
    · exact ⟨c.token, c, rfl, by rw [if_neg htok]; rfl⟩

@[simp] theorem expect_eq_ok {m : Mark} {u : Unit} {c c' : Cursor} :
    expect m c = .ok u c' ↔ c.token = .mark m ∧ c.next = c' := by
  unfold expect
  rw [bind_eq_ok]
  constructor
  · rintro ⟨tok, m', hpeek, h⟩
    obtain ⟨rfl, rfl⟩ := peek_eq_ok.mp hpeek
    by_cases htok : c.token = .mark m
    · rw [if_pos htok] at h
      exact ⟨htok, advance_eq_ok.mp h⟩
    · rw [if_neg htok] at h
      exact absurd h (by simp)
  · rintro ⟨htok, rfl⟩
    exact ⟨c.token, c, rfl, by rw [if_pos htok]; rfl⟩

/-! ## Running a parser -/

/-- The next token is known to what follows a look at it. -/
@[simp] theorem peek_bind {f : Token → Parser β} {c : Cursor} : (peek >>= f) c = f c.token c := rfl

@[simp] theorem remaining_bind {f : Nat → Parser β} {c : Cursor} :
    (remaining >>= f) c = f c.rest.length c := rfl

@[simp] theorem advance_bind {f : Unit → Parser β} {c : Cursor} :
    (advance >>= f) c = f () c.next := rfl

@[simp] theorem keyword?_bind {f : Option String → Parser β} {c : Cursor} :
    (keyword? >>= f) c = f c.keyword? c := rfl

/-- A sequence goes on behind a part that returns. -/
theorem bind_of_ok {p : Parser α} {f : α → Parser β} {c m : Cursor} {a : α} (h : p c = .ok a m) :
    (p >>= f) c = f a m := by
  show EStateM.bind p f c = f a m
  simp [EStateM.bind, h]

theorem eat_of {m : Mark} {c : Cursor} (h : c.token = .mark m) : eat m c = .ok true c.next := by
  simp [h]

theorem eat_of_ne {m : Mark} {c : Cursor} (h : c.token ≠ .mark m) : eat m c = .ok false c := by
  simp [h]

theorem expect_of {m : Mark} {c : Cursor} (h : c.token = .mark m) : expect m c = .ok () c.next := by
  simp [h]

/-- A name is read where the next token is one. -/
theorem identifier_eq_ok {name : String} {c c' : Cursor} :
    identifier c = .ok name c' ↔ c.token = .ident name ∧ c.next = c' := by
  show (peek >>= _) c = _ ↔ _
  rw [peek_bind]
  cases htok : c.token with
  | ident id =>
      show (advance >>= fun _ => pure id) c = _ ↔ _
      rw [advance_bind, pure_eq_ok, Token.ident.injEq]
  | _ => simp

/-! ## Soundness -/

/-- Whatever the parser returns was read from tokens of the language. -/
def Sound (p : Parser α) (L : Language α) : Prop :=
  ∀ ⦃c c' a⦄, p c = .ok a c' → ∃ ts, c.Reads ts c' ∧ L ts a

/-- What is made of a part was read from the tokens of the part. -/
theorem Sound.of_bind_pure {p : Parser α} {L : Language α} (h : Sound p L) {f : α → β} {b : β}
    {c c' : Cursor} (hp : (p >>= fun a => pure (f a)) c = .ok b c') :
    ∃ a ts, f a = b ∧ c.Reads ts c' ∧ L ts a := by
  obtain ⟨a, m, ha, hpure⟩ := bind_eq_ok.mp hp
  obtain ⟨hab, rfl⟩ := pure_eq_ok.mp hpure
  obtain ⟨ts, hts, hL⟩ := h ha
  exact ⟨a, ts, hab, hts, hL⟩

/-- A token that is not the end leads to the next cursor. -/
theorem reads_next {c : Cursor} {tok : Token} (htok : c.token = tok) (hne : tok ≠ .eof) :
    c.Reads [tok] c.next := ⟨hne, htok, rfl⟩

/-- What is made of a part in front of a closing mark was read from the tokens of the part and the
    mark. -/
theorem Sound.of_closed {p : Parser α} {L : Language α} (h : Sound p L) {close : Mark} {f : α → β}
    {b : β} {c c' : Cursor} (hp : (p >>= fun a => expect close >>= fun _ => pure (f a)) c = .ok b c') :
    ∃ a ts, f a = b ∧ c.Reads (ts ++ [.mark close]) c' ∧ L ts a := by
  obtain ⟨a, m, ha, hp⟩ := bind_eq_ok.mp hp
  obtain ⟨_, m', hexpect, hpure⟩ := bind_eq_ok.mp hp
  obtain ⟨hclose, rfl⟩ := expect_eq_ok.mp hexpect
  obtain ⟨hab, rfl⟩ := pure_eq_ok.mp hpure
  obtain ⟨ts, hts, hL⟩ := h ha
  exact ⟨a, ts, hab, Cursor.reads_append.mpr ⟨m, hts, reads_next hclose nofun⟩, hL⟩

/-! ## Adjacent texts -/

/-- The texts that are joined are the tokens in front of the first that is none. -/
theorem joinTexts_eq (rest : List (Located Token)) (last : Position) :
    ∃ parts : List String, (joinTexts rest).1 = String.join parts
      ∧ Cursor.Reads ⟨rest, last⟩ (parts.map Token.str) ⟨(joinTexts rest).2, last⟩
      ∧ ∀ s, Cursor.token ⟨(joinTexts rest).2, last⟩ ≠ .str s := by
  induction rest with
  | nil => exact ⟨[], rfl, rfl, fun _ => nofun⟩
  | cons t rest ih =>
      obtain ⟨value, pos⟩ := t
      cases value with
      | str text =>
          obtain ⟨parts, hjoin, hreads, hstop⟩ := ih
          refine ⟨text :: parts, ?_, ⟨nofun, rfl, hreads⟩, hstop⟩
          rw [String.join_cons, ← hjoin]
          rfl
      | _ => exact ⟨[], rfl, rfl, fun _ => nofun⟩

/-- What is read as one text was a row of texts, up to the first token that is none. -/
theorem texts_sound {c c' : Cursor} {text : String} (h : texts c = .ok text c') :
    ∃ parts : List String, c.Reads (parts.map Token.str) c' ∧ text = String.join parts
      ∧ ∀ s, c'.token ≠ .str s := by
  obtain ⟨parts, hjoin, hreads, hstop⟩ := joinTexts_eq c.rest c.last
  injection h with htext hc'
  rw [← hc']
  exact ⟨parts, hreads, htext.symm.trans hjoin, hstop⟩

/-- A row of texts in front of another token is read as one. -/
theorem texts_of {c c' : Cursor} {parts : List String} (h : c.Reads (parts.map Token.str) c')
    (hstop : ∀ s, c'.token ≠ .str s) : texts c = .ok (String.join parts) c' := by
  induction parts generalizing c with
  | nil =>
      obtain rfl : c = c' := h
      obtain ⟨rest, last⟩ := c
      cases rest with
      | nil => rfl
      | cons t rest =>
          obtain ⟨value, pos⟩ := t
          cases value with
          | str s => exact absurd rfl (hstop s)
          | _ => rfl
  | cons text parts ih =>
      obtain ⟨hne, htok, hreads⟩ := h
      obtain ⟨rest, last⟩ := c
      cases rest with
      | nil => exact absurd htok.symm hne
      | cons t rest =>
          obtain ⟨value, pos⟩ := t
          obtain rfl : value = .str text := htok
          have := ih hreads
          injection this with hjoin hc'
          rw [String.join_cons, ← hjoin, ← hc']
          rfl

end Parser

end CallSite
