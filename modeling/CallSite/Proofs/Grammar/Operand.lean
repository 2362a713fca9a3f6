import CallSite.Proofs.Grammar.Bracket

/-!
# Operands — atoms, what follows them, and unary operators

The readers of atoms and of attributes, calls and subscripts read `Atom` and `Postfix`.  A postfix
expression grows to the right while it is read, so its soundness is stated for what stands in front
(`trailersWithin_sound`), and its completeness says that the loop comes by every postfix expression
on its way (`trailers_reach`).
-/

namespace CallSite

open Grammar

namespace Parser

variable {sub : Nat → Parser Node} {inner : Nat → Language Node}

/-! ## Parentheses -/

theorem parenthesized_sound (R : Recognizes sub inner) :
    Sound (parenthesized sub) fun ts t => Atom inner (.mark .leftParen :: ts) t := by
  intro c c' t h
  simp only [parenthesized] at h
  obtain ⟨b, m, heat, h⟩ := bind_eq_ok.mp h
  rcases eat_eq_ok.mp heat with ⟨rfl, hclose, rfl⟩ | ⟨rfl, -, rfl⟩
  · obtain ⟨rfl, rfl⟩ := pure_eq_ok.mp h
    exact ⟨[.mark .rightParen], reads_next hclose nofun, Atom.unit⟩
  · obtain ⟨first, m, hfirst, h⟩ := bind_eq_ok.mp h
    obtain ⟨ts, hts, hitem⟩ := displayItem_sound R hfirst
    obtain ⟨b, m', heat, h⟩ := bind_eq_ok.mp h
    rcases eat_eq_ok.mp heat with ⟨rfl, hclose, rfl⟩ | ⟨rfl, hopen, rfl⟩
    · -- one item and no comma: a group, which must not be starred
      cases hitem with
      | starred _ =>
          obtain ⟨_, _, hfail, -⟩ := bind_eq_ok.mp h
          exact absurd hfail (by simp)
      | plain hinner =>
          have ht : first = t ∧ m.next = c' := by
            cases first with
            | starred v => exact absurd rfl (R.unstarred hinner v)
            | _ => exact pure_eq_ok.mp h
          obtain ⟨rfl, rfl⟩ := ht
          refine ⟨ts ++ [Token.mark .rightParen], ?_, Atom.group hinner⟩
          exact Cursor.reads_append.mpr ⟨m, hts, reads_next hclose nofun⟩
    · obtain ⟨b, m', heat, h⟩ := bind_eq_ok.mp h
      rcases eat_eq_ok.mp heat with ⟨rfl, hcomma, rfl⟩ | ⟨rfl, hcomma, rfl⟩
      · obtain ⟨_, us, rfl, hus, more, hmore, rfl⟩ :=
          (items_snoc_sound (moreItems_reads R (by simp)) [first]).of_closed h
        refine ⟨(ts ++ .mark .comma :: us) ++ [Token.mark .rightParen], ?_, Atom.tuple hitem hmore⟩
        rw [List.append_assoc]
        exact Cursor.reads_append.mpr ⟨m, hts, nofun, hcomma, hus⟩
      · -- neither a comma nor the bracket comes next
        obtain ⟨_, _, hread, h⟩ := bind_eq_ok.mp h
        obtain ⟨-, rfl⟩ := pure_eq_ok.mp hread
        obtain ⟨_, m', hexpect, -⟩ := bind_eq_ok.mp h
        exact absurd (expect_eq_ok.mp hexpect).1 hopen

theorem parenthesized_unit {c : Cursor} (hclose : c.token = .mark .rightParen) :
    parenthesized sub c = .ok (.tuple []) c.next := by
  simp only [parenthesized]
  rw [bind_of_ok (eat_of hclose)]
  rfl

/-- No bracket is closed where an item begins. -/
theorem Item.token_ne_close (R : Recognizes sub inner) {ts : List Token} {t : Node}
    (ht : Item inner ts t) {c c' : Cursor} (hc : c.Reads ts c') :
    c.token ≠ .mark .rightParen := by
  obtain ⟨tok, rest, rfl, htok⟩ := (moreItems_reads R (Or.inl rfl)).begins ht
  rw [hc.2.1]
  exact htok

theorem parenthesized_group (R : Recognizes sub inner) {ts : List Token} {t : Node}
    (ht : inner 0 ts t) {c m : Cursor} (hc : c.Reads ts m) (hm : m.token = .mark .rightParen) :
    parenthesized sub c = .ok t m.next := by
  have hfollows : Follows 0 m.token := follows_of_comma_or (Or.inl rfl) (Or.inr hm)
  simp only [parenthesized]
  rw [bind_of_ok (eat_of_ne (Item.token_ne_close R (.plain ht) hc))]
  show (displayItem sub >>= _) c = _
  rw [bind_of_ok (displayItem_complete R (.plain ht) hc hfollows), bind_of_ok (eat_of hm)]
  cases t with
  | starred v => exact absurd rfl (R.unstarred ht v)
  | _ => rfl

theorem parenthesized_tuple (R : Recognizes sub inner) {ts us : List Token} {t : Node}
    {more : List Node} (ht : Item inner ts t) (hmore : Row (Item inner) us more) {c m : Cursor}
    (hc : c.Reads (ts ++ .mark .comma :: us) m) (hm : m.token = .mark .rightParen) :
    parenthesized sub c = .ok (.tuple (t :: more)) m.next := by
  obtain ⟨m', hts, -, hcomma, hus⟩ := Cursor.reads_append.mp hc
  have hfollows : Follows 0 m'.token := follows_of_comma_or (Or.inl rfl) (Or.inl hcomma)
  have hopen : m'.token ≠ .mark .rightParen := by
    rw [hcomma]
    exact nofun
  have hread : items .rightParen (moreItems sub) [t] m'.next = .ok (t :: more) m :=
    items_complete (moreItems_reads R (Or.inl rfl)) nofun hmore (foldlM_snoc more [t]) hus hm
  simp only [parenthesized]
  rw [bind_of_ok (eat_of_ne (Item.token_ne_close R ht hts))]
  show (displayItem sub >>= _) c = _
  rw [bind_of_ok (displayItem_complete R ht hts hfollows), bind_of_ok (eat_of_ne hopen)]
  show (eat .comma >>= _) m' = _
  rw [bind_of_ok (eat_of hcomma)]
  show (items .rightParen (moreItems sub) [t] >>= _) m'.next = _
  rw [bind_of_ok hread, bind_of_ok (expect_of hm)]
  rfl

/-! ## Lists, dictionaries, arguments and indices -/

theorem listDisplay_sound (R : Recognizes sub inner) :
    Sound (listDisplay sub) fun ts t => Atom inner (.mark .leftBracket :: ts) t := by
  intro c c' t h
  obtain ⟨_, ts, rfl, hts, as, has, rfl⟩ :=
    (items_snoc_sound (moreItems_reads R (by simp)) []).of_closed h
  exact ⟨_, hts, .list has⟩

theorem listDisplay_complete (R : Recognizes sub inner) {ts : List Token} {as : List Node}
    (has : Row (Item inner) ts as) {c m : Cursor} (hc : c.Reads ts m)
    (hm : m.token = .mark .rightBracket) : listDisplay sub c = .ok (.list as) m.next := by
  have hread : items .rightBracket (moreItems sub) [] c = .ok as m :=
    items_complete (moreItems_reads R (Or.inr (Or.inl rfl))) nofun has (foldlM_snoc as []) hc hm
  unfold listDisplay
  rw [bind_of_ok hread, bind_of_ok (expect_of hm)]
  rfl

theorem dictDisplay_sound (R : Recognizes sub inner) :
    Sound (dictDisplay sub) fun ts t => Atom inner (.mark .leftBrace :: ts) t := by
  intro c c' t h
  obtain ⟨_, ts, rfl, hts, es, hes, rfl⟩ :=
    (items_snoc_sound (moreEntries_reads R) []).of_closed h
  exact ⟨_, hts, .dict hes⟩

theorem dictDisplay_complete (R : Recognizes sub inner) {ts : List Token}
    {es : List (Entry Node)} (hes : Row (EntryText inner) ts es) {c m : Cursor}
    (hc : c.Reads ts m) (hm : m.token = .mark .rightBrace) :
    dictDisplay sub c = .ok (.dict es) m.next := by
  have hread : items .rightBrace (moreEntries sub) [] c = .ok es m :=
    items_complete (moreEntries_reads R) nofun hes (foldlM_snoc es []) hc hm
  unfold dictDisplay
  rw [bind_of_ok hread, bind_of_ok (expect_of hm)]
  rfl

theorem arguments_sound (R : Recognizes sub inner) (func : Node) :
    Sound (arguments sub func) fun ts site =>
      ∃ us, ts = us ++ [.mark .rightParen] ∧ Arguments inner func us site := by
  intro c c' site h
  obtain ⟨read, ts, rfl, hts, args, hargs, hfold⟩ :=
    (items_sound (moreArguments_reads R) ⟨func, [], []⟩).of_closed h
  obtain ⟨hpair, -, rfl⟩ := (foldlM_takeArgument _).mp hfold
  exact ⟨_, hts, ts, rfl, .mk hargs hpair⟩

/-- In front of all keyword arguments every argument may stand. -/
theorem mayFollow_nil (a : Argument) : MayFollow [] a := by
  cases a <;> simp [MayFollow]

theorem arguments_complete (R : Recognizes sub inner) {func : Node} {ts : List Token}
    {site : Call Node} (hargs : Arguments inner func ts site) {c m : Cursor} (hc : c.Reads ts m)
    (hm : m.token = .mark .rightParen) : arguments sub func c = .ok site m.next := by
  obtain ⟨hrow, hpair⟩ := hargs
  have hfold := (foldlM_takeArgument ⟨func, [], []⟩).mpr
    ⟨hpair, fun a _ => mayFollow_nil a, rfl⟩
  have hread := items_complete (moreArguments_reads R) nofun hrow hfold hc hm
  unfold arguments
  rw [bind_of_ok hread, bind_of_ok (expect_of hm)]
  rfl

theorem indices_sound (R : Recognizes sub inner) :
    Sound (indices sub) fun ts slice =>
      ∃ us, ts = us ++ [.mark .rightBracket] ∧ Slice inner us slice := by
  intro c c' slice h
  obtain ⟨first, m, hfirst, h⟩ := bind_eq_ok.mp h
  obtain ⟨ts, hts, hinner⟩ := expression_sound R hfirst
  rw [peek_bind] at h
  by_cases hcolon : m.token = .mark .colon
  · rw [if_pos hcolon] at h
    exact absurd h (by simp)
  rw [if_neg hcolon] at h
  obtain ⟨b, m', heat, h⟩ := bind_eq_ok.mp h
  rcases eat_eq_ok.mp heat with ⟨rfl, hcomma, rfl⟩ | ⟨rfl, -, rfl⟩
  · obtain ⟨read, m', hread, h⟩ := bind_eq_ok.mp h
    obtain ⟨_, _, hpure, h⟩ := bind_eq_ok.mp h
    obtain ⟨rfl, rfl⟩ := pure_eq_ok.mp hpure
    obtain ⟨_, m'', hexpect, hpure⟩ := bind_eq_ok.mp h
    obtain ⟨hclose, rfl⟩ := expect_eq_ok.mp hexpect
    obtain ⟨rfl, rfl⟩ := pure_eq_ok.mp hpure
    obtain ⟨us, hus, more, hmore, rfl⟩ := items_snoc_sound (moreIndices_reads R) _ hread
    refine ⟨(ts ++ .mark .comma :: us) ++ [Token.mark .rightBracket], ?_, _, rfl,
      .several hinner hmore⟩
    exact Cursor.reads_append.mpr
      ⟨m', Cursor.reads_append.mpr ⟨m, hts, nofun, hcomma, hus⟩, reads_next hclose nofun⟩
  · obtain ⟨_, _, hpure, h⟩ := bind_eq_ok.mp h
    obtain ⟨rfl, rfl⟩ := pure_eq_ok.mp hpure
    obtain ⟨_, m', hexpect, hpure⟩ := bind_eq_ok.mp h
    obtain ⟨hclose, rfl⟩ := expect_eq_ok.mp hexpect
    obtain ⟨rfl, rfl⟩ := pure_eq_ok.mp hpure
    refine ⟨ts ++ [Token.mark .rightBracket], ?_, ts, rfl, .single hinner⟩
    exact Cursor.reads_append.mpr ⟨m, hts, reads_next hclose nofun⟩

theorem indices_complete (R : Recognizes sub inner) {ts : List Token} {slice : Node}
    (hslice : Slice inner ts slice) {c m : Cursor} (hc : c.Reads ts m)
    (hm : m.token = .mark .rightBracket) : indices sub c = .ok slice m.next := by
  unfold indices
  cases hslice with
  | single ht =>
      have hfollows : Follows 0 m.token := follows_of_comma_or (by simp) (Or.inr hm)
      rw [bind_of_ok (expression_complete R ht hc hfollows), peek_bind,
        if_neg (by rw [hm]; exact nofun), bind_of_ok (eat_of_ne (by rw [hm]; exact nofun))]
      show (expect .rightBracket >>= _) m = _
      rw [bind_of_ok (expect_of hm)]
      rfl
  | @several us vs t more ht hmore =>
      obtain ⟨m', hts, -, hcomma, hus⟩ := Cursor.reads_append.mp hc
      have hfollows : Follows 0 m'.token :=
        follows_of_comma_or (Or.inr (Or.inl rfl)) (Or.inl hcomma)
      have hread : items .rightBracket (moreIndices sub) [t] m'.next = .ok (t :: more) m :=
        items_complete (moreIndices_reads R) nofun hmore (foldlM_snoc more [t]) hus hm
      rw [bind_of_ok (expression_complete R ht hts hfollows), peek_bind,
        if_neg (by rw [hcomma]; exact nofun), bind_of_ok (eat_of hcomma)]
      show (items .rightBracket (moreIndices sub) [t] >>= _) m'.next = _
      rw [bind_of_ok hread]
      show (expect .rightBracket >>= _) m = _
      rw [bind_of_ok (expect_of hm)]
      rfl

/-! ## Atoms -/

/-- A literal that is one token stands for its value. -/
theorem literal_sound (value : Constant) (hvalue : ∀ s, value ≠ .str s) {c c' : Cursor} {t : Node}
    (htok : c.token = value.token)
    (h : (advance >>= fun _ => pure (Node.constant value)) c = .ok t c') :
    ∃ ts, c.Reads ts c' ∧ Atom inner ts t := by
  rw [advance_bind, pure_eq_ok] at h
  obtain ⟨rfl, rfl⟩ := h
  refine ⟨[value.token], reads_next htok ?_, .constant value hvalue⟩
  cases value with
  | bool b => cases b <;> exact nofun
  | _ => exact nofun

/-- What is read behind an opening mark is an atom together with it. -/
theorem bracketed_sound {p : Parser Node} {m : Mark}
    (hp : Sound p fun ts t => Atom inner (.mark m :: ts) t) {c c' : Cursor} {t : Node}
    (htok : c.token = .mark m) (h : (advance >>= fun _ => p) c = .ok t c') :
    ∃ ts, c.Reads ts c' ∧ Atom inner ts t := by
  rw [advance_bind] at h
  obtain ⟨ts, hts, ht⟩ := hp h
  exact ⟨.mark m :: ts, ⟨nofun, htok, hts⟩, ht⟩

theorem atom_sound (R : Recognizes sub inner) : Sound (atom sub) (Atom inner) := by
  intro c c' t h
  simp only [atom, peek_bind] at h
  cases htok : c.token with
  | ident name =>
      rw [htok] at h
      obtain ⟨rfl, rfl⟩ := pure_eq_ok.mp h
      exact ⟨[.ident name], reads_next htok nofun, .name name⟩
  | int value =>
      rw [htok] at h
      exact literal_sound (.int value) (fun _ => nofun) htok h
  | float value =>
      rw [htok] at h
      exact literal_sound (.float value) (fun _ => nofun) htok h
  | bytes text =>
      rw [htok] at h
      exact literal_sound (.bytes text) (fun _ => nofun) htok h
  | str text =>
      rw [htok] at h
      obtain ⟨joined, m, htexts, hpure⟩ := bind_eq_ok.mp h
      obtain ⟨rfl, rfl⟩ := pure_eq_ok.mp hpure
      obtain ⟨parts, hparts, rfl, hstop⟩ := texts_sound htexts
      refine ⟨_, hparts, .texts parts ?_⟩
      rintro rfl
      obtain rfl : c = m := hparts
      exact hstop text htok
  | word w =>
      rw [htok] at h
      cases w with
      | trueWord => exact literal_sound (.bool true) (fun _ => nofun) htok h
      | falseWord => exact literal_sound (.bool false) (fun _ => nofun) htok h
      | noneWord => exact literal_sound .absent (fun _ => nofun) htok h
      | _ => exact absurd h (by simp)
  | mark m =>
      rw [htok] at h
      cases m with
      | ellipsis => exact literal_sound .ellipsis (fun _ => nofun) htok h
      | leftParen => exact bracketed_sound (parenthesized_sound R) htok h
      | leftBracket => exact bracketed_sound (listDisplay_sound R) htok h
      | leftBrace => exact bracketed_sound (dictDisplay_sound R) htok h
      | _ => exact absurd h (by simp)
  | eof =>
      rw [htok] at h
      exact absurd h (by simp)

theorem atom_complete (R : Recognizes sub inner) {ts : List Token} {t : Node}
    (ht : Atom inner ts t) {c c' : Cursor} (hc : c.Reads ts c') (hstop : ∀ s, c'.token ≠ .str s) :
    atom sub c = .ok t c' := by
  simp only [atom, peek_bind]
  cases ht with
  | name id =>
      obtain ⟨-, htok, rfl⟩ := hc
      rw [htok]
      rfl
  | constant value hvalue =>
      obtain ⟨-, htok, rfl⟩ := hc
      rw [htok]
      cases value with
      | str s => exact absurd rfl (hvalue s)
      | bool b => cases b <;> rfl
      | _ => rfl
  | texts parts hparts =>
      have htexts := texts_of hc hstop
      cases parts with
      | nil => exact absurd rfl hparts
      | cons text parts =>
          rw [hc.2.1]
          exact bind_of_ok htexts
  | group ht =>
      obtain ⟨-, htok, hc⟩ := hc
      obtain ⟨m, hts, -, hclose, rfl⟩ := Cursor.reads_append.mp hc
      rw [htok]
      exact parenthesized_group R ht hts hclose
  | unit =>
      obtain ⟨-, htok, -, hclose, rfl⟩ := hc
      rw [htok]
      exact parenthesized_unit hclose
  | tuple ht hmore =>
      obtain ⟨-, htok, hc⟩ := hc
      obtain ⟨m, hts, -, hclose, rfl⟩ := Cursor.reads_append.mp hc
      rw [htok]
      exact parenthesized_tuple R ht hmore hts hclose
  | list hitems =>
      obtain ⟨-, htok, hc⟩ := hc
      obtain ⟨m, hts, -, hclose, rfl⟩ := Cursor.reads_append.mp hc
      rw [htok]
      exact listDisplay_complete R hitems hts hclose
  | dict hentries =>
      obtain ⟨-, htok, hc⟩ := hc
      obtain ⟨m, hts, -, hclose, rfl⟩ := Cursor.reads_append.mp hc
      rw [htok]
      exact dictDisplay_complete R hentries hts hclose

/-! ## Attributes, calls and subscripts -/

theorem trailersWithin_sound (R : Recognizes sub inner) {fuel : Nat} {node t : Node}
    {c c' : Cursor} (h : trailersWithin sub fuel node c = .ok t c') :
    ∃ ts, c.Reads ts c' ∧ ∀ us, Postfix inner us node → Postfix inner (us ++ ts) t := by
  induction fuel generalizing node c with
  | zero =>
      obtain ⟨rfl, rfl⟩ := pure_eq_ok.mp h
      exact ⟨[], rfl, fun us hus => by rwa [List.append_nil]⟩
  | succ fuel ih =>
      simp only [trailersWithin, peek_bind] at h
      -- the tokens of one step, and the loop behind it
      have hstep {ts : List Token} {node' : Node} {m : Cursor} (hts : c.Reads ts m)
          (hloop : trailersWithin sub fuel node' m = .ok t c')
          (hgrow : ∀ us, Postfix inner us node → Postfix inner (us ++ ts) node') :
          ∃ ts, c.Reads ts c' ∧ ∀ us, Postfix inner us node → Postfix inner (us ++ ts) t := by
        obtain ⟨vs, hvs, hrest⟩ := ih hloop
        refine ⟨ts ++ vs, Cursor.reads_append.mpr ⟨m, hts, hvs⟩, ?_⟩
        intro us hus
        rw [← List.append_assoc]
        exact hrest _ (hgrow us hus)
      have hstay (h : (pure node : Parser Node) c = .ok t c') :
          ∃ ts, c.Reads ts c' ∧ ∀ us, Postfix inner us node → Postfix inner (us ++ ts) t := by
        obtain ⟨rfl, rfl⟩ := pure_eq_ok.mp h
        exact ⟨[], rfl, fun us hus => by rwa [List.append_nil]⟩
      cases htok : c.token with
      | mark m =>
          rw [htok] at h
          cases m with
          | dot =>
              simp only [advance_bind] at h
              obtain ⟨attr, m, hattr, hloop⟩ := bind_eq_ok.mp h
              obtain ⟨hname, rfl⟩ := identifier_eq_ok.mp hattr
              have hts : c.Reads [.mark .dot, .ident attr] c.next.next :=
                ⟨nofun, htok, reads_next hname nofun⟩
              exact hstep hts hloop fun us hus => hus.member attr
          | leftParen =>
              simp only [advance_bind] at h
              obtain ⟨site, m, hsite, hloop⟩ := bind_eq_ok.mp h
              obtain ⟨_, hus, us, rfl, hargs⟩ := arguments_sound R node hsite
              have hts : c.Reads (.mark .leftParen :: us ++ [.mark .rightParen]) m :=
                ⟨nofun, htok, hus⟩
              refine hstep hts hloop fun vs hvs => ?_
              rw [← List.append_assoc]
              exact hvs.call hargs
          | leftBracket =>
              simp only [advance_bind] at h
              obtain ⟨slice, m, hslice, hloop⟩ := bind_eq_ok.mp h
              obtain ⟨_, hus, us, rfl, hslice⟩ := indices_sound R hslice
              have hts : c.Reads (.mark .leftBracket :: us ++ [.mark .rightBracket]) m :=
                ⟨nofun, htok, hus⟩
              refine hstep hts hloop fun vs hvs => ?_
              rw [← List.append_assoc]
              exact hvs.subscript hslice
          | _ => exact hstay h
      | _ =>
          rw [htok] at h
          exact hstay h

/-- The loop comes from one node and cursor to others, with fuel enough for the tokens left. -/
def Passes (sub : Nat → Parser Node) (a : Node) (m : Cursor) (t : Node) (c : Cursor) : Prop :=
  ∀ fuel ≥ m.rest.length, ∃ fuel' ≥ c.rest.length,
    trailersWithin sub fuel a m = trailersWithin sub fuel' t c

/-- One step of the loop takes at least one token, and so one unit of fuel is enough for it. -/
theorem Passes.step {a node t : Node} {m d c : Cursor} (h : Passes sub a m node d)
    (hlen : c.rest.length < d.rest.length)
    (hstep : ∀ fuel, trailersWithin sub (fuel + 1) node d = trailersWithin sub fuel t c) :
    Passes sub a m t c := by
  intro fuel hfuel
  obtain ⟨fuel', hfuel', hloop⟩ := h fuel hfuel
  obtain ⟨fuel', rfl⟩ : ∃ n, fuel' = n + 1 := ⟨fuel' - 1, by omega⟩
  exact ⟨fuel', by omega, hloop.trans (hstep fuel')⟩

/-- Behind two tokens and what stands between them fewer tokens are left. -/
theorem length_lt_of_bracketed {d n : Cursor} {us : List Token} (hopen : d.token ≠ .eof)
    (hus : d.next.Reads us n) (hclose : n.token ≠ .eof) :
    n.next.rest.length < d.rest.length := by
  have hlen := Cursor.length_next hopen
  have hlen' := Cursor.length_next hclose
  have hus' := hus.length
  omega

/-- The loop comes by every postfix expression that it can read. -/
theorem trailers_reach (R : Recognizes sub inner) {ts : List Token} {t : Node}
    (ht : Postfix inner ts t) {c c' : Cursor} (hc : c.Reads ts c')
    (hstop : ∀ s, c'.token ≠ .str s) :
    ∃ a m, atom sub c = .ok a m ∧ Passes sub a m t c' := by
  induction ht generalizing c' with
  | atom ht => exact ⟨_, c', atom_complete R ht hc hstop, fun fuel hfuel => ⟨fuel, hfuel, rfl⟩⟩
  | member attr _ ih =>
      obtain ⟨d, hts, -, hdot, -, hattr, rfl⟩ := Cursor.reads_append.mp hc
      obtain ⟨a, m, hatom, hpasses⟩ := ih hts (by rw [hdot]; exact fun _ => nofun)
      refine ⟨a, m, hatom, hpasses.step ?_ fun fuel => ?_⟩
      · have hnone : d.next.Reads [] d.next := rfl
        exact length_lt_of_bracketed (by rw [hdot]; exact nofun) hnone
          (by rw [hattr]; exact nofun)
      · simp only [trailersWithin, peek_bind, hdot, advance_bind]
        exact bind_of_ok (identifier_eq_ok.mpr ⟨hattr, rfl⟩)
  | call _ hargs ih =>
      obtain ⟨n, hn, -, hclose, rfl⟩ := Cursor.reads_append.mp hc
      obtain ⟨d, hts, -, hopen, hus⟩ := Cursor.reads_append.mp hn
      obtain ⟨a, m, hatom, hpasses⟩ := ih hts (by rw [hopen]; exact fun _ => nofun)
      refine ⟨a, m, hatom, hpasses.step ?_ fun fuel => ?_⟩
      · exact length_lt_of_bracketed (by rw [hopen]; exact nofun) hus
          (by rw [hclose]; exact nofun)
      · simp only [trailersWithin, peek_bind, hopen]
        exact bind_of_ok (arguments_complete R hargs hus hclose)
  | subscript _ hslice ih =>
      obtain ⟨n, hn, -, hclose, rfl⟩ := Cursor.reads_append.mp hc
      obtain ⟨d, hts, -, hopen, hus⟩ := Cursor.reads_append.mp hn
      obtain ⟨a, m, hatom, hpasses⟩ := ih hts (by rw [hopen]; exact fun _ => nofun)
      refine ⟨a, m, hatom, hpasses.step ?_ fun fuel => ?_⟩
      · exact length_lt_of_bracketed (by rw [hopen]; exact nofun) hus
          (by rw [hclose]; exact nofun)
      · simp only [trailersWithin, peek_bind, hopen]
        exact bind_of_ok (indices_complete R hslice hus hclose)

/-- In front of a token that closes an operand the loop stops. -/
theorem trailersWithin_stop {fuel : Nat} {t : Node} {c : Cursor} (h : c.token.closes = true) :
    trailersWithin sub fuel t c = .ok t c := by
  cases fuel with
  | zero => rfl
  | succ fuel =>
      simp only [trailersWithin, peek_bind]
      cases htok : c.token with
      | mark m =>
          rw [htok] at h
          cases m with
          | dot | leftParen | leftBracket => exact absurd h (by decide)
          | _ => rfl
      | _ => rfl

/-! ## Operands -/

theorem primary_sound (R : Recognizes sub inner) : Sound (primary sub) (Postfix inner) := by
  intro c c' t h
  obtain ⟨node, m, hatom, h⟩ := bind_eq_ok.mp h
  rw [remaining_bind] at h
  obtain ⟨ts, hts, hnode⟩ := atom_sound R hatom
  obtain ⟨us, hus, hgrow⟩ := trailersWithin_sound R h
  exact ⟨ts ++ us, Cursor.reads_append.mpr ⟨m, hts, hus⟩, hgrow ts (.atom hnode)⟩

theorem primary_complete (R : Recognizes sub inner) {ts : List Token} {t : Node}
    (ht : Postfix inner ts t) {c c' : Cursor} (hc : c.Reads ts c')
    (hc' : c'.token.closes = true) : primary sub c = .ok t c' := by
  have hstop (s : String) : c'.token ≠ .str s := by
    intro htok
    rw [htok] at hc'
    exact absurd hc' nofun
  obtain ⟨a, m, hatom, hpasses⟩ := trailers_reach R ht hc hstop
  obtain ⟨fuel', -, hloop⟩ := hpasses _ (Nat.le_refl _)
  simp only [primary]
  rw [bind_of_ok hatom, remaining_bind, hloop, trailersWithin_stop hc']

/-- What stands in front of an operand is a unary operator, or the operand is a postfix
    expression. -/
theorem unary_sound (R : Recognizes sub inner) {p : Nat} {t : Node} {c c' : Cursor}
    (h : unary sub p c = .ok t c') :
    (∃ ts, c.Reads ts c' ∧ Postfix inner ts t) ∨
      ∃ op ts u, c.Reads (UnaryOp.token op :: ts) c' ∧ t = .unary op u ∧ inner op.precedence ts u
        ∧ (op = .not → p ≤ 3) ∧ Below op.precedence c'.token := by
  simp only [unary, peek_bind] at h
  cases hop : UnaryOp.ofToken? c.token with
  | none =>
      rw [hop] at h
      exact Or.inl (primary_sound R h)
  | some op =>
      rw [hop] at h
      by_cases hnot : op = .not ∧ op.precedence < p
      · simp only [if_pos hnot, fail_eq_ok] at h
      · simp only [if_neg hnot, advance_bind] at h
        obtain ⟨u, m, hu, hpure⟩ := bind_eq_ok.mp h
        obtain ⟨rfl, rfl⟩ := pure_eq_ok.mp hpure
        obtain ⟨ts, hts, hinner⟩ := R.sound _ hu
        have hmin : min op.precedence 11 = op.precedence := by cases op <;> rfl
        have htok := (UnaryOp.token_of_ofToken? hop).symm
        refine Or.inr ⟨op, ts, u, ⟨op.token_ne_eof, htok, hts⟩, rfl, hmin ▸ hinner, ?_, R.stops hu⟩
        rintro rfl
        exact Nat.le_of_not_lt fun hlt => hnot ⟨rfl, hlt⟩

theorem unary_postfix (R : Recognizes sub inner) {ts : List Token} {t : Node}
    (ht : Postfix inner ts t) {c c' : Cursor} (hc : c.Reads ts c')
    (hc' : c'.token.closes = true) (p : Nat) : unary sub p c = .ok t c' := by
  simp only [unary, peek_bind, ht.unsigned.ofToken?_eq_none hc]
  exact primary_complete R ht hc hc'

theorem unary_prefix (R : Recognizes sub inner) {op : UnaryOp} {ts : List Token} {u : Node}
    (hu : inner op.precedence ts u) {c c' : Cursor} (hc : c.Reads (op.token :: ts) c')
    (hc' : Follows op.precedence c'.token) {p : Nat} (hp : op = .not → p ≤ 3) :
    unary sub p c = .ok (.unary op u) c' := by
  obtain ⟨-, htok, hts⟩ := hc
  have hmin : min op.precedence 11 = op.precedence := by cases op <;> rfl
  have hle : op.precedence ≤ 12 := by cases op <;> decide
  have hnot : ¬ (op = .not ∧ op.precedence < p) := by
    rintro ⟨rfl, hlt⟩
    exact Nat.not_lt.mpr (hp rfl) hlt
  simp only [unary, peek_bind, htok, UnaryOp.ofToken?_token, if_neg hnot, advance_bind]
  exact bind_of_ok (R.complete hle (hmin.symm ▸ hu) hts hc')

end Parser

end CallSite
