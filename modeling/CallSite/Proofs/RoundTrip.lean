import CallSite.Proofs.Grammar.Climbing
import CallSite.Proofs.Grammar.Depth
import CallSite.Proofs.Lexing.Gluing
import CallSite.Proofs.Tree.Counting
import CallSite.Proofs.Tree.Rederivation
import CallSite.Proofs.Tree.Separation

/-!
# Round trip — reading the source text of an expression

A source text is read as a tree, the tree is resolved, and the expression is written as a text
again.  That text is read as the same tree iff the tree has no flaw and its written nesting leaves
room (`ofSource_source_iff`).  Without a flaw the text is read as the same tree or is nested too
deeply, and the latter only when a unary operator stands to the right of a power
(`ofSource_source`).

What is read from the text of a flawed tree is some other tree, since every text of the tree costs
more than the one that is written: it has more integers, an infinite number, or more parentheses.
-/

namespace CallSite

open Grammar
open CallSite.Parser

/-! ## Trees of source texts -/

/-- Every text of a tree pays for it. -/
theorem Grammar.Derives.toll_le {n : Nat} {ts : List Token} {t : Node} (h : Derives n 0 ts t)
    (σ : Toll) (hσ : σ.paren ≤ σ.sign) : t.toll σ ≤ σ.cost .opened ts := by
  have htext : Seat.Text (Derives n) (.nested 0) ts t := h
  exact toll_of_text hσ htext

namespace Node

/-- The tree of a text that is cut into tokens. -/
def Sourced (t : Node) : Prop := ∃ ts, (∀ tok ∈ ts, tok.Lexed) ∧ Derives maxNesting 0 ts t

end Node

/-- Reading a text is cutting it into tokens and deriving the tree from them. -/
theorem Node.ofSource_eq_ok {src : String} {t : Node} :
    Node.ofSource src = .ok t ↔ ∃ located stop,
      tokenize src = .ok (located ++ [⟨.eof, stop⟩]) ∧ (∀ x ∈ located, x.value.Lexed)
        ∧ Derives maxNesting 0 (located.map Located.value) t := by
  constructor
  · intro h
    cases htokens : tokenize src with
    | error e =>
        rw [Node.ofSource, htokens] at h
        exact absurd h nofun
    | ok ts =>
        rw [Node.ofSource, htokens] at h
        have hread : complete.onTokens ts = .ok t := h
        obtain ⟨located, stop, rfl, hlexed⟩ := lexed_of_tokensFrom htokens
        refine ⟨located, stop, rfl, hlexed, ?_⟩
        exact (completeWithin_iff maxNesting fun x hx => (hlexed x hx).ne_eof).mp hread
  · rintro ⟨located, stop, htokens, hlexed, hderives⟩
    rw [Node.ofSource, htokens]
    exact (completeWithin_iff maxNesting fun x hx => (hlexed x hx).ne_eof).mpr hderives

theorem Node.sourced_of_ofSource {src : String} {t : Node} (h : Node.ofSource src = .ok t) :
    t.Sourced := by
  obtain ⟨located, stop, -, hlexed, hderives⟩ := Node.ofSource_eq_ok.mp h
  refine ⟨located.map Located.value, fun tok htok => ?_, hderives⟩
  obtain ⟨x, hx, rfl⟩ := List.mem_map.mp htok
  exact hlexed x hx

namespace Node.Sourced

variable {t : Node}

theorem lawful (h : t.Sourced) : t.Lawful := by
  obtain ⟨ts, -, hderives⟩ := h
  have htext : Seat.Text (Derives maxNesting) (.nested 0) ts t := hderives
  exact lawful_of_text htext

/-- The text of a tree gives it the depth that it needs in any text. -/
theorem tightNesting_lt (h : t.Sourced) : t.nesting Slot.tightSteps < maxNesting := by
  obtain ⟨ts, -, hderives⟩ := h
  have htext : Seat.Text (Derives maxNesting) (.nested 0) ts t := hderives
  exact nesting_of_text htext

/-- For some toll that charges for every token that comes out of no text, the tree is free. -/
theorem exists_toll (h : t.Sourced) :
    ∃ σ : Toll, (∀ tok, σ.leaf tok = 0 → tok.Lexed) ∧ t.toll σ = 0 := by
  classical
  obtain ⟨ts, hlexed, hderives⟩ := h
  let σ : Toll := .counting fun tok => !decide tok.Lexed
  have hσ : ∀ tok, σ.leaf tok = 0 → tok.Lexed := by
    intro tok hleaf
    by_contra hno
    have hcounts : (!decide tok.Lexed) = true := by
      rw [decide_eq_false hno]
      rfl
    have hone : σ.leaf tok = 1 := if_pos hcounts
    exact absurd (hone.symm.trans hleaf) nofun
  have hcost : σ.cost .opened ts = 0 := by
    refine Toll.cost_counting_eq_zero.mpr fun tok htok _ => ?_
    rw [decide_eq_true (hlexed tok htok)]
    rfl
  have hpays := hderives.toll_le σ (Nat.le_refl 0)
  exact ⟨σ, hσ, Nat.le_zero.mp (hcost ▸ hpays)⟩

/-- The names and numbers of the tree are tokens that may come out of a text. -/
theorem separated (h : t.Sourced) {glued : Prop} (hglued : t.Contains IntegerBase → glued) :
    Separated glued t := by
  obtain ⟨σ, hσ, hfree⟩ := h.exists_toll
  exact h.lawful.separated hσ hfree hglued

end Node.Sourced

/-! ## Reading the written text -/

theorem Toll.cost_counting_isInt {p : Place} {ts : List Token} :
    (counting Token.isInt).cost p ts = ts.countP Token.isInt := by
  rw [cost_counting]
  refine congrArg (ts.countP ·) (funext fun tok => ?_)
  cases tok <;> rfl

namespace Piece

variable {ps : List Piece} {u : Node}

/-- Pieces that may stand in their order are cut into their own tokens, where infinite numbers have
    become names. -/
theorem Linked.tokenize (h : Linked False ps) :
    ∃ located stop,
      tokenize (String.ofList (ps.flatMap chars)) = .ok (located ++ [⟨.eof, stop⟩])
        ∧ located.map Located.value = (tokens ps).map Token.asRead
        ∧ ∀ x ∈ located, x.value ≠ .eof := by
  obtain ⟨located, stop, htokens, hvalues⟩ := lexes_pieces h.written h.joins .start
  refine ⟨located, stop, ?_, hvalues, fun x hx heof => ?_⟩
  · rw [CallSite.tokenize, String.toList_ofList]
    exact htokens
  · have hmem : x.value ∈ (tokens ps).map Token.asRead := hvalues ▸ List.mem_map_of_mem hx
    obtain ⟨tok, htok, hread⟩ := List.mem_map.mp hmem
    obtain ⟨p, hp, hptok⟩ := List.mem_filterMap.mp htok
    have hlegible := (h.written p hp tok hptok).1
    rw [hread, heof] at hlegible
    exact hlegible

/-- What is read from pieces is what their tokens derive. -/
theorem Linked.ofSource_iff (h : Linked False ps) :
    Node.ofSource (String.ofList (ps.flatMap chars)) = .ok u
      ↔ Derives maxNesting 0 ((tokens ps).map Token.asRead) u := by
  obtain ⟨located, stop, htokens, hvalues, heof⟩ := h.tokenize
  rw [Node.ofSource, htokens, ← hvalues]
  exact completeWithin_iff maxNesting heof

/-- Where an integer stands in front of a point, what is read has fewer integers than the pieces. -/
theorem Linked.toll_lt {glued : Prop} (h : Linked glued ps) (hlast : mark .dot ∉ ps.getLast?)
    (hglued : GluedIn ps) (hread : Node.ofSource (String.ofList (ps.flatMap chars)) = .ok u) :
    u.toll (.counting Token.isInt) < (tokens ps).countP Token.isInt := by
  obtain ⟨located, stop, htokens, -, hderives⟩ := Node.ofSource_eq_ok.mp hread
  rw [CallSite.tokenize, String.toList_ofList] at htokens
  have hlost := (ints_le h hlast htokens).2 hglued
  have hcount : intCount (located ++ [⟨.eof, stop⟩])
      = (located.map Located.value).countP Token.isInt := by
    rw [intCount_append]
    rfl
  have hpays := hderives.toll_le (.counting Token.isInt) (Nat.le_refl 0)
  rw [Toll.cost_counting_isInt] at hpays
  calc u.toll (.counting Token.isInt) ≤ (located.map Located.value).countP Token.isInt := hpays
    _ < (tokens ps).countP Token.isInt := hcount ▸ hlost

end Piece

namespace Node

variable {t u : Node}

/-- Where no integer stands in front of a point, what is read from the text is what its tokens derive,
    where infinite numbers have become names. -/
theorem Sourced.ofSource_iff_derives (h : t.Sourced) (hint : ¬ t.Contains IntegerBase) :
    Node.ofSource t.source = .ok u ↔ Derives maxNesting 0 (t.tokens.map Token.asRead) u :=
  (h.separated hint).apart.toLinked.ofSource_iff

end Node

/-! ## Flawed trees -/

section

variable {σ : Toll} {t : Node}

/-- Where names and numbers are free, it does not matter that infinite numbers become names. -/
theorem Toll.cost_asRead (hσ : ∀ tok, σ.leaf tok = 0) {p : Place} {ts : List Token} :
    σ.cost p (ts.map Token.asRead) = σ.cost p ts := by
  induction ts generalizing p with
  | nil => rfl
  | cons tok ts ih =>
      have hsame : σ.one p tok.asRead = σ.one p tok ∧ p.after tok.asRead = p.after tok := by
        cases tok with
        | float x =>
            cases hfinite : x.isFinite with
            | true =>
                rw [Token.asRead_float hfinite]
                exact ⟨rfl, rfl⟩
            | false =>
                rw [Token.asRead_infinite hfinite]
                exact ⟨(hσ _).trans (hσ _).symm, rfl⟩
        | _ => exact ⟨rfl, rfl⟩
      rw [List.map_cons, cost_cons, cost_cons, hsame.1, hsame.2, ih]

/-- Where names, numbers and parentheses are free, every tree is. -/
theorem Node.toll_eq_zero (hleaf : ∀ tok, σ.leaf tok = 0) (hparen : σ.paren = 0) :
    t.toll σ = 0 := by
  induction t using Node.slotInduction with
  | step t ih =>
      have hown : t.own σ = 0 := by
        cases t with
        | name id => exact hleaf _
        | constant value =>
            cases value with
            | bool b => cases b <;> rfl
            | int v => exact hleaf _
            | float x => exact hleaf _
            | bytes text => exact hleaf _
            | _ => rfl
        | «attribute» value attr => exact hleaf _
        | call site =>
            have hprices : (site.keywords.map (Keyword.price σ)).sum = 0 := by
              refine List.sum_eq_zero fun n hn => ?_
              obtain ⟨k, -, rfl⟩ := List.mem_map.mp hn
              cases k with
              | named id value => exact hleaf _
              | unpacked value => rfl
            show σ.paren + (site.keywords.map (Keyword.price σ)).sum = 0
            rw [hparen, hprices]
        | tuple items => exact hparen
        | _ => rfl
      have hslots : (t.slots.map fun s => s.node.toll σ + charge σ s).sum = 0 := by
        refine List.sum_eq_zero fun n hn => ?_
        obtain ⟨s, hs, rfl⟩ := List.mem_map.mp hn
        rw [ih s hs, charge, hparen, ite_self, Nat.add_zero]
      rw [Node.toll_eq, hown, hslots]

end

namespace Token

/-- Whether a token is a number that is not finite. -/
def isInfinite : Token → Bool
  | .float x => !x.isFinite
  | _ => false

theorem isInfinite_asRead (tok : Token) : tok.asRead.isInfinite = false := by
  cases tok with
  | float x =>
      cases hfinite : x.isFinite with
      | true =>
          rw [asRead_float hfinite]
          show (!x.isFinite) = false
          rw [hfinite]
          rfl
      | false =>
          rw [asRead_infinite hfinite]
          rfl
  | _ => rfl

theorem asRead_eq_self {tok : Token} (h : tok.isInfinite = false) : tok.asRead = tok := by
  cases tok with
  | float x => exact asRead_float ((Bool.not_eq_false' _).mp h)
  | _ => rfl

end Token

namespace Node

variable {t u : Node}

/-- Only infinite numbers are charged for. -/
theorem own_isInfinite_pos : 0 < u.own (.counting Token.isInfinite) ↔ NotFinite u := by
  have hfree {n : Nat} (hzero : n = 0) (hnot : ¬ NotFinite u) : 0 < n ↔ NotFinite u :=
    iff_of_false (hzero ▸ Nat.lt_irrefl 0) hnot
  cases u with
  | constant value =>
      cases value with
      | float x =>
          show 0 < (if (!x.isFinite) = true then 1 else 0) ↔ _
          cases hfinite : x.isFinite with
          | true =>
              refine iff_of_false (by decide) ?_
              rintro ⟨hnot⟩
              exact absurd (hfinite.symm.trans hnot) nofun
          | false => exact iff_of_true (by decide) ⟨hfinite⟩
      | bool b => cases b <;> exact hfree rfl nofun
      | _ => exact hfree rfl nofun
  | call site =>
      refine hfree ?_ nofun
      have hprices : (site.keywords.map (Keyword.price (.counting Token.isInfinite))).sum = 0 := by
        refine List.sum_eq_zero fun n hn => ?_
        obtain ⟨k, -, rfl⟩ := List.mem_map.mp hn
        cases k <;> rfl
      exact (Nat.zero_add _).trans hprices
  | _ => exact hfree rfl nofun

theorem Lawful.toll_isInfinite_pos (h : t.Lawful) :
    0 < t.toll (.counting Token.isInfinite) ↔ t.Contains NotFinite := by
  rw [toll_counting_pos h]
  exact ⟨fun hpart => hpart.mono fun _ => own_isInfinite_pos.mp,
    fun hpart => hpart.mono fun _ => own_isInfinite_pos.mpr⟩

/-- An integer in front of a point is lost. -/
theorem Sourced.ne_of_integerBase (h : t.Sourced) (hbase : t.Contains IntegerBase) :
    Node.ofSource t.source ≠ .ok t := by
  intro hread
  have happart := (h.separated fun _ => True.intro).apart
  have hlast : Piece.mark .dot ∉ t.pieces.getLast? := by
    obtain ⟨init, p, hinit, hends⟩ := happart.last
    rw [hinit, List.getLast?_concat]
    exact fun hdot => hends.ne_dot (Option.some.inj hdot)
  have hlost := happart.toLinked.toll_lt hlast (hbase.gluedIn h.lawful) hread
  have hwritten := (h.lawful.cost_le (.counting Token.isInt)).1
  rw [Toll.cost_counting_isInt] at hwritten
  exact absurd hwritten (Nat.not_le.mpr hlost)

/-- An infinite number is lost. -/
theorem Sourced.ne_of_notFinite (h : t.Sourced) (hint : ¬ t.Contains IntegerBase)
    (hfloat : t.Contains NotFinite) : Node.ofSource t.source ≠ .ok t := by
  intro hread
  have hderives := (h.ofSource_iff_derives hint).mp hread
  have hpays := hderives.toll_le (.counting Token.isInfinite) (Nat.le_refl 0)
  have hfree : (Toll.counting Token.isInfinite).cost .opened (t.tokens.map Token.asRead) = 0 := by
    refine Toll.cost_counting_eq_zero.mpr fun tok htok _ => ?_
    obtain ⟨tok', -, rfl⟩ := List.mem_map.mp htok
    exact Token.isInfinite_asRead tok'
  have hpos := h.lawful.toll_isInfinite_pos.mpr hfloat
  omega

/-- A star that has no parentheses is lost. -/
theorem Sourced.ne_of_bareStar (h : t.Sourced) (hint : ¬ t.Contains IntegerBase)
    (hstar : t.Contains BareStar) : Node.ofSource t.source ≠ .ok t := by
  intro hread
  have hderives := (h.ofSource_iff_derives hint).mp hread
  -- parentheses cost something, and a sign behind a power costs as much
  let σ : Toll := ⟨fun _ => 0, 1, 1⟩
  have hpays := hderives.toll_le σ (Nat.le_refl 1)
  rw [Toll.cost_asRead fun _ => rfl] at hpays
  have hwritten := (h.lawful.cost_le σ).2 Nat.one_pos hstar
  omega

theorem Sourced.ne_of_flawed (h : t.Sourced) (hflawed : t.Flawed) :
    Node.ofSource t.source ≠ .ok t := by
  by_cases hint : t.Contains IntegerBase
  · exact h.ne_of_integerBase hint
  · rcases flawed_iff.mp hflawed with hbase | hfloat | hstar
    · exact absurd hbase hint
    · exact h.ne_of_notFinite hint hfloat
    · exact h.ne_of_bareStar hint hstar

/-! ## Trees without flaws -/

/-- Without infinite numbers the written tokens are read as they are. -/
theorem Sourced.map_asRead (h : t.Sourced) (hfloat : ¬ t.Contains NotFinite) :
    t.tokens.map Token.asRead = t.tokens := by
  have hfree : t.toll (.counting Token.isInfinite) = 0 :=
    Nat.eq_zero_of_not_pos fun hpos => hfloat (h.lawful.toll_isInfinite_pos.mp hpos)
  have hwritten := (h.lawful.cost_le (.counting Token.isInfinite)).1
  rw [hfree, Nat.le_zero, Toll.cost_counting_eq_zero] at hwritten
  have hsame : ∀ tok ∈ t.tokens, tok.asRead = id tok := by
    intro tok htok
    refine Token.asRead_eq_self ?_
    cases tok with
    | float x => exact hwritten _ htok rfl
    | _ => rfl
  rw [List.map_congr_left hsame, List.map_id]

/-- What is read from the text of a tree without flaws is what its own tokens derive. -/
theorem Sourced.ofSource_iff_derives_tokens (h : t.Sourced) (hflaw : ¬ t.Flawed) :
    Node.ofSource t.source = .ok u ↔ Derives maxNesting 0 t.tokens u := by
  rw [flawed_iff, not_or, not_or] at hflaw
  obtain ⟨hint, hfloat, -⟩ := hflaw
  rw [h.ofSource_iff_derives hint, h.map_asRead hfloat]

/-- The text of a tree without flaws is read as the tree, if it nests no deeper than a text may. -/
theorem Sourced.readsBack_iff (h : t.Sourced) :
    Node.ofSource t.source = .ok t ↔ ¬ t.Flawed ∧ t.nesting Slot.writtenSteps < maxNesting := by
  constructor
  · intro hread
    have hflaw : ¬ t.Flawed := fun hflawed => h.ne_of_flawed hflawed hread
    refine ⟨hflaw, ?_⟩
    have htext : Seat.Text (Derives maxNesting) (.nested 0) t.tokens t :=
      (h.ofSource_iff_derives_tokens hflaw).mp hread
    -- no sign stands directly behind a power in the written text
    let σ : Toll := ⟨fun _ => 0, 0, 1⟩
    have hwritten := (h.lawful.cost_le σ).1
    rw [toll_eq_zero (fun _ => rfl) rfl] at hwritten
    exact writtenNesting_of_text (show 0 < σ.sign from Nat.one_pos) htext (Nat.le_zero.mp hwritten)
  · rintro ⟨hflaw, hnesting⟩
    have hbare : ¬ t.Contains BareStar := fun hstar =>
      hflaw (flawed_iff.mpr (Or.inr (Or.inr hstar)))
    exact (h.ofSource_iff_derives_tokens hflaw).mpr (derives_tokens h.lawful hbare hnesting)

/-- The text of a tree without flaws is read as the tree, or it is nested too deeply. -/
theorem Sourced.readsBack_or (h : t.Sourced) (hflaw : ¬ t.Flawed) :
    Node.ofSource t.source = .ok t
      ∨ ∃ pos, Node.ofSource t.source = .error ⟨.nestedTooDeeply, pos⟩ := by
  have hparts := hflaw
  rw [flawed_iff, not_or, not_or] at hparts
  obtain ⟨hint, hfloat, hbare⟩ := hparts
  obtain ⟨located, stop, htokens, hvalues, heof⟩ := (h.separated hint).apart.toLinked.tokenize
  have hvalues : located.map Located.value = t.tokens := hvalues.trans (h.map_asRead hfloat)
  -- with more depth the text is read
  have hderives : Derives (maxNesting + (t.nesting Slot.writtenSteps + 1)) 0 t.tokens t :=
    derives_tokens h.lawful hbare (by omega)
  rw [← hvalues] at hderives
  have hdeep : (completeWithin _).onTokens (located ++ [⟨.eof, stop⟩]) = .ok t :=
    (completeWithin_iff _ heof).mpr hderives
  rw [source, Node.ofSource, htokens]
  exact completeWithin_of_deeper hdeep

/-! ## Expressions -/

section

variable {src : String} {scope : Scope} {e : Expr}

/-- The text of an expression is read as the tree that the expression was made of, iff the tree has
    no flaw and its written nesting leaves room for it. -/
theorem ofSource_source_iff (h : Node.ofSource src = .ok t) (he : t.resolve scope = .ok e) :
    Node.ofSource e.source = .ok t
      ↔ ¬ t.Flawed ∧ t.nesting Slot.writtenSteps < maxNesting := by
  rw [source_of_resolve he]
  exact (sourced_of_ofSource h).readsBack_iff

/-- A sign behind a power is written in parentheses, for which there has to be room. -/
theorem ofSource_source_iff_signedExponent :
    Node.ofSource "a ** -b" = .ok (.binary (.name "a") .pow (.unary .neg (.name "b")))
      ∧ (Node.ofSource "a ** (-b)" = .ok (.binary (.name "a") .pow (.unary .neg (.name "b")))
        ↔ ¬ Flawed (.binary (.name "a") .pow (.unary .neg (.name "b")))
          ∧ nesting Slot.writtenSteps (.binary (.name "a") .pow (.unary .neg (.name "b")))
            < maxNesting) := by
  have htokens : tokenize "a ** -b" = .ok [⟨.ident "a", ⟨1, 1⟩⟩, ⟨.mark .doubleStar, ⟨1, 3⟩⟩,
      ⟨.mark .minus, ⟨1, 6⟩⟩, ⟨.ident "b", ⟨1, 7⟩⟩, ⟨.eof, ⟨1, 8⟩⟩] := by
    decide +kernel
  have hread : Node.ofSource "a ** -b"
      = .ok (.binary (.name "a") .pow (.unary .neg (.name "b"))) := by
    rw [Node.ofSource, htokens]
    rfl
  have hresolve : (Node.binary (.name "a") .pow (.unary .neg (.name "b"))).resolve (.ofModule "m")
      = .ok (.binary (.name "a" "m.a") .pow (.unary .neg (.name "b" "m.b"))) := rfl
  have hsource : (Expr.binary (.name "a" "m.a") .pow (.unary .neg (.name "b" "m.b"))).source
      = "a ** (-b)" := by
    decide +kernel
  have hiff := ofSource_source_iff hread hresolve
  rw [hsource] at hiff
  exact ⟨hread, hiff⟩

/-- The point behind an integer is read as part of a number, and the attribute is left over. -/
theorem ofSource_source_integerBase :
    Node.ofSource "1 .real" = .ok (.attribute (.constant (.int 1)) "real")
      ∧ (Node.attribute (.constant (.int 1)) "real").resolve (.ofModule "m")
        = .ok (.attribute (.constant (.int 1)) "real")
      ∧ Node.ofSource (Expr.attribute (.constant (.int 1)) "real").source
        ≠ .ok (.attribute (.constant (.int 1)) "real") := by
  have htokens : tokenize "1 .real" = .ok [⟨.int 1, ⟨1, 1⟩⟩, ⟨.mark .dot, ⟨1, 3⟩⟩,
      ⟨.ident "real", ⟨1, 4⟩⟩, ⟨.eof, ⟨1, 8⟩⟩] := by
    decide +kernel
  have hread : Node.ofSource "1 .real" = .ok (.attribute (.constant (.int 1)) "real") := by
    rw [Node.ofSource, htokens]
    rfl
  have htokens' : tokenize (Expr.attribute (.constant (.int 1)) "real").source
      = .ok [⟨.float (.ofDecimal false ⟨10, -1⟩), ⟨1, 1⟩⟩, ⟨.ident "real", ⟨1, 3⟩⟩,
        ⟨.eof, ⟨1, 7⟩⟩] := by
    decide +kernel
  have hleft (x : Binary64) : complete.onTokens [⟨.float x, ⟨1, 1⟩⟩, ⟨.ident "real", ⟨1, 3⟩⟩,
      ⟨.eof, ⟨1, 7⟩⟩] = .error ⟨.trailing (.ident "real"), ⟨1, 3⟩⟩ := rfl
  refine ⟨hread, rfl, ?_⟩
  rw [Node.ofSource, htokens']
  exact fun h => absurd ((hleft _).symm.trans h) nofun

/-- Without a flaw the text of an expression is read as the same tree, or it is nested too deeply
    because a unary operator stands to the right of a power.  With one it never is. -/
theorem ofSource_source (h : Node.ofSource src = .ok t) (he : t.resolve scope = .ok e) :
    (¬ t.Flawed → Node.ofSource e.source = .ok t
      ∨ (∃ pos, Node.ofSource e.source = .error ⟨.nestedTooDeeply, pos⟩)
        ∧ t.Contains UnaryExponent)
    ∧ (t.Flawed → Node.ofSource e.source ≠ .ok t) := by
  have hsourced := sourced_of_ofSource h
  rw [source_of_resolve he]
  refine ⟨fun hflaw => ?_, hsourced.ne_of_flawed⟩
  by_cases hunary : t.Contains UnaryExponent
  · exact (hsourced.readsBack_or hflaw).imp_right fun hdeep => ⟨hdeep, hunary⟩
  · have hnesting := hsourced.lawful.writtenNesting_le hunary
      (Nat.le_pred_of_lt hsourced.tightNesting_lt)
    refine Or.inl (hsourced.readsBack_iff.mpr ⟨hflaw, ?_⟩)
    exact Nat.lt_of_le_pred (by decide) hnesting

/-- A disjunction behind a star is written without the parentheses that it needs. -/
theorem ofSource_source_bareStar :
    Node.ofSource "[*(a or b)]" = .ok (.list [.starred (.binary (.name "a") .or (.name "b"))])
      ∧ Node.ofSource "[*a or b]"
        ≠ .ok (.list [.starred (.binary (.name "a") .or (.name "b"))]) := by
  have htokens : tokenize "[*(a or b)]" = .ok [⟨.mark .leftBracket, ⟨1, 1⟩⟩,
      ⟨.mark .star, ⟨1, 2⟩⟩, ⟨.mark .leftParen, ⟨1, 3⟩⟩, ⟨.ident "a", ⟨1, 4⟩⟩,
      ⟨.word .orWord, ⟨1, 6⟩⟩, ⟨.ident "b", ⟨1, 9⟩⟩, ⟨.mark .rightParen, ⟨1, 10⟩⟩,
      ⟨.mark .rightBracket, ⟨1, 11⟩⟩, ⟨.eof, ⟨1, 12⟩⟩] := by
    decide +kernel
  have hread : Node.ofSource "[*(a or b)]"
      = .ok (.list [.starred (.binary (.name "a") .or (.name "b"))]) := by
    rw [Node.ofSource, htokens]
    rfl
  have hresolve : (Node.list [.starred (.binary (.name "a") .or (.name "b"))]).resolve
      (.ofModule "m")
      = .ok (.list [.starred (.binary (.name "a" "m.a") .or (.name "b" "m.b"))]) := rfl
  have hflawed : Flawed (.list [.starred (.binary (.name "a") .or (.name "b"))]) :=
    .here (Or.inr (Or.inr (.list List.mem_cons_self rfl)))
  have hsource : (Expr.list [.starred (.binary (.name "a" "m.a") .or (.name "b" "m.b"))]).source
      = "[*a or b]" := by
    decide +kernel
  have hlost := (ofSource_source hread hresolve).2 hflawed
  rw [hsource] at hlost
  exact ⟨hread, hlost⟩

end

end Node

end CallSite
