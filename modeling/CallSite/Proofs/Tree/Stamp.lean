import CallSite.Proofs.Grammar.Climbing
import CallSite.Proofs.Tree.Price

/-!
# Stamps — stars, keyword arguments and powers in the order in which they stand

A toll tells how many powers a text has, but not which of them has a sign behind it.  Here a text is
stamped from left to right: for every star, every keyword argument or expansion, and every power,
where a power notes whether a sign stands directly behind it.  A tree has stamps too, in the order
in which it is written: there a power notes whether its right operand is a sign.

Not every text of a tree has its stamps: a sign may stand in parentheses, and a starred argument may
be written behind a keyword.  But in comparison the stamps of a text come out `Over` those of the
tree (`Derives.over`).  So where a text follows the tree stamp by stamp, it has no sign behind a power
whose right operand is none (`Over.signed`).
-/

namespace CallSite

open Grammar

/-- What is noted of a text or a tree. -/
inductive Stamp where
  /-- The star of an item or an argument. -/
  | star
  /-- A keyword argument, or the expansion `**`. -/
  | keyword
  /-- A power, and whether there is a sign to its right. -/
  | power (signed : Bool)
  deriving DecidableEq, Repr

namespace Stamp

/-- Stars come first, where keyword arguments come later. -/
def rank : Stamp → Nat
  | .star => 0
  | .keyword => 1
  | .power _ => 2

/-- The first list of stamps comes out over the second: at the first difference in rank its stamp is
    the greater one, and up to there it has signs only where the second has them. -/
inductive Over : List Stamp → List Stamp → Prop
  | nil : Over [] []
  | above {a b : Stamp} {as bs : List Stamp} : b.rank < a.rank → Over (a :: as) (b :: bs)
  | step {a b : Stamp} {as bs : List Stamp} :
      a.rank = b.rank → (a = .power true → b = .power true) → Over as bs → Over (a :: as) (b :: bs)

variable {as bs cs ds : List Stamp}

theorem Over.refl (as : List Stamp) : Over as as := by
  induction as with
  | nil => exact .nil
  | cons a as ih => exact .step rfl id ih

theorem Over.trans (hab : Over as bs) (hbc : Over bs cs) : Over as cs := by
  induction hab generalizing cs with
  | nil => exact hbc
  | above hlt =>
      cases hbc with
      | above hlt' => exact .above (Nat.lt_trans hlt' hlt)
      | step heq _ _ => exact .above (heq ▸ hlt)
  | step heq hsigned _ ih =>
      cases hbc with
      | above hlt' => exact .above (heq ▸ hlt')
      | step heq' hsigned' hbc =>
          exact .step (heq.trans heq') (fun ha => hsigned' (hsigned ha)) (ih hbc)

theorem Over.append (hab : Over as bs) (hcd : Over cs ds) : Over (as ++ cs) (bs ++ ds) := by
  induction hab with
  | nil => exact hcd
  | above hlt => exact .above hlt
  | step heq hsigned _ ih => exact .step heq hsigned ih

/-- Behind stamps of the same ranks, a sign stands only where the second list has one. -/
theorem Over.signed {signed : Bool} (h : Over (as ++ .power true :: cs) (bs ++ .power signed :: ds))
    (hranks : as.map rank = bs.map rank) : signed = true := by
  induction as generalizing bs with
  | nil =>
      obtain rfl : bs = [] := List.map_eq_nil_iff.mp hranks.symm
      cases h with
      | above hlt => exact absurd hlt (Nat.lt_irrefl _)
      | step _ hsigned _ => exact Stamp.power.inj (hsigned rfl)
  | cons a as ih =>
      cases bs with
      | nil => exact absurd hranks nofun
      | cons b bs =>
          obtain ⟨hrank, hranks⟩ := List.cons.inj hranks
          cases h with
          | above hlt => exact absurd hrank (Nat.ne_of_gt hlt)
          | step _ _ h => exact ih h hranks

end Stamp

open Stamp

/-! ## Stamps of texts -/

/-- Whether a token is one of the signs. -/
def Token.isSign (tok : Token) : Bool := (UnaryOp.ofToken? tok).any (· ≠ .not)

/-- The stamp of a token for itself.  Behind an operand a star is a product, and two are a power. -/
def Token.stamps (p : Place) : Token → List Stamp
  | .mark .assign => [.keyword]
  | .mark .star => if p = .closed then [] else [.star]
  | .mark .doubleStar => if p = .closed then [] else [.keyword]
  | _ => []

namespace Place

/-- The stamps of a text that begins at a place. -/
def stamps : Place → List Token → List Stamp
  | _, [] => []
  | p, tok :: ts =>
    (if p = .power then [.power tok.isSign] else []) ++ tok.stamps p ++ (p.after tok).stamps ts

variable {p : Place} {ts us : List Token} {tok : Token}

@[simp] theorem stamps_nil : p.stamps [] = [] := rfl

theorem stamps_append : p.stamps (ts ++ us) = p.stamps ts ++ (p.behind ts).stamps us := by
  induction ts generalizing p with
  | nil => rfl
  | cons tok ts ih =>
      rw [List.cons_append, stamps, ih, stamps, List.append_assoc _ (stamps _ ts)]
      rfl

/-- Behind the text of an operand the place is known. -/
theorem stamps_closes (h : Closes ts) : p.stamps (ts ++ us) = p.stamps ts ++ closed.stamps us := by
  rw [stamps_append, h.behind]

/-- Behind a power it is noted first whether a sign comes next. -/
theorem stamps_power :
    power.stamps (tok :: ts) = .power tok.isSign :: opened.stamps (tok :: ts) := by
  have hafter : power.after tok = opened.after tok := by
    simp [after]
  have hstamps : tok.stamps .power = tok.stamps .opened := by
    cases tok with
    | mark m => cases m <;> rfl
    | _ => rfl
  rw [stamps, stamps, hafter, hstamps]
  rfl

/-- The marks that are not noted and stand in front of something new. -/
def isSilent : Mark → Bool
  | .comma | .colon | .dot | .leftParen | .leftBracket | .leftBrace => true
  | _ => false

theorem stamps_silent (m : Mark) (h : isSilent m = true) (hp : p ≠ .power) :
    p.stamps (.mark m :: ts) = opened.stamps ts := by
  cases m <;> first
    | exact absurd h (by decide)
    | simp [stamps, Token.stamps, after, Token.ends, hp]

/-- What closes a bracket is not noted. -/
theorem stamps_close (m : Mark) (hm : Token.ends (.mark m) = true) (hp : p.behind ts ≠ .power) :
    p.stamps (ts ++ [.mark m]) = p.stamps ts := by
  rw [stamps_append]
  cases m <;> first
    | exact absurd hm (by decide)
    | simp [stamps, Token.stamps, hp]

/-- A binary operator is noted only if it is a power. -/
theorem stamps_binary (op : BinaryOp) :
    closed.stamps (op.token :: ts)
      = if op.isRightAssoc then power.stamps ts else opened.stamps ts := by
  cases op <;> rfl

theorem stamps_unary (op : UnaryOp) : opened.stamps (op.token :: ts) = opened.stamps ts := by
  cases op <;> rfl

theorem stamps_constant (value : Constant) : opened.stamps [value.token] = [] := by
  cases value with
  | bool b => cases b <;> rfl
  | _ => rfl

theorem stamps_texts (parts : List String) (hp : p ≠ .power) :
    p.stamps (parts.map .str) = [] := by
  induction parts generalizing p with
  | nil => rfl
  | cons text parts ih =>
      rw [List.map_cons, stamps, if_neg hp]
      exact ih nofun

end Place

/-! ## Stamps of trees -/

/-- Whether a node is a sign in front of an operand. -/
def Node.isSign : Node → Bool
  | .unary op _ => op ≠ .not
  | _ => false

mutual

/-- The stamps of a tree, in the order in which it is written. -/
def Node.stamps : Node → List Stamp
  | .name _ | .constant _ => []
  | .attribute value _ => value.stamps
  | .call ⟨func, args, keywords⟩ =>
    func.stamps ++ (stampsOfEach args ++ stampsOfKeywords keywords)
  | .subscript value slice => value.stamps ++ slice.stamps
  | .list items | .tuple items => stampsOfEach items
  | .dict entries => stampsOfEntries entries
  | .unary _ operand => operand.stamps
  | .binary left op right =>
    left.stamps ++ (if op = .pow then [.power right.isSign] else []) ++ right.stamps
  | .compare left links => left.stamps ++ stampsOfLinks links
  | .starred value => .star :: value.stamps

def stampsOfEach : List Node → List Stamp
  | [] => []
  | t :: ts => t.stamps ++ stampsOfEach ts

def stampsOfKeywords : List (Keyword Node) → List Stamp
  | [] => []
  | .named _ value :: ks | .unpacked value :: ks => .keyword :: value.stamps ++ stampsOfKeywords ks

def stampsOfEntries : List (Entry Node) → List Stamp
  | [] => []
  | .item key value :: es => key.stamps ++ value.stamps ++ stampsOfEntries es
  | .unpacked value :: es => .keyword :: value.stamps ++ stampsOfEntries es

def stampsOfLinks : List (Link Node) → List Stamp
  | [] => []
  | ⟨_, operand⟩ :: ls => operand.stamps ++ stampsOfLinks ls

end

/-- The stamps of an entry of a dictionary. -/
def Node.entryStamps : Entry Node → List Stamp
  | .item key value => key.stamps ++ value.stamps
  | .unpacked value => .keyword :: value.stamps

/-- The stamps of an argument. -/
def Grammar.Argument.stamps : Argument → List Stamp
  | .plain value => value.stamps
  | .starred value => .star :: value.stamps
  | .named _ value | .unpacked value => .keyword :: value.stamps

theorem stampsOfEach_eq (ts : List Node) : stampsOfEach ts = ts.flatMap Node.stamps := by
  induction ts with
  | nil => rfl
  | cons t ts ih => rw [stampsOfEach, ih, List.flatMap_cons]

theorem stampsOfKeywords_eq (ks : List (Keyword Node)) :
    stampsOfKeywords ks = ks.flatMap fun k => .keyword :: k.value.stamps := by
  induction ks with
  | nil => rfl
  | cons k ks ih => cases k <;> rw [stampsOfKeywords, ih, List.flatMap_cons] <;> rfl

theorem stampsOfEntries_eq (es : List (Entry Node)) :
    stampsOfEntries es = es.flatMap Node.entryStamps := by
  induction es with
  | nil => rfl
  | cons e es ih => cases e <;> rw [stampsOfEntries, ih, List.flatMap_cons] <;> rfl

theorem stampsOfLinks_eq (ls : List (Link Node)) :
    stampsOfLinks ls = ls.flatMap fun l => l.operand.stamps := by
  induction ls with
  | nil => rfl
  | cons l ls ih => rw [stampsOfLinks, ih, List.flatMap_cons]

/-! ## Texts come out over their trees -/

namespace Grammar

variable {inner : Nat → Language Node}

/-- The texts of nested operands come out over their trees. -/
def Stamped (inner : Nat → Language Node) : Prop :=
  ∀ {p ts t}, inner p ts t → Over (Place.opened.stamps ts) t.stamps

/-- A row comes out over its items, and behind it no power has its operand to come. -/
theorem Row.over {α : Type} {item : Language α} {ts : List Token} {as : List α}
    (h : Row item ts as) {f : α → List Stamp}
    (hitem : ∀ {ts a}, item ts a → Closes ts ∧ Over (Place.opened.stamps ts) (f a)) :
    Place.opened.behind ts ≠ .power ∧ Over (Place.opened.stamps ts) (as.flatMap f) := by
  induction h with
  | none => exact ⟨nofun, .nil⟩
  | last ha =>
      obtain ⟨hcloses, hover⟩ := hitem ha
      refine ⟨by rw [hcloses.behind]; exact nofun, ?_⟩
      rwa [List.flatMap_singleton]
  | @more ts us a as ha _ ih =>
      obtain ⟨hcloses, hover⟩ := hitem ha
      have hbehind : Place.opened.behind (ts ++ .mark .comma :: us) = Place.opened.behind us := by
        rw [Place.behind, List.foldl_append]
        show Place.behind ((Place.opened.behind ts).after (.mark .comma)) us = _
        rw [hcloses.behind]
        rfl
      rw [hbehind, Place.stamps_closes hcloses, Place.stamps_silent (p := .closed) .comma rfl nofun]
      exact ⟨ih.1, hover.append ih.2⟩

/-- What stands between brackets is noted, and the brackets are not. -/
theorem Row.over_bracketed {α : Type} {item : Language α} {ts : List Token} {as : List α}
    (h : Row item ts as) {f : α → List Stamp}
    (hitem : ∀ {ts a}, item ts a → Closes ts ∧ Over (Place.opened.stamps ts) (f a)) {p : Place}
    (hp : p ≠ .power) (m m' : Mark) (hm : Place.isSilent m = true)
    (hm' : Token.ends (.mark m') = true) :
    Over (p.stamps (.mark m :: ts ++ [.mark m'])) (as.flatMap f) := by
  obtain ⟨hbehind, hover⟩ := h.over hitem
  rw [List.cons_append, Place.stamps_silent m hm hp, Place.stamps_close m' hm' hbehind]
  exact hover

section

variable (F : Operands inner) (S : Stamped inner)

include F S

theorem Item.over {ts : List Token} {t : Node} (h : Item inner ts t) :
    Closes ts ∧ Over (Place.opened.stamps ts) t.stamps := by
  cases h with
  | plain ht => exact ⟨F.closes ht, S ht⟩
  | starred ht => exact ⟨(F.closes ht).cons, .step rfl nofun (S ht)⟩

theorem EntryText.over {ts : List Token} {e : Entry Node} (h : EntryText inner ts e) :
    Closes ts ∧ Over (Place.opened.stamps ts) (Node.entryStamps e) := by
  cases h with
  | item hk hv =>
      refine ⟨(F.closes hv).cons.append, ?_⟩
      rw [Place.stamps_closes (F.closes hk), Place.stamps_silent (p := .closed) .colon rfl nofun]
      exact (S hk).append (S hv)
  | unpacked hv => exact ⟨(F.closes hv).cons, .step rfl nofun (S hv)⟩

theorem ArgumentText.over {ts : List Token} {a : Argument} (h : ArgumentText inner ts a) :
    Closes ts ∧ Over (Place.opened.stamps ts) a.stamps := by
  cases h with
  | plain ht => exact ⟨F.closes ht, S ht⟩
  | starred ht | unpacked ht => exact ⟨(F.closes ht).cons, .step rfl nofun (S ht)⟩
  | named id ht => exact ⟨(F.closes ht).cons.cons, .step rfl nofun (S ht)⟩

end

/-- The stamps of arguments with the keyword arguments behind the others. -/
def sortedStamps (args : List Argument) : List Stamp :=
  (args.filterMap Argument.positional?).flatMap Node.stamps
    ++ (args.filterMap Argument.keyword?).flatMap fun k => .keyword :: k.value.stamps

theorem sortedStamps_positional {a : Argument} {t : Node} (ht : a.positional? = some t)
    (hkeyword : a.keyword? = none) (args : List Argument) :
    sortedStamps (a :: args) = t.stamps ++ sortedStamps args := by
  rw [sortedStamps, List.filterMap_cons_some ht, List.filterMap_cons_none hkeyword,
    List.flatMap_cons, List.append_assoc]
  rfl

/-- Where a keyword argument changes its place with others, these are starred, and a keyword stands
    in place of a star. -/
theorem over_keyword {a : Argument} {k : Keyword Node} {args : List Argument}
    (hk : a.keyword? = some k) (hpositional : a.positional? = none)
    (hstarred : ∀ b ∈ args, ∀ t, b.positional? = some t → ∃ v, t = .starred v) {as : List Stamp}
    (h : Over as (sortedStamps args)) :
    Over (.keyword :: k.value.stamps ++ as) (sortedStamps (a :: args)) := by
  rw [sortedStamps, List.filterMap_cons_none hpositional, List.filterMap_cons_some hk]
  rw [sortedStamps] at h
  cases hargs : args.filterMap Argument.positional? with
  | nil =>
      rw [hargs] at h
      exact (Over.refl _).append h
  | cons t ts =>
      have hmem : t ∈ args.filterMap Argument.positional? := hargs ▸ List.mem_cons_self
      obtain ⟨b, hb, hbt⟩ := List.mem_filterMap.mp hmem
      obtain ⟨v, rfl⟩ := hstarred b hb t hbt
      rw [List.flatMap_cons, Node.stamps]
      exact .above Nat.zero_lt_one

/-- Arguments in any order that is allowed come out over the same with the keyword arguments behind
    the others. -/
theorem over_arguments {args : List Argument} (hpair : args.Pairwise Argument.MayPrecede) :
    Over (args.flatMap Argument.stamps) (sortedStamps args) := by
  induction args with
  | nil => exact .nil
  | cons a args ih =>
      obtain ⟨hprec, hpair⟩ := List.pairwise_cons.mp hpair
      have ih := ih hpair
      -- no plain argument stands behind a keyword
      have hstarred (hplain : ∀ v, ¬ a.MayPrecede (.plain v)) (b : Argument) (hb : b ∈ args)
          (t : Node) (ht : b.positional? = some t) : ∃ v, t = .starred v := by
        cases b with
        | plain v => exact absurd (hprec _ hb) (hplain v)
        | starred v => exact ⟨v, (Option.some.inj ht).symm⟩
        | named _ _ | unpacked _ => exact absurd ht nofun
      rw [List.flatMap_cons]
      cases a with
      | plain v =>
          rw [sortedStamps_positional rfl rfl]
          exact (Over.refl _).append ih
      | starred v =>
          rw [sortedStamps_positional rfl rfl, Node.stamps]
          exact (Over.refl _).append ih
      | named id v => exact over_keyword (k := .named id v) rfl rfl (hstarred fun _ h => h) ih
      | unpacked v => exact over_keyword (k := .unpacked v) rfl rfl (hstarred fun _ h => h) ih

section

variable (F : Operands inner) (S : Stamped inner)

include F S

theorem Atom.over {ts : List Token} {t : Node} (h : Atom inner ts t) :
    Over (Place.opened.stamps ts) t.stamps := by
  cases h with
  | name id => exact .nil
  | constant value _ =>
      rw [Place.stamps_constant, Node.stamps]
      exact .nil
  | texts parts _ =>
      rw [Place.stamps_texts parts (p := .opened) nofun, Node.stamps]
      exact .nil
  | group ht =>
      rw [List.cons_append, Place.stamps_silent (p := .opened) .leftParen rfl nofun,
        Place.stamps_close .rightParen rfl]
      · exact S ht
      · rw [(F.closes ht).behind]
        exact nofun
  | unit => exact .nil
  | tuple ht hmore =>
      rw [Node.stamps, stampsOfEach_eq]
      exact Row.over_bracketed (.more ht hmore) (Item.over F S) (p := .opened) nofun
        .leftParen .rightParen rfl rfl
  | list hitems =>
      rw [Node.stamps, stampsOfEach_eq]
      exact hitems.over_bracketed (Item.over F S) (p := .opened) nofun
        .leftBracket .rightBracket rfl rfl
  | dict hentries =>
      rw [Node.stamps, stampsOfEntries_eq]
      exact hentries.over_bracketed (EntryText.over F S) (p := .opened) nofun
        .leftBrace .rightBrace rfl rfl

/-- What stands between the brackets of a subscript comes out over the slice. -/
theorem Slice.over {ts : List Token} {slice : Node} (h : Slice inner ts slice) :
    Place.opened.behind ts ≠ .power ∧ Over (Place.opened.stamps ts) slice.stamps := by
  cases h with
  | single ht => exact ⟨by rw [(F.closes ht).behind]; exact nofun, S ht⟩
  | several ht hmore =>
      rw [Node.stamps, stampsOfEach_eq]
      exact Row.over (.more ht hmore) fun ht => ⟨F.closes ht, S ht⟩

theorem Postfix.over {ts : List Token} {t : Node} (h : Postfix inner ts t) :
    Over (Place.opened.stamps ts) t.stamps := by
  induction h with
  | atom ht => exact Atom.over F S ht
  | member attr ht ih =>
      rw [Place.stamps_closes ht.closes, Node.stamps]
      exact (List.append_nil _).symm ▸ ih
  | call ht hargs ih =>
      obtain ⟨hrow, hpair⟩ := hargs
      rw [List.append_assoc, Place.stamps_closes ht.closes, Node.stamps, stampsOfEach_eq,
        stampsOfKeywords_eq]
      have hargs := hrow.over_bracketed (ArgumentText.over F S) (p := .closed) nofun
        .leftParen .rightParen rfl rfl
      exact ih.append (hargs.trans (over_arguments hpair))
  | subscript ht hslice ih =>
      obtain ⟨hbehind, hover⟩ := Slice.over F S hslice
      rw [List.append_assoc, Place.stamps_closes ht.closes, Node.stamps, List.cons_append,
        Place.stamps_silent (p := .closed) .leftBracket rfl nofun,
        Place.stamps_close .rightBracket rfl hbehind]
      exact ih.append hover

end

/-! ### Behind a power -/

theorem isSign_of_unsigned {ts : List Token} (h : Unsigned ts) :
    ∃ tok rest, ts = tok :: rest ∧ tok.isSign = false := by
  obtain ⟨tok, rest, rfl, htok⟩ := h
  exact ⟨tok, rest, rfl, by rw [Token.isSign, htok]; rfl⟩

/-- Where a sign stands directly behind a power, the right operand of the power is a sign. -/
theorem Phrase.isSign {p : Nat} {ts : List Token} {t : Node} (h : Phrase inner p ts t)
    (hp : 11 ≤ p) : ∃ tok rest, ts = tok :: rest ∧ (tok.isSign = true → t.isSign = true) := by
  have hunsigned {us : List Token} {u : Node} (hus : Unsigned us) :
      ∃ tok rest, us = tok :: rest ∧ (tok.isSign = true → u.isSign = true) := by
    obtain ⟨tok, rest, rfl, htok⟩ := isSign_of_unsigned hus
    exact ⟨tok, rest, rfl, fun hsign => absurd (htok.symm.trans hsign) nofun⟩
  induction h with
  | operand ht => exact hunsigned ht.unsigned
  | power hl _ _ => exact hunsigned hl.unsigned.append
  | unary op _ =>
      refine ⟨_, _, rfl, fun _ => ?_⟩
      cases op with
      | not => exact absurd hp (by decide)
      | _ => rfl
  | binary op _ hassoc _ _ _ _ =>
      have := BinaryOp.precedence_lt_eleven hassoc
      omega
  | compare _ _ _ _ _ _ _ => exact absurd hp (by decide)
  | tighter _ _ ih => exact ih (Nat.le_succ_of_le hp)

/-! ### Phrases -/

/-- The links of a chain come out over their operands. -/
theorem over_links {steps : List (List Token × Link Node)}
    (hcomp : ∀ s ∈ steps, s.2.op.isComparison = true)
    (hsteps : ∀ s ∈ steps, Closes s.1 ∧ Over (Place.opened.stamps s.1) s.2.operand.stamps) :
    Over (Place.closed.stamps (steps.flatMap fun s => s.2.op.token :: s.1))
      (steps.flatMap fun s => s.2.operand.stamps) := by
  induction steps with
  | nil => exact .nil
  | cons s steps ih =>
      have hassoc := BinaryOp.not_rightAssoc_of_comparison (hcomp s List.mem_cons_self)
      obtain ⟨hcloses, hover⟩ := hsteps s List.mem_cons_self
      have ih := ih (fun s hs => hcomp s (List.mem_cons_of_mem _ hs))
        fun s hs => hsteps s (List.mem_cons_of_mem _ hs)
      rw [List.flatMap_cons, List.flatMap_cons, List.cons_append, Place.stamps_binary, hassoc,
        if_neg nofun, Place.stamps_closes hcloses]
      exact hover.append ih

section

variable (F : Operands inner) (S : Stamped inner)

include F S

theorem Phrase.over {p : Nat} {ts : List Token} {t : Node} (h : Phrase inner p ts t) :
    Over (Place.opened.stamps ts) t.stamps := by
  induction h with
  | operand ht => exact Postfix.over F S ht
  | power hl hr ih =>
      obtain ⟨tok, rest, rfl, hsign⟩ := hr.isSign (Nat.le_refl 11)
      rw [Place.stamps_closes hl.closes, Place.stamps_binary, BinaryOp.isRightAssoc, if_pos rfl,
        Place.stamps_power, Node.stamps, if_pos rfl, List.append_assoc]
      refine (Postfix.over F S hl).append (.step rfl (fun htok => ?_) ih)
      rw [hsign (Stamp.power.inj htok)]
  | unary op ht =>
      rw [Place.stamps_unary, Node.stamps]
      exact S ht
  | binary op _ hassoc hl _ ihl ihr =>
      have hpow : op ≠ .pow := by
        rintro rfl
        exact absurd hassoc nofun
      rw [Place.stamps_closes (Phrase.closes F hl), Place.stamps_binary, hassoc, if_neg nofun,
        Node.stamps, if_neg hpow, List.append_nil]
      exact ihl.append ihr
  | @compare ts l steps hl _ hcomp hsteps ihl ihs =>
      rw [Place.stamps_closes (Phrase.closes F hl), Node.stamps, stampsOfLinks_eq, List.flatMap_map]
      exact ihl.append (over_links hcomp fun s hs => ⟨Phrase.closes F (hsteps s hs), ihs s hs⟩)
  | tighter _ _ ih => exact ih

end

/-- Every text comes out over its tree. -/
theorem Derives.over {n p : Nat} {ts : List Token} {t : Node} (h : Derives n p ts t) :
    Over (Place.opened.stamps ts) t.stamps := by
  induction n generalizing p ts t with
  | zero => exact h.elim
  | succ n ih => exact Phrase.over (Derives.operands n) ih h

end Grammar

end CallSite
