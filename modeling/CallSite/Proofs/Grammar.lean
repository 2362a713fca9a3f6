import CallSite.Expr.Source
import CallSite.Proofs.Reading

/-!
# Grammar — the stratified grammar of expressions

The grammar has one nonterminal for each level of operators, numbered by their precedence: a phrase
of level `p` holds, outside brackets, no binary operator that binds looser than `p`.  What stands
inside brackets or behind a unary operator is a nested operand, so it is taken from languages
`inner` that are a parameter.  `Derives n` ties the knot `n` times: its phrases are those whose
operands nest at most `n` deep.

The rules are read off the tokens alone.  They know nothing of the parser: no token is looked at in
advance, and no order of reading is fixed.
-/

namespace CallSite

/-! ## Operators and their tokens -/

@[simp] theorem BinaryOp.ofToken?_token (op : BinaryOp) : ofToken? op.token = some op := by
  cases op <;> rfl

/-- Only its own token stands for an operator. -/
theorem BinaryOp.token_of_ofToken? {tok : Token} {op : BinaryOp} (h : ofToken? tok = some op) :
    op.token = tok := by
  unfold ofToken? at h
  split at h <;> cases h <;> rfl

@[simp] theorem UnaryOp.ofToken?_token (op : UnaryOp) : ofToken? op.token = some op := by
  cases op <;> rfl

/-- Only its own token stands for an operator. -/
theorem UnaryOp.token_of_ofToken? {tok : Token} {op : UnaryOp} (h : ofToken? tok = some op) :
    op.token = tok := by
  unfold ofToken? at h
  split at h <;> cases h <;> rfl

theorem BinaryOp.token_ne_eof (op : BinaryOp) : op.token ≠ .eof := by
  cases op <;> exact nofun

theorem UnaryOp.token_ne_eof (op : UnaryOp) : op.token ≠ .eof := by
  cases op <;> exact nofun

/-- The operators that chain are those on the level of `<`. -/
theorem BinaryOp.precedence_eq_four {op : BinaryOp} :
    op.precedence = 4 ↔ op.isComparison = true := by
  cases op <;> decide

theorem BinaryOp.not_rightAssoc_of_comparison {op : BinaryOp} (h : op.isComparison = true) :
    op.isRightAssoc = false := by
  cases op <;> first | rfl | exact absurd h (by decide)

/-- Every other binary operator binds looser than a sign. -/
theorem BinaryOp.precedence_lt_eleven {op : BinaryOp} (h : op.isRightAssoc = false) :
    op.precedence < 11 := by
  cases op <;> first | decide | exact absurd h (by decide)

theorem BinaryOp.precedence_le (op : BinaryOp) : op.precedence ≤ 12 := by
  cases op <;> decide

theorem UnaryOp.precedence_le (op : UnaryOp) : op.precedence ≤ 11 := by
  cases op <;> decide

theorem BinaryOp.eq_pow {op : BinaryOp} (h : op.isRightAssoc = true) : op = .pow := by
  cases op <;> first | rfl | exact absurd h (by decide)

namespace Grammar

/-! ## Rows -/

/-- Items with commas between them; a comma may also stand behind the last. -/
inductive Row {α : Type} (item : Language α) : Language (List α) where
  | none : Row item [] []
  | last {ts : List Token} {a : α} : item ts a → Row item ts [a]
  | more {ts us : List Token} {a : α} {as : List α} :
      item ts a → Row item us as → Row item (ts ++ .mark .comma :: us) (a :: as)

/-- An argument as it is written in a call. -/
inductive Argument where
  | plain (value : Node)
  | starred (value : Node)
  | named (name : String) (value : Node)
  | unpacked (value : Node)

namespace Argument

/-- The positional argument that is written. -/
def positional? : Argument → Option Node
  | .plain value => some value
  | .starred value => some (.starred value)
  | .named _ _ | .unpacked _ => none

/-- The keyword argument that is written. -/
def keyword? : Argument → Option (Keyword Node)
  | .plain _ | .starred _ => none
  | .named name value => some (.named name value)
  | .unpacked value => some (.unpacked value)

/-- Whether one argument may stand somewhere in front of another: no plain one follows a keyword
    argument, and no starred one an expansion of keywords. -/
def MayPrecede : Argument → Argument → Prop
  | .named _ _, .plain _ | .unpacked _, .plain _ | .unpacked _, .starred _ => False
  | _, _ => True

end Argument

section

variable (inner : Nat → Language Node)

/-! ## What stands between brackets -/

/-- The ways to write one argument. -/
inductive ArgumentText : Language Argument where
  | plain {ts : List Token} {t : Node} : inner 0 ts t → ArgumentText ts (.plain t)
  | starred {ts : List Token} {t : Node} :
      inner 0 ts t → ArgumentText (.mark .star :: ts) (.starred t)
  | named {ts : List Token} {t : Node} (name : String) :
      inner 0 ts t → ArgumentText (.ident name :: .mark .assign :: ts) (.named name t)
  | unpacked {ts : List Token} {t : Node} :
      inner 0 ts t → ArgumentText (.mark .doubleStar :: ts) (.unpacked t)

/-- An item of a list or a tuple. -/
inductive Item : Language Node where
  | plain {ts : List Token} {t : Node} : inner 0 ts t → Item ts t
  | starred {ts : List Token} {t : Node} :
      inner BinaryOp.bitOr.precedence ts t → Item (.mark .star :: ts) (.starred t)

/-- An entry of a dictionary. -/
inductive EntryText : Language (Entry Node) where
  | item {ks vs : List Token} {k v : Node} :
      inner 0 ks k → inner 0 vs v → EntryText (ks ++ .mark .colon :: vs) (.item k v)
  | unpacked {vs : List Token} {v : Node} :
      inner BinaryOp.bitOr.precedence vs v → EntryText (.mark .doubleStar :: vs) (.unpacked v)

/-- What stands between the brackets of a subscript: one index, or several as a tuple. -/
inductive Slice : Language Node where
  | single {ts : List Token} {t : Node} : inner 0 ts t → Slice ts t
  | several {ts us : List Token} {t : Node} {more : List Node} :
      inner 0 ts t → Row (inner 0) us more → Slice (ts ++ .mark .comma :: us) (.tuple (t :: more))

/-- The arguments of a call, in an order that is allowed. -/
inductive Arguments (func : Node) : Language (Call Node) where
  | mk {ts : List Token} {args : List Argument} :
      Row (ArgumentText inner) ts args → args.Pairwise Argument.MayPrecede →
      Arguments func ts
        ⟨func, args.filterMap Argument.positional?, args.filterMap Argument.keyword?⟩

/-! ## Phrases -/

/-- Names, literals and bracketed expressions. -/
inductive Atom : Language Node where
  | name (id : String) : Atom [.ident id] (.name id)
  | constant (value : Constant) : (∀ s, value ≠ .str s) → Atom [value.token] (.constant value)
  /-- Texts that follow each other are one. -/
  | texts (parts : List String) :
      parts ≠ [] → Atom (parts.map Token.str) (.constant (.str (String.join parts)))
  | group {ts : List Token} {t : Node} :
      inner 0 ts t → Atom (.mark .leftParen :: ts ++ [.mark .rightParen]) t
  | unit : Atom [.mark .leftParen, .mark .rightParen] (.tuple [])
  | tuple {ts us : List Token} {t : Node} {more : List Node} :
      Item inner ts t → Row (Item inner) us more →
      Atom (.mark .leftParen :: (ts ++ .mark .comma :: us) ++ [.mark .rightParen])
        (.tuple (t :: more))
  | list {ts : List Token} {items : List Node} :
      Row (Item inner) ts items →
      Atom (.mark .leftBracket :: ts ++ [.mark .rightBracket]) (.list items)
  | dict {ts : List Token} {entries : List (Entry Node)} :
      Row (EntryText inner) ts entries →
      Atom (.mark .leftBrace :: ts ++ [.mark .rightBrace]) (.dict entries)

/-- An atom and the attributes, calls and subscripts behind it. -/
inductive Postfix : Language Node where
  | atom {ts : List Token} {t : Node} : Atom inner ts t → Postfix ts t
  | member {ts : List Token} {t : Node} (attr : String) :
      Postfix ts t → Postfix (ts ++ [.mark .dot, .ident attr]) (.attribute t attr)
  | call {ts us : List Token} {t : Node} {site : Call Node} :
      Postfix ts t → Arguments inner t us site →
      Postfix (ts ++ .mark .leftParen :: us ++ [.mark .rightParen]) (.call site)
  | subscript {ts us : List Token} {t slice : Node} :
      Postfix ts t → Slice inner us slice →
      Postfix (ts ++ .mark .leftBracket :: us ++ [.mark .rightBracket]) (.subscript t slice)

/-- The phrases of each level.  Level 12 is the power, which groups to the right; 11 are the signs,
    4 the comparison chains and 3 is `not`; all other levels group to the left.  A phrase of a
    level is a phrase of every looser one. -/
inductive Phrase : Nat → Language Node where
  | operand {ts : List Token} {t : Node} : Postfix inner ts t → Phrase 12 ts t
  | power {ts us : List Token} {l r : Node} :
      Postfix inner ts l → Phrase 11 us r →
      Phrase 12 (ts ++ BinaryOp.pow.token :: us) (.binary l .pow r)
  | unary {ts : List Token} {t : Node} (op : UnaryOp) :
      inner op.precedence ts t → Phrase op.precedence (op.token :: ts) (.unary op t)
  | binary {ts us : List Token} {l r : Node} (op : BinaryOp) :
      op.isComparison = false → op.isRightAssoc = false →
      Phrase op.precedence ts l → Phrase (op.precedence + 1) us r →
      Phrase op.precedence (ts ++ op.token :: us) (.binary l op r)
  | compare {ts : List Token} {l : Node} (steps : List (List Token × Link Node)) :
      Phrase 5 ts l → steps ≠ [] → (∀ s ∈ steps, s.2.op.isComparison = true) →
      (∀ s ∈ steps, Phrase 5 s.1 s.2.operand) →
      Phrase 4 (ts ++ steps.flatMap fun s => s.2.op.token :: s.1)
        (.compare l (steps.map Prod.snd))
  | tighter {p : Nat} {ts : List Token} {t : Node} : p < 12 → Phrase (p + 1) ts t → Phrase p ts t

end

/-- The phrases whose operands nest at most so deep. -/
def Derives : Nat → Nat → Language Node
  | 0 => fun _ _ _ => False
  | n + 1 => Phrase (Derives n)

/-! ## More nested operands derive more -/

theorem Row.mono {α : Type} {item item' : Language α} (h : ∀ {ts a}, item ts a → item' ts a)
    {ts : List Token} {as : List α} (hrow : Row item ts as) : Row item' ts as := by
  induction hrow with
  | none => exact .none
  | last ha => exact .last (h ha)
  | more ha _ ih => exact .more (h ha) ih

section

variable {inner inner' : Nat → Language Node}

theorem ArgumentText.mono (h : ∀ {p ts t}, inner p ts t → inner' p ts t) {ts : List Token}
    {a : Argument} (ha : ArgumentText inner ts a) : ArgumentText inner' ts a := by
  cases ha with
  | plain ht => exact .plain (h ht)
  | starred ht => exact .starred (h ht)
  | named name ht => exact .named name (h ht)
  | unpacked ht => exact .unpacked (h ht)

theorem Item.mono (h : ∀ {p ts t}, inner p ts t → inner' p ts t) {ts : List Token} {t : Node}
    (ht : Item inner ts t) : Item inner' ts t := by
  cases ht with
  | plain ht => exact .plain (h ht)
  | starred ht => exact .starred (h ht)

theorem EntryText.mono (h : ∀ {p ts t}, inner p ts t → inner' p ts t) {ts : List Token}
    {e : Entry Node} (he : EntryText inner ts e) : EntryText inner' ts e := by
  cases he with
  | item hk hv => exact .item (h hk) (h hv)
  | unpacked hv => exact .unpacked (h hv)

theorem Slice.mono (h : ∀ {p ts t}, inner p ts t → inner' p ts t) {ts : List Token} {t : Node}
    (ht : Slice inner ts t) : Slice inner' ts t := by
  cases ht with
  | single ht => exact .single (h ht)
  | several ht hmore => exact .several (h ht) (hmore.mono h)

theorem Arguments.mono (h : ∀ {p ts t}, inner p ts t → inner' p ts t) {func : Node}
    {ts : List Token} {site : Call Node} (hargs : Arguments inner func ts site) :
    Arguments inner' func ts site := by
  obtain ⟨hrow, hpair⟩ := hargs
  exact .mk (hrow.mono fun ha => ha.mono h) hpair

theorem Atom.mono (h : ∀ {p ts t}, inner p ts t → inner' p ts t) {ts : List Token} {t : Node}
    (ht : Atom inner ts t) : Atom inner' ts t := by
  cases ht with
  | name id => exact .name id
  | constant value hvalue => exact .constant value hvalue
  | texts parts hparts => exact .texts parts hparts
  | group ht => exact .group (h ht)
  | unit => exact .unit
  | tuple ht hmore => exact .tuple (ht.mono h) (hmore.mono fun ht => ht.mono h)
  | list hitems => exact .list (hitems.mono fun ht => ht.mono h)
  | dict hentries => exact .dict (hentries.mono fun he => he.mono h)

theorem Postfix.mono (h : ∀ {p ts t}, inner p ts t → inner' p ts t) {ts : List Token} {t : Node}
    (ht : Postfix inner ts t) : Postfix inner' ts t := by
  induction ht with
  | atom ht => exact .atom (ht.mono h)
  | member attr _ ih => exact .member attr ih
  | call _ hargs ih => exact .call ih (hargs.mono h)
  | subscript _ hslice ih => exact .subscript ih (hslice.mono h)

theorem Phrase.mono (h : ∀ {p ts t}, inner p ts t → inner' p ts t) {p : Nat} {ts : List Token}
    {t : Node} (ht : Phrase inner p ts t) : Phrase inner' p ts t := by
  induction ht with
  | operand ht => exact .operand (ht.mono h)
  | power hl _ ih => exact .power (hl.mono h) ih
  | unary op ht => exact .unary op (h ht)
  | binary op hcomp hassoc _ _ ihl ihr => exact .binary op hcomp hassoc ihl ihr
  | compare steps _ hne hcomp _ ihl ihs => exact .compare steps ihl hne hcomp ihs
  | tighter hp _ ih => exact .tighter hp ih

/-! ## Levels -/

/-- There is no level above that of the power. -/
theorem Phrase.level_le {p : Nat} {ts : List Token} {t : Node} (h : Phrase inner p ts t) :
    p ≤ 12 := by
  cases h with
  | operand _ => exact Nat.le_refl _
  | power _ _ => exact Nat.le_refl _
  | unary op _ => cases op <;> decide
  | binary op _ _ _ _ => cases op <;> decide
  | compare _ _ _ _ _ => decide
  | tighter hp _ => exact Nat.le_of_lt hp

/-- A phrase is one of every looser level. -/
theorem Phrase.looser {p q : Nat} {ts : List Token} {t : Node} (h : Phrase inner q ts t)
    (hpq : p ≤ q) : Phrase inner p ts t := by
  obtain ⟨n, rfl⟩ := Nat.exists_eq_add_of_le hpq
  induction n with
  | zero => exact h
  | succ n ih =>
      have hq := h.level_le
      exact ih (.tighter (by omega) h) (by omega)

end

/-- What is derived with operands of some depth is derived with deeper ones. -/
theorem Derives.succ {n p : Nat} {ts : List Token} {t : Node} (h : Derives n p ts t) :
    Derives (n + 1) p ts t := by
  induction n generalizing p ts t with
  | zero => exact h.elim
  | succ n ih => exact Phrase.mono ih h

end Grammar

end CallSite
