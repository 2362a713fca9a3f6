import CallSite.Proofs.Tree.Slot

/-!
# Tolls — counting tokens with regard to where they stand

A toll charges for the tokens of a text: for names and numbers, for opening parentheses, and for
signs that stand directly behind a power.  To tell a power from an expansion `**` it is enough to
know whether an operand ends in front of it, so a text is paid for from left to right with a
`Place` in hand.  Texts of operands end an operand themselves (`Closes`), so what stands behind
them is paid for from the place `closed`.
-/

namespace CallSite

/-- What the next token stands behind: neither an operand nor a power, an operand, or a power. -/
inductive Place where
  | opened | closed | power
  deriving DecidableEq, Repr

/-- The tokens that end an operand. -/
def Token.ends : Token → Bool
  | .ident _ | .str _ | .bytes _ | .int _ | .float _ => true
  | .word .trueWord | .word .falseWord | .word .noneWord => true
  | .mark .rightParen | .mark .rightBracket | .mark .rightBrace | .mark .ellipsis => true
  | _ => false

/-- The place behind a token. -/
def Place.after (p : Place) (tok : Token) : Place :=
  if tok.ends then .closed
  else if tok = .mark .doubleStar ∧ p = .closed then .power
  else .opened

/-- The place behind a text. -/
def Place.behind (p : Place) (ts : List Token) : Place := ts.foldl after p

/-- A text ends an operand. -/
def Closes (ts : List Token) : Prop := ∃ init tok, ts = init ++ [tok] ∧ tok.ends = true

theorem closes_concat {init : List Token} {tok : Token} (h : tok.ends = true) :
    Closes (init ++ [tok]) := ⟨init, tok, rfl, h⟩

theorem closes_singleton {tok : Token} (h : tok.ends = true) : Closes [tok] := ⟨[], tok, rfl, h⟩

theorem Closes.append {ts us : List Token} (h : Closes us) : Closes (ts ++ us) := by
  obtain ⟨init, tok, rfl, htok⟩ := h
  exact ⟨ts ++ init, tok, (List.append_assoc ..).symm, htok⟩

theorem Closes.cons {tok : Token} {us : List Token} (h : Closes us) : Closes (tok :: us) := by
  have happend : Closes ([tok] ++ us) := h.append
  exact happend

theorem Closes.behind {ts : List Token} (h : Closes ts) (p : Place) : p.behind ts = .closed := by
  obtain ⟨init, tok, rfl, htok⟩ := h
  simp [Place.behind, Place.after, htok]

/-! ## Paying for a text -/

/-- What is charged: for each name or number, for each opening parenthesis, and for each sign
    behind a power. -/
structure Toll where
  leaf : Token → Nat
  paren : Nat
  sign : Nat

namespace Toll

/-- The price of a token at a place. -/
def one (σ : Toll) (p : Place) : Token → Nat
  | .ident name => σ.leaf (.ident name)
  | .bytes text => σ.leaf (.bytes text)
  | .int value => σ.leaf (.int value)
  | .float value => σ.leaf (.float value)
  | .mark .leftParen => σ.paren
  | .mark .plus | .mark .minus | .mark .tilde => if p = .power then σ.sign else 0
  | _ => 0

/-- The price of a text that begins at a place. -/
def cost (σ : Toll) : Place → List Token → Nat
  | _, [] => 0
  | p, tok :: ts => σ.one p tok + σ.cost (p.after tok) ts

variable {σ : Toll} {p : Place} {ts us : List Token} {tok : Token}

@[simp] theorem cost_nil : σ.cost p [] = 0 := rfl

@[simp] theorem cost_cons : σ.cost p (tok :: ts) = σ.one p tok + σ.cost (p.after tok) ts := rfl

theorem cost_append : σ.cost p (ts ++ us) = σ.cost p ts + σ.cost (p.behind ts) us := by
  induction ts generalizing p with
  | nil => simp [Place.behind]
  | cons tok ts ih =>
      rw [List.cons_append, cost_cons, cost_cons, ih, Nat.add_assoc]
      rfl

/-- Behind the text of an operand the place is known. -/
theorem cost_closes (h : Closes ts) : σ.cost p (ts ++ us) = σ.cost p ts + σ.cost .closed us := by
  rw [cost_append, h.behind]

/-- Behind a power no token is cheaper. -/
theorem cost_opened_le (h : p ≠ .closed) : σ.cost .opened ts ≤ σ.cost p ts := by
  cases ts with
  | nil => exact Nat.le_refl _
  | cons tok ts =>
      have hafter : Place.after .opened tok = p.after tok := by
        simp [Place.after, h]
      have hone : σ.one .opened tok ≤ σ.one p tok := by
        cases tok with
        | mark m => cases m <;> simp [one]
        | _ => exact Nat.le_refl _
      rw [cost_cons, cost_cons, hafter]
      exact Nat.add_le_add_right hone _

/-- A sign is paid for behind a power. -/
theorem cost_sign {op : UnaryOp} (h : op ≠ .not) :
    σ.cost .power (op.token :: ts) = σ.sign + σ.cost .opened (op.token :: ts) := by
  cases op with
  | not => exact absurd rfl h
  | _ => simp [one, UnaryOp.token, Place.after, Token.ends]

/-- The marks that cost nothing and stand in front of something new. -/
def isSeparator : Mark → Bool
  | .comma | .colon | .assign | .dot | .star | .leftBracket | .leftBrace => true
  | _ => false

theorem cost_separator {m : Mark} (h : isSeparator m = true) :
    σ.cost p (.mark m :: ts) = σ.cost .opened ts := by
  cases m <;> first
    | exact absurd h (by decide)
    | simp [one, Place.after, Token.ends]

/-- An expansion costs nothing. -/
theorem cost_expansion : σ.cost .opened (.mark .doubleStar :: ts) = σ.cost .opened ts :=
  Nat.zero_add _

theorem cost_leftParen : σ.cost p (.mark .leftParen :: ts) = σ.paren + σ.cost .opened ts := by
  simp [one, Place.after, Token.ends]

/-- What closes a bracket costs nothing. -/
theorem cost_close {m : Mark} (hm : Token.ends (.mark m) = true) :
    σ.cost p (ts ++ [.mark m]) = σ.cost p ts := by
  rw [cost_append]
  cases m <;> first
    | rfl
    | exact absurd hm (by decide)

theorem one_binary (op : BinaryOp) : σ.one .closed op.token = 0 := by
  cases op <;> rfl

/-- Behind a binary operator an operand opens. -/
theorem after_binary (op : BinaryOp) :
    Place.after .closed op.token = if op.isRightAssoc then .power else .opened := by
  cases op <;> rfl

end Toll

/-! ## The price of a tree -/

/-- What a seat is written behind. -/
def Seat.place : Seat → Place
  | .exponent => .power
  | _ => .opened

/-- The left operand of a binary operator opens. -/
theorem Node.place_leftSeat (op : BinaryOp) : (leftSeat op).place = .opened := by
  cases op <;> rfl

/-- The right operand of a binary operator stands behind the operator. -/
theorem Node.place_rightSeat (op : BinaryOp) :
    (rightSeat op).place = Place.after .closed op.token := by
  cases op <;> rfl

/-- The price of the name of a keyword argument. -/
def Keyword.price {ε : Type} (σ : Toll) : Keyword ε → Nat
  | .named id _ => σ.leaf (.ident id)
  | .unpacked _ => 0

namespace Node

/-- The price of a node without its parts and without the parentheses around them. -/
def own (σ : Toll) : Node → Nat
  | .name id => σ.leaf (.ident id)
  | .constant value => σ.one .opened value.token
  | .attribute _ attr => σ.leaf (.ident attr)
  | .call site => σ.paren + (site.keywords.map (Keyword.price σ)).sum
  | .tuple _ => σ.paren
  | _ => 0

/-- The price of the parentheses around a part, if it is written with them. -/
def charge (σ : Toll) (s : Slot) : Nat :=
  if s.node.precedence < s.seat.writtenLevel then σ.paren else 0

/-- The price of a tree. -/
def toll (σ : Toll) (t : Node) : Nat := t.total (own σ) (charge σ)

theorem toll_eq (σ : Toll) (t : Node) :
    t.toll σ = t.own σ + (t.slots.map fun s => s.node.toll σ + charge σ s).sum :=
  total_eq ..

end Node

end CallSite
