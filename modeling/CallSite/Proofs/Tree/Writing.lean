import CallSite.Proofs.Tree.Flaw
import CallSite.Proofs.Tree.Source

/-!
# Writing — the tokens of a tree's own text

A tree is written part by part, with parentheses around the parts that bind too loosely for their
seats (`Slot.tokens`).  Only what stands behind a star has none, whatever it is.  There is one
equation for the tokens of each kind of node.
-/

namespace CallSite

/-- The tokens that pieces are read as. -/
def Piece.tokens (ps : List Piece) : List Token := ps.filterMap Piece.token?

namespace Piece

@[simp] theorem tokens_nil : tokens [] = [] := rfl

@[simp] theorem tokens_token (tok : Token) (ps : List Piece) :
    tokens (.token tok :: ps) = tok :: tokens ps := rfl

@[simp] theorem tokens_mark (m : Mark) (ps : List Piece) :
    tokens (mark m :: ps) = .mark m :: tokens ps := rfl

@[simp] theorem tokens_blank (ps : List Piece) : tokens (.blank :: ps) = tokens ps := rfl

@[simp] theorem tokens_append (ps qs : List Piece) : tokens (ps ++ qs) = tokens ps ++ tokens qs :=
  List.filterMap_append ..

@[simp] theorem tokens_unary (op : UnaryOp) : tokens op.pieces = [op.token] := by
  cases op <;> rfl

@[simp] theorem tokens_binary (op : BinaryOp) : tokens op.pieces = [op.token] := rfl

theorem tokens_groupedIf {needed : Bool} {ps : List Piece} :
    tokens (groupedIf needed ps)
      = if needed then .mark .leftParen :: tokens ps ++ [.mark .rightParen] else tokens ps := by
  cases needed with
  | false => rfl
  | true => exact congrArg (Token.mark .leftParen :: ·) (List.filterMap_append ..)

theorem tokens_commaSeparated_cons (p q : List Piece) (ps : List (List Piece)) :
    tokens (commaSeparated (p :: q :: ps))
      = tokens p ++ .mark .comma :: tokens (commaSeparated (q :: ps)) := by
  rw [commaSeparated, List.intercalate_cons_cons, tokens_append, tokens_append]
  simp [comma, commaSeparated]

theorem tokens_commaSeparated_singleton (p : List Piece) :
    tokens (commaSeparated [p]) = tokens p := by
  simp [commaSeparated]

/-- Behind the first item of a tuple stands a comma in any case. -/
theorem tokens_tupleItems_cons (p : List Piece) (ps : List (List Piece)) :
    tokens (tupleItems (p :: ps)) = tokens p ++ .mark .comma :: tokens (commaSeparated ps) := by
  cases ps with
  | nil => simp [tupleItems, commaSeparated]
  | cons q ps =>
      rw [tupleItems, if_neg (by simp), List.append_nil, tokens_commaSeparated_cons]

end Piece

open Piece

/-! ## Rows -/

section

variable {α : Type} {write : α → List Piece} {as : List α}

/-- Items that are written with commas between them are a row. -/
theorem row_tokens {item : Language α} (h : ∀ a ∈ as, item (tokens (write a)) a) :
    Grammar.Row item (tokens (commaSeparated (as.map write))) as := by
  induction as with
  | nil => exact .none
  | cons a as ih =>
      have ha := h a List.mem_cons_self
      have hrest := ih fun b hb => h b (List.mem_cons_of_mem a hb)
      cases as with
      | nil =>
          rw [List.map_cons, List.map_nil, tokens_commaSeparated_singleton]
          exact .last ha
      | cons b as =>
          rw [List.map_cons, List.map_cons, tokens_commaSeparated_cons]
          exact .more ha hrest

end

/-! ## Nodes part by part -/

/-- The pieces of a part as it is written.  What stands behind a star has no parentheses. -/
def Slot.pieces (s : Slot) : List Piece :=
  if s.seat = .nested BinaryOp.bitOr.precedence then s.node.pieces
  else groupedIf (s.node.precedence < s.seat.writtenLevel) s.node.pieces

namespace Node

/-- An item is written as its slot is, behind a star if it has one. -/
theorem pieces_itemSlot (t : Node) :
    t.pieces = if t.isStarred then .mark .star :: t.itemSlot.pieces else t.itemSlot.pieces := by
  cases t with
  | starred v => rw [pieces]; rfl
  | _ => rfl

theorem pieces_argumentSlot (t : Node) :
    t.pieces
      = if t.isStarred then .mark .star :: t.argumentSlot.pieces else t.argumentSlot.pieces := by
  cases t with
  | starred v => rw [pieces]; rfl
  | _ => rfl

theorem pieces_attribute (value : Node) (attr : String) :
    (Node.attribute value attr).pieces
      = Slot.pieces ⟨.base, value⟩ ++ [.mark .dot, .token (.ident attr)] := by
  rw [pieces]
  rfl

theorem pieces_call (func : Node) (args : List Node) (keywords : List (Keyword Node)) :
    (call ⟨func, args, keywords⟩).pieces
      = Slot.pieces ⟨.base, func⟩ ++ .mark .leftParen
        :: commaSeparated (args.map pieces ++ keywords.map (Keyword.written pieces))
        ++ [.mark .rightParen] := by
  rw [pieces, piecesOfEach_eq, piecesOfKeywords_eq, parenthesized, List.append_assoc]
  rfl

theorem pieces_subscriptSlots (value slice : Node) :
    (subscript value slice).pieces
      = Slot.pieces ⟨.base, value⟩ ++ .mark .leftBracket :: slice.sliced ++ [.mark .rightBracket] :=
  pieces_subscript value slice

theorem pieces_list (items : List Node) :
    (list items).pieces
      = .mark .leftBracket :: commaSeparated (items.map pieces) ++ [.mark .rightBracket] := by
  rw [pieces, piecesOfEach_eq]

theorem pieces_tuple (items : List Node) :
    (tuple items).pieces
      = .mark .leftParen :: tupleItems (items.map pieces) ++ [.mark .rightParen] := by
  rw [pieces, piecesOfEach_eq]
  rfl

theorem pieces_dict (entries : List (Entry Node)) :
    (dict entries).pieces
      = .mark .leftBrace :: commaSeparated (entries.map (Entry.written pieces))
        ++ [.mark .rightBrace] := by
  rw [pieces, piecesOfEntries_eq]

theorem pieces_unary (op : UnaryOp) (operand : Node) :
    (unary op operand).pieces = op.pieces ++ Slot.pieces ⟨.nested op.precedence, operand⟩ := by
  have hseat : Seat.nested op.precedence ≠ .nested BinaryOp.bitOr.precedence := by
    cases op <;> decide
  rw [pieces, Slot.pieces, if_neg hseat]
  rfl

theorem pieces_binary (left : Node) (op : BinaryOp) (right : Node) :
    (binary left op right).pieces
      = Slot.pieces ⟨leftSeat op, left⟩ ++ op.pieces ++ Slot.pieces ⟨rightSeat op, right⟩ := by
  have hleft : leftSeat op ≠ .nested BinaryOp.bitOr.precedence := by
    cases op <;> decide
  have hright : rightSeat op ≠ .nested BinaryOp.bitOr.precedence := by
    cases op <;> decide
  rw [pieces, Slot.pieces, if_neg hleft, Slot.pieces, if_neg hright]

theorem pieces_compare (left : Node) (links : List (Link Node)) :
    (compare left links).pieces
      = Slot.pieces ⟨.operand 5, left⟩
        ++ links.flatMap fun link => link.op.pieces ++ Slot.pieces ⟨.operand 5, link.operand⟩ := by
  rw [pieces, piecesOfLinks_eq]
  rfl

end Node

/-! ## Tokens of nodes -/

/-- The tokens of a tree. -/
def Node.tokens (t : Node) : List Token := Piece.tokens t.pieces

/-- The tokens of a part as it is written. -/
def Slot.tokens (s : Slot) : List Token := Piece.tokens s.pieces

/-- What stands behind a star has no parentheses. -/
theorem Slot.tokens_star {s : Slot} (h : s.seat = .nested BinaryOp.bitOr.precedence) :
    s.tokens = s.node.tokens := by
  rw [tokens, pieces, if_pos h]
  rfl

/-- All other parts have parentheses if they bind too loosely. -/
theorem Slot.tokens_eq {s : Slot} (h : s.seat ≠ .nested BinaryOp.bitOr.precedence) :
    s.tokens = if s.node.precedence < s.seat.writtenLevel then
      .mark .leftParen :: s.node.tokens ++ [.mark .rightParen] else s.node.tokens := by
  rw [tokens, pieces, if_neg h, tokens_groupedIf]
  by_cases hlt : s.node.precedence < s.seat.writtenLevel
  · rw [if_pos (decide_eq_true hlt), if_pos hlt]
    rfl
  · rw [if_neg fun hdec => hlt (of_decide_eq_true hdec), if_neg hlt]
    rfl

namespace Node

theorem tokens_itemSlot (t : Node) :
    t.tokens = if t.isStarred then .mark .star :: t.itemSlot.tokens else t.itemSlot.tokens := by
  rw [tokens, pieces_itemSlot]
  split <;> rfl

theorem tokens_argumentSlot (t : Node) :
    t.tokens
      = if t.isStarred then .mark .star :: t.argumentSlot.tokens else t.argumentSlot.tokens := by
  rw [tokens, pieces_argumentSlot]
  split <;> rfl

theorem tokens_attribute (value : Node) (attr : String) :
    (Node.attribute value attr).tokens
      = Slot.tokens ⟨.base, value⟩ ++ [.mark .dot, .ident attr] := by
  rw [tokens, pieces_attribute, tokens_append]
  rfl

theorem tokens_call (func : Node) (args : List Node) (keywords : List (Keyword Node)) :
    (call ⟨func, args, keywords⟩).tokens
      = Slot.tokens ⟨.base, func⟩ ++ .mark .leftParen
        :: Piece.tokens (commaSeparated
          (args.map pieces ++ keywords.map (Keyword.written pieces)))
        ++ [.mark .rightParen] := by
  rw [tokens, pieces_call, tokens_append, tokens_append, tokens_mark]
  rfl

theorem tokens_subscript (value slice : Node) :
    (subscript value slice).tokens
      = Slot.tokens ⟨.base, value⟩ ++ .mark .leftBracket :: Piece.tokens slice.sliced
        ++ [.mark .rightBracket] := by
  rw [tokens, pieces_subscriptSlots, tokens_append, tokens_append, tokens_mark]
  rfl

theorem tokens_list (items : List Node) :
    (list items).tokens
      = .mark .leftBracket :: Piece.tokens (commaSeparated (items.map pieces))
        ++ [.mark .rightBracket] := by
  rw [tokens, pieces_list, tokens_append, tokens_mark]
  rfl

theorem tokens_tuple (items : List Node) :
    (tuple items).tokens
      = .mark .leftParen :: Piece.tokens (tupleItems (items.map pieces))
        ++ [.mark .rightParen] := by
  rw [tokens, pieces_tuple, tokens_append, tokens_mark]
  rfl

theorem tokens_dict (entries : List (Entry Node)) :
    (dict entries).tokens
      = .mark .leftBrace :: Piece.tokens (commaSeparated (entries.map (Entry.written pieces)))
        ++ [.mark .rightBrace] := by
  rw [tokens, pieces_dict, tokens_append, tokens_mark]
  rfl

theorem tokens_unary (op : UnaryOp) (operand : Node) :
    (unary op operand).tokens
      = op.token :: Slot.tokens ⟨.nested op.precedence, operand⟩ := by
  rw [tokens, pieces_unary, tokens_append, Piece.tokens_unary]
  rfl

theorem tokens_binary (left : Node) (op : BinaryOp) (right : Node) :
    (binary left op right).tokens
      = Slot.tokens ⟨leftSeat op, left⟩ ++ op.token :: Slot.tokens ⟨rightSeat op, right⟩ := by
  rw [tokens, pieces_binary, tokens_append, tokens_append, Piece.tokens_binary, List.append_assoc]
  rfl

theorem tokens_compare (left : Node) (links : List (Link Node)) :
    (compare left links).tokens
      = Slot.tokens ⟨.operand 5, left⟩
        ++ links.flatMap fun link => link.op.token :: Slot.tokens ⟨.operand 5, link.operand⟩ := by
  rw [tokens, pieces_compare, tokens_append]
  refine congrArg (_ ++ ·) ?_
  induction links with
  | nil => rfl
  | cons link links ih =>
      rw [List.flatMap_cons, List.flatMap_cons, tokens_append, ih, tokens_append]
      rfl

/-! ## Written tokens end operands -/

theorem Lawful.fitting {t : Node} (h : t.Lawful) : t.Fitting := by
  obtain ⟨hfit, -⟩ := h
  exact hfit

theorem Lawful.slot {t : Node} (h : t.Lawful) {s : Slot} (hs : s ∈ t.slots) : s.node.Lawful := by
  obtain ⟨-, hslots⟩ := h
  exact hslots s hs

theorem Lawful.isStarred {t : Node} (h : t.Lawful) : t.isStarred = false := by
  cases t with
  | starred v => exact h.fitting.elim
  | _ => rfl

theorem closes_slotTokens {s : Slot} (h : Closes s.node.tokens) : Closes s.tokens := by
  by_cases hstar : s.seat = .nested BinaryOp.bitOr.precedence
  · rw [Slot.tokens_star hstar]
    exact h
  · rw [Slot.tokens_eq hstar]
    split
    · exact closes_concat rfl
    · exact h

theorem closes_item {t : Node} (h : Closes t.itemSlot.tokens) : Closes t.tokens := by
  rw [tokens_itemSlot]
  split
  · exact h.cons
  · exact h

theorem closes_argument {t : Node} (h : Closes t.argumentSlot.tokens) : Closes t.tokens := by
  rw [tokens_argumentSlot]
  split
  · exact h.cons
  · exact h

theorem closes_keyword {k : Keyword Node} (h : Closes k.value.tokens) :
    Closes (Piece.tokens (k.written pieces)) := by
  cases k with
  | named id value => exact h.cons.cons
  | unpacked value => exact h.cons

theorem closes_entry {e : Entry Node} (h : ∀ s ∈ entrySlots e, Closes s.node.tokens) :
    Closes (Piece.tokens (e.written pieces)) := by
  cases e with
  | item key value =>
      have hvalue := h value.inside (List.mem_cons_of_mem _ (List.mem_singleton_self _))
      rw [Entry.written, tokens_append]
      exact hvalue.cons.append
  | unpacked value => exact (h _ (List.mem_singleton_self _)).cons

/-- The tokens of a tree end an operand. -/
theorem Lawful.closes {t : Node} (h : t.Lawful) : Closes t.tokens := by
  induction t using Node.slotInduction with
  | step t ih =>
      have hslot : ∀ s ∈ t.slots, Closes s.tokens :=
        fun s hs => closes_slotTokens (ih s hs (h.slot hs))
      match t, h, hslot with
      | .name id, _, _ => exact closes_singleton rfl
      | .constant value, _, _ =>
          refine closes_singleton ?_
          cases value with
          | bool b => cases b <;> rfl
          | _ => rfl
      | .attribute value attr, _, _ =>
          rw [tokens_attribute]
          exact (closes_singleton rfl).cons.append
      | .call ⟨func, args, keywords⟩, _, _ =>
          rw [tokens_call]
          exact closes_concat rfl
      | .subscript value slice, _, _ =>
          rw [tokens_subscript]
          exact closes_concat rfl
      | .list items, _, _ =>
          rw [tokens_list]
          exact closes_concat rfl
      | .tuple items, _, _ =>
          rw [tokens_tuple]
          exact closes_concat rfl
      | .dict entries, _, _ =>
          rw [tokens_dict]
          exact closes_concat rfl
      | .unary op operand, _, hslot =>
          rw [tokens_unary]
          exact (hslot _ (List.mem_singleton_self _)).cons
      | .binary left op right, _, hslot =>
          rw [tokens_binary]
          exact (hslot _ (List.mem_cons_of_mem _ (List.mem_singleton_self _))).cons.append
      | .compare left links, h, hslot =>
          obtain ⟨init, last, rfl⟩ : ∃ init last, links = init ++ [last] :=
            ⟨_, _, (List.dropLast_concat_getLast h.fitting.1).symm⟩
          rw [tokens_compare, List.flatMap_append, List.flatMap_cons, List.flatMap_nil,
            List.append_nil]
          refine (hslot ⟨.operand 5, last.operand⟩ ?_).cons.append.append
          exact List.mem_cons_of_mem _
            (List.mem_map.mpr ⟨last, List.mem_append_right _ (List.mem_singleton_self _), rfl⟩)
      | .starred v, h, _ => exact h.fitting.elim

/-- In a lawful tree the loose nodes are those that bind looser than `|`. -/
theorem Lawful.isLoose {t : Node} (h : t.Lawful) : t.isLoose = true ↔ t.precedence < 5 := by
  match t, h with
  | .binary left op right, h =>
      have hfit : op.isComparison = false := h.fitting
      show (decide (op = .or) || decide (op = .and)) = true ↔ op.precedence < 5
      revert hfit
      cases op <;> decide
  | .unary op operand, _ =>
      show decide (op = .not) = true ↔ op.precedence < 5
      cases op <;> decide
  | .compare left links, h =>
      have hfour := h.fitting.precedence_compare
      exact iff_of_true rfl (by omega)
  | .starred v, h => exact h.fitting.elim
  | .name _, _ | .constant _, _ | .attribute _ _, _ | .call _, _ | .subscript _ _, _ | .list _, _
  | .tuple _, _ | .dict _, _ =>
      exact iff_of_false Bool.false_ne_true (show ¬ Expr.atomPrecedence < 5 by decide)

end Node

end CallSite
