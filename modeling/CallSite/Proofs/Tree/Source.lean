import CallSite.Expr.Resolution
import CallSite.Expr.Source
import CallSite.Proofs.Tree.Slot

/-!
# Source text of trees — what the text of an expression depends on

The source text of a resolved expression does not say what its names stand for, so it is a text of
the tree alone.  `Node.pieces` writes the tree without resolving it, and `pieces_of_resolve` shows
that resolution in any scope writes the same.
-/

namespace CallSite

namespace Node

mutual

/-- The pieces of a syntax tree. -/
def pieces : Node → List Piece
  | .name id => [.token (.ident id)]
  | .constant value => [.token value.token]
  | .attribute value attr =>
    Piece.groupedIf (value.precedence < Expr.atomPrecedence) value.pieces
      ++ [.mark .dot, .token (.ident attr)]
  | .call ⟨func, args, keywords⟩ =>
    Piece.groupedIf (func.precedence < Expr.atomPrecedence) func.pieces
      ++ Piece.parenthesized
        (Piece.commaSeparated (piecesOfEach args ++ piecesOfKeywords keywords))
  | .subscript value slice =>
    let sliced :=
      match slice with
      | .tuple (item :: items) => Piece.tupleItems (item.pieces :: piecesOfEach items)
      | slice => slice.pieces
    Piece.groupedIf (value.precedence < Expr.atomPrecedence) value.pieces
      ++ .mark .leftBracket :: sliced ++ [.mark .rightBracket]
  | .list items =>
    .mark .leftBracket :: Piece.commaSeparated (piecesOfEach items) ++ [.mark .rightBracket]
  | .tuple items => Piece.parenthesized (Piece.tupleItems (piecesOfEach items))
  | .dict entries =>
    .mark .leftBrace :: Piece.commaSeparated (piecesOfEntries entries) ++ [.mark .rightBrace]
  | .unary op operand =>
    op.pieces ++ Piece.groupedIf (operand.precedence < op.precedence) operand.pieces
  | .binary left op right =>
    Piece.groupedIf (left.precedence < (leftSeat op).writtenLevel) left.pieces ++ op.pieces
      ++ Piece.groupedIf (right.precedence < (rightSeat op).writtenLevel) right.pieces
  | .compare left links =>
    Piece.groupedIf (left.precedence < 5) left.pieces ++ piecesOfLinks links
  | .starred value => .mark .star :: value.pieces

/-- The pieces of each item of a list. -/
def piecesOfEach : List Node → List (List Piece)
  | [] => []
  | t :: ts => t.pieces :: piecesOfEach ts

/-- The pieces of each keyword argument. -/
def piecesOfKeywords : List (Keyword Node) → List (List Piece)
  | [] => []
  | .named id value :: ks =>
    (.token (.ident id) :: .mark .assign :: value.pieces) :: piecesOfKeywords ks
  | .unpacked value :: ks => (.mark .doubleStar :: value.pieces) :: piecesOfKeywords ks

/-- The pieces of each entry of a dictionary. -/
def piecesOfEntries : List (Entry Node) → List (List Piece)
  | [] => []
  | .item key value :: es =>
    (key.pieces ++ .mark .colon :: .blank :: value.pieces) :: piecesOfEntries es
  | .unpacked value :: es => (.mark .doubleStar :: value.pieces) :: piecesOfEntries es

/-- The pieces of the links of a chain. -/
def piecesOfLinks : List (Link Node) → List Piece
  | [] => []
  | ⟨op, operand⟩ :: links =>
    op.pieces ++ Piece.groupedIf (operand.precedence < 5) operand.pieces ++ piecesOfLinks links

end

/-- The source text of a tree. -/
def source (t : Node) : String := String.ofList (t.pieces.flatMap Piece.chars)

end Node

/-! ## Lists of parts -/

/-- A keyword argument, with its value as it is written. -/
def Keyword.written {ε : Type} (write : ε → List Piece) : Keyword ε → List Piece
  | .named id value => .token (.ident id) :: .mark .assign :: write value
  | .unpacked value => .mark .doubleStar :: write value

/-- A dictionary entry, with its key and its value as they are written. -/
def Entry.written {ε : Type} (write : ε → List Piece) : Entry ε → List Piece
  | .item key value => write key ++ .mark .colon :: .blank :: write value
  | .unpacked value => .mark .doubleStar :: write value

/-- A link of a chain, with its operand as it is written. -/
def Link.written {ε : Type} (write : ε → List Piece) (link : Link ε) : List Piece :=
  link.op.pieces ++ write link.operand

theorem Node.piecesOfEach_eq (ts : List Node) : piecesOfEach ts = ts.map pieces := by
  induction ts with
  | nil => rfl
  | cons t ts ih => rw [piecesOfEach, ih, List.map_cons]

theorem Node.piecesOfKeywords_eq (ks : List (Keyword Node)) :
    piecesOfKeywords ks = ks.map (Keyword.written pieces) := by
  induction ks with
  | nil => rfl
  | cons k ks ih => cases k <;> rw [piecesOfKeywords, ih, List.map_cons] <;> rfl

theorem Node.piecesOfEntries_eq (es : List (Entry Node)) :
    piecesOfEntries es = es.map (Entry.written pieces) := by
  induction es with
  | nil => rfl
  | cons e es ih => cases e <;> rw [piecesOfEntries, ih, List.map_cons] <;> rfl

theorem Node.piecesOfLinks_eq (links : List (Link Node)) :
    piecesOfLinks links
      = links.flatMap (Link.written fun t => Piece.groupedIf (t.precedence < 5) t.pieces) := by
  induction links with
  | nil => rfl
  | cons link links ih => rw [piecesOfLinks, ih, List.flatMap_cons]; rfl

theorem Expr.piecesOfEach_eq (es : List Expr) : piecesOfEach es = es.map pieces := by
  induction es with
  | nil => rfl
  | cons e es ih => rw [piecesOfEach, ih, List.map_cons]

theorem Expr.piecesOfEntries_eq (es : List (Entry Expr)) :
    piecesOfEntries es = es.map (Entry.written pieces) := by
  induction es with
  | nil => rfl
  | cons e es ih => cases e <;> rw [piecesOfEntries, ih, List.map_cons] <;> rfl

theorem Expr.piecesOfLinks_eq (links : List (Link Expr)) :
    piecesOfLinks links
      = links.flatMap (Link.written fun e => Piece.groupedIf e.wrapsInChain e.pieces) := by
  induction links with
  | nil => rfl
  | cons link links ih => rw [piecesOfLinks, ih, List.flatMap_cons]; rfl

/-! ## Opening a resolution -/

section

variable {α β : Type}

theorem Resolved.bind_eq_ok {r : Resolved α} {f : α → Resolved β} {b : β} :
    (r >>= f) = .ok b ↔ ∃ a, r = .ok a ∧ f a = .ok b := by
  cases r with
  | error e => exact ⟨fun h => absurd h nofun, fun ⟨_, h, _⟩ => absurd h nofun⟩
  | ok a =>
      constructor
      · intro h
        exact ⟨a, rfl, h⟩
      · rintro ⟨a', h, hf⟩
        cases h
        exact hf

theorem Resolved.map_eq_ok {r : Resolved α} {f : α → β} {b : β} :
    f <$> r = .ok b ↔ ∃ a, r = .ok a ∧ f a = b := by
  cases r with
  | error e => exact ⟨fun h => absurd h nofun, fun ⟨_, h, _⟩ => absurd h nofun⟩
  | ok a =>
      constructor
      · intro h
        exact ⟨a, rfl, Except.ok.inj h⟩
      · rintro ⟨a', h, rfl⟩
        cases h
        rfl

theorem Resolved.within_eq_ok {context : ResolutionContext} {r : Resolved α} {a : α} :
    r.within context = .ok a ↔ r = .ok a := by
  cases r with
  | error e => exact ⟨fun h => absurd h nofun, fun h => absurd h nofun⟩
  | ok a' => exact Iff.rfl

/-- What is true of each item that is resolved is true of the lists. -/
theorem Resolved.mapM_eq_ok {γ : Type} {f : α → Resolved β} {g : α → γ} {h : β → γ} {as : List α}
    {bs : List β} (hmap : as.mapM f = .ok bs)
    (hitem : ∀ a ∈ as, ∀ b, f a = .ok b → h b = g a) : bs.map h = as.map g := by
  induction as generalizing bs with
  | nil =>
      cases hmap
      rfl
  | cons a as ih =>
      rw [List.mapM_cons] at hmap
      obtain ⟨b, hb, hmap⟩ := Resolved.bind_eq_ok.mp hmap
      obtain ⟨rest, hrest, hmap⟩ := Resolved.bind_eq_ok.mp hmap
      cases hmap
      rw [List.map_cons, List.map_cons, hitem a List.mem_cons_self b hb,
        ih hrest fun a' ha' => hitem a' (List.mem_cons_of_mem a ha')]

/-- A list is resolved when each item is. -/
theorem Resolved.mapM_of_ok {f : α → Resolved β} {g : α → β} {as : List α}
    (h : ∀ a ∈ as, f a = .ok (g a)) : as.mapM f = .ok (as.map g) := by
  induction as with
  | nil => rfl
  | cons a as ih =>
      obtain ⟨ha, has⟩ := List.forall_mem_cons.mp h
      rw [List.mapM_cons, ha, ih has]
      rfl

/-- When a list is resolved, each item is. -/
theorem Resolved.ok_of_mapM {f : α → Resolved β} {as : List α} {bs : List β}
    (h : as.mapM f = .ok bs) : ∀ a ∈ as, ∃ b, f a = .ok b := by
  induction as generalizing bs with
  | nil => exact List.forall_mem_nil _
  | cons a as ih =>
      rw [List.mapM_cons] at h
      obtain ⟨b, hb, h⟩ := Resolved.bind_eq_ok.mp h
      obtain ⟨rest, hrest, -⟩ := Resolved.bind_eq_ok.mp h
      exact List.forall_mem_cons.mpr ⟨⟨b, hb⟩, ih hrest⟩

end

/-! ## Parentheses by seats -/

namespace Expr

theorem wrapsInChain_eq (e : Expr) : e.wrapsInChain = decide (e.precedence < 5) :=
  decide_eq_decide.mpr Nat.lt_succ_iff.symm

theorem wrapsLeftOf_eq (e : Expr) (op : BinaryOp) :
    e.wrapsLeftOf op = decide (e.precedence < (Node.leftSeat op).writtenLevel) := by
  rw [wrapsLeftOf, Bool.eq_iff_iff, decide_eq_true_iff]
  cases hassoc : op.isRightAssoc with
  | false => simp [Node.leftSeat, hassoc, Seat.writtenLevel, Seat.level]
  | true =>
      obtain rfl := BinaryOp.eq_pow hassoc
      show (decide (e.precedence < 12) || (true && e.precedence == 12)) = true ↔ e.precedence < 13
      simp only [Bool.true_and, Bool.or_eq_true, decide_eq_true_eq, beq_iff_eq]
      omega

theorem wrapsRightOf_eq (e : Expr) (op : BinaryOp) :
    e.wrapsRightOf op = decide (e.precedence < (Node.rightSeat op).writtenLevel) := by
  rw [wrapsRightOf, Bool.eq_iff_iff, decide_eq_true_iff]
  cases hassoc : op.isRightAssoc with
  | false =>
      simp only [Node.rightSeat, hassoc, Seat.writtenLevel, Seat.level, Bool.not_false,
        Bool.true_and, Bool.or_eq_true, decide_eq_true_eq, beq_iff_eq, Bool.false_eq_true, if_false]
      omega
  | true =>
      obtain rfl := BinaryOp.eq_pow hassoc
      show (decide (e.precedence < 12) || (false && e.precedence == 12)) = true ↔ e.precedence < 12
      simp

end Expr

/-! ## Resolution writes the same -/

/-- An expression between the brackets of a subscript. -/
def Expr.sliced : Expr → List Piece
  | .tuple (item :: items) => Piece.tupleItems (piecesOfEach (item :: items))
  | slice => slice.pieces

/-- A tree between the brackets of a subscript. -/
def Node.sliced : Node → List Piece
  | .tuple (item :: items) => Piece.tupleItems (piecesOfEach (item :: items))
  | slice => slice.pieces

theorem Expr.pieces_subscript (value slice : Expr) :
    (Expr.subscript value slice).pieces
      = Piece.groupedIf (value.precedence < atomPrecedence) value.pieces
        ++ .mark .leftBracket :: slice.sliced ++ [.mark .rightBracket] := by
  cases slice with
  | tuple items => cases items <;> rfl
  | _ => rfl

theorem Node.pieces_subscript (value slice : Node) :
    (Node.subscript value slice).pieces
      = Piece.groupedIf (value.precedence < Expr.atomPrecedence) value.pieces
        ++ .mark .leftBracket :: slice.sliced ++ [.mark .rightBracket] := by
  cases slice with
  | tuple items => cases items <;> rfl
  | _ => rfl

namespace Node

/-- A tree and an expression bind alike and are written alike, on their own and between the
    brackets of a subscript. -/
structure WrittenAs (t : Node) (e : Expr) : Prop where
  precedence : e.precedence = t.precedence
  pieces : e.pieces = t.pieces
  sliced : e.sliced = t.sliced

/-- An operand is put in parentheses alike. -/
theorem WrittenAs.grouped {t : Node} {e : Expr} (h : WrittenAs t e) (level : Nat) :
    Piece.groupedIf (e.precedence < level) e.pieces
      = Piece.groupedIf (t.precedence < level) t.pieces := by
  rw [h.pieces, h.precedence]

variable {scope : Scope} {sub : Node → Resolved Expr}

/-- An item is written alike, with or without a star. -/
theorem pieces_of_resolveItem (hsub : ∀ t e, sub t = .ok e → WrittenAs t e) {t : Node} {e : Expr}
    (h : resolveItem sub t = .ok e) : e.pieces = t.pieces := by
  cases t with
  | starred value =>
      obtain ⟨v, hv, rfl⟩ := Resolved.map_eq_ok.mp h
      rw [Expr.pieces, Node.pieces, (hsub _ _ hv).pieces]
  | _ => exact (hsub _ _ h).pieces

theorem pieces_of_resolveKeyword (hsub : ∀ t e, sub t = .ok e → WrittenAs t e)
    {k : Keyword Node} {e : Expr} (h : resolveKeyword sub k = .ok e) :
    e.pieces = k.written pieces := by
  cases k with
  | named id value =>
      obtain ⟨v, hv, rfl⟩ := Resolved.map_eq_ok.mp h
      rw [Expr.pieces, (hsub _ _ (Resolved.within_eq_ok.mp hv)).pieces]
      rfl
  | unpacked value =>
      obtain ⟨v, hv, rfl⟩ := Resolved.map_eq_ok.mp h
      rw [Expr.pieces, (hsub _ _ (Resolved.within_eq_ok.mp hv)).pieces]
      rfl

theorem written_of_resolveEntry (hsub : ∀ t e, sub t = .ok e → WrittenAs t e)
    {entry : Entry Node} {e : Entry Expr} (h : resolveEntry sub entry = .ok e) :
    e.written Expr.pieces = entry.written pieces := by
  cases entry with
  | item key value =>
      obtain ⟨k, hk, h⟩ := Resolved.bind_eq_ok.mp h
      obtain ⟨v, hv, h⟩ := Resolved.bind_eq_ok.mp h
      cases h
      rw [Entry.written, Entry.written, (hsub _ _ hk).pieces, (hsub _ _ hv).pieces]
  | unpacked value =>
      obtain ⟨v, hv, rfl⟩ := Resolved.map_eq_ok.mp h
      rw [Entry.written, Entry.written, (hsub _ _ hv).pieces]

theorem written_of_resolveLink (hsub : ∀ t e, sub t = .ok e → WrittenAs t e)
    {link : Link Node} {l : Link Expr} (h : resolveLink sub link = .ok l) :
    (l.written fun e => Piece.groupedIf e.wrapsInChain e.pieces)
      = link.written fun t => Piece.groupedIf (t.precedence < 5) t.pieces := by
  obtain ⟨e, he, rfl⟩ := Resolved.map_eq_ok.mp h
  rw [Link.written, Link.written, ← (hsub _ _ he).grouped 5, Expr.wrapsInChain_eq]

/-- The arguments of a call are written alike, the keyword arguments behind the others. -/
theorem pieces_of_resolveCall (hsub : ∀ t e, sub t = .ok e → WrittenAs t e) {site : Call Node}
    {e : Expr} (h : resolveCall sub site = .ok e) : e.pieces = (Node.call site).pieces := by
  obtain ⟨func, hfunc, h⟩ := Resolved.bind_eq_ok.mp h
  obtain ⟨args, hargs, h⟩ := Resolved.bind_eq_ok.mp h
  obtain ⟨keywords, hkeywords, h⟩ := Resolved.bind_eq_ok.mp h
  cases h
  have hargs' : args.map Expr.pieces = site.args.map pieces := by
    have hzip := Resolved.mapM_eq_ok (g := fun arg : Node × Nat => arg.1.pieces)
      (h := Expr.pieces) hargs
      fun arg _ e he => pieces_of_resolveItem hsub (Resolved.within_eq_ok.mp he)
    rw [hzip]
    exact (List.map_map (g := pieces) (f := Prod.fst)).symm.trans
      (congrArg (List.map pieces) (List.zipIdx_map_fst ..))
  have hkeywords' : keywords.map Expr.pieces = site.keywords.map (Keyword.written pieces) :=
    Resolved.mapM_eq_ok hkeywords fun k _ e he => pieces_of_resolveKeyword hsub he
  obtain ⟨f, as, ks⟩ := site
  rw [Expr.pieces, Node.pieces, Expr.piecesOfEach_eq, List.map_append, hargs', hkeywords',
    piecesOfEach_eq, piecesOfKeywords_eq]
  exact congrArg (· ++ _)
    ((hsub _ _ (Resolved.within_eq_ok.mp hfunc)).grouped Expr.atomPrecedence)

/-- Tuples whose items are written alike are written alike, with their parentheses and without. -/
theorem writtenAs_tuple {items : List Node} {es : List Expr}
    (hitems : es.map Expr.pieces = items.map pieces) : WrittenAs (.tuple items) (.tuple es) := by
  rw [← Expr.piecesOfEach_eq, ← piecesOfEach_eq] at hitems
  have hpieces : (Expr.tuple es).pieces = (Node.tuple items).pieces := by
    rw [Expr.pieces, Node.pieces, hitems]
  refine ⟨rfl, hpieces, ?_⟩
  cases es with
  | nil =>
      cases items with
      | nil => exact hpieces
      | cons item items => exact absurd hitems nofun
  | cons e es =>
      cases items with
      | nil => exact absurd hitems nofun
      | cons item items => exact congrArg Piece.tupleItems hitems

/-- Chains with the same operators whose operands are written alike bind alike and are written
    alike. -/
theorem writtenAs_compare {left : Node} {l : Expr} {links : List (Link Node)} {ls : List (Link Expr)}
    (hleft : WrittenAs left l) (hops : ls.map Link.op = links.map Link.op)
    (hlinks : ls.map (Link.written fun e => Piece.groupedIf e.wrapsInChain e.pieces)
      = links.map (Link.written fun t => Piece.groupedIf (t.precedence < 5) t.pieces)) :
    WrittenAs (.compare left links) (.compare l ls) := by
  have hpieces : (Expr.compare l ls).pieces = (Node.compare left links).pieces := by
    rw [Expr.pieces, Node.pieces, Expr.piecesOfLinks_eq, piecesOfLinks_eq,
      List.flatMap_def, List.flatMap_def, hlinks, ← hleft.grouped, Expr.wrapsInChain_eq]
  refine ⟨?_, hpieces, hpieces⟩
  cases ls with
  | nil =>
      cases links with
      | nil => rfl
      | cons link links => exact absurd hops nofun
  | cons l' ls =>
      cases links with
      | nil => exact absurd hops nofun
      | cons link links => exact congrArg BinaryOp.precedence (List.cons.inj hops).1

/-- A node whose parts are written alike is written alike. -/
theorem writtenAs_of_resolveWith (hsub : ∀ t e, sub t = .ok e → WrittenAs t e) {t : Node}
    {e : Expr} (h : t.resolveWith scope sub = .ok e) : WrittenAs t e := by
  match t, h with
  | .name id, h =>
      cases h
      exact ⟨rfl, rfl, rfl⟩
  | .constant value, h =>
      cases h
      exact ⟨rfl, rfl, rfl⟩
  | .attribute value attr, h =>
      obtain ⟨v, hv, h⟩ := Resolved.bind_eq_ok.mp h
      cases h
      have hpieces : (Expr.attribute v attr).pieces = (Node.attribute value attr).pieces := by
        rw [Expr.pieces, Node.pieces]
        exact congrArg (· ++ _)
          ((hsub _ _ (Resolved.within_eq_ok.mp hv)).grouped Expr.atomPrecedence)
      exact ⟨rfl, hpieces, hpieces⟩
  | .call site, h =>
      have hpieces := pieces_of_resolveCall hsub h
      obtain ⟨func, hfunc, h⟩ := Resolved.bind_eq_ok.mp h
      obtain ⟨args, hargs, h⟩ := Resolved.bind_eq_ok.mp h
      obtain ⟨keywords, hkeywords, h⟩ := Resolved.bind_eq_ok.mp h
      cases h
      exact ⟨rfl, hpieces, hpieces⟩
  | .subscript value slice, h =>
      obtain ⟨v, hv, h⟩ := Resolved.bind_eq_ok.mp h
      obtain ⟨s, hs, h⟩ := Resolved.bind_eq_ok.mp h
      cases h
      have hpieces : (Expr.subscript v s).pieces = (Node.subscript value slice).pieces := by
        rw [Expr.pieces_subscript, Node.pieces_subscript, (hsub _ _ hv).grouped,
          (hsub _ _ (Resolved.within_eq_ok.mp hs)).sliced]
      exact ⟨rfl, hpieces, hpieces⟩
  | .list items, h =>
      obtain ⟨es, hes, rfl⟩ := Resolved.map_eq_ok.mp h
      have hitems : es.map Expr.pieces = items.map pieces :=
        Resolved.mapM_eq_ok hes fun _ _ _ he => pieces_of_resolveItem hsub he
      have hpieces : (Expr.list es).pieces = (Node.list items).pieces := by
        rw [Expr.pieces, Node.pieces, Expr.piecesOfEach_eq, piecesOfEach_eq, hitems]
      exact ⟨rfl, hpieces, hpieces⟩
  | .tuple items, h =>
      obtain ⟨es, hes, rfl⟩ := Resolved.map_eq_ok.mp h
      exact writtenAs_tuple
        (Resolved.mapM_eq_ok hes fun _ _ _ he => pieces_of_resolveItem hsub he)
  | .dict entries, h =>
      obtain ⟨es, hes, rfl⟩ := Resolved.map_eq_ok.mp h
      have hentries : es.map (Entry.written Expr.pieces) = entries.map (Entry.written pieces) :=
        Resolved.mapM_eq_ok hes fun _ _ _ he => written_of_resolveEntry hsub he
      have hpieces : (Expr.dict es).pieces = (Node.dict entries).pieces := by
        rw [Expr.pieces, Node.pieces, Expr.piecesOfEntries_eq, piecesOfEntries_eq, hentries]
      exact ⟨rfl, hpieces, hpieces⟩
  | .unary op operand, h =>
      obtain ⟨o, ho, rfl⟩ := Resolved.map_eq_ok.mp h
      have hpieces : (Expr.unary op o).pieces = (Node.unary op operand).pieces := by
        rw [Expr.pieces, Node.pieces]
        exact congrArg (_ ++ ·) ((hsub _ _ ho).grouped op.precedence)
      exact ⟨rfl, hpieces, hpieces⟩
  | .binary left op right, h =>
      obtain ⟨l, hl, h⟩ := Resolved.bind_eq_ok.mp h
      obtain ⟨r, hr, h⟩ := Resolved.bind_eq_ok.mp h
      cases h
      have hpieces : (Expr.binary l op r).pieces = (Node.binary left op right).pieces := by
        rw [Expr.pieces, Node.pieces, ← (hsub _ _ hl).grouped, ← (hsub _ _ hr).grouped,
          Expr.wrapsLeftOf_eq, Expr.wrapsRightOf_eq]
      exact ⟨rfl, hpieces, hpieces⟩
  | .compare left links, h =>
      obtain ⟨l, hl, h⟩ := Resolved.bind_eq_ok.mp h
      obtain ⟨ls, hls, h⟩ := Resolved.bind_eq_ok.mp h
      cases h
      have hlinks := Resolved.mapM_eq_ok hls fun _ _ _ he => written_of_resolveLink hsub he
      have hops : ls.map Link.op = links.map Link.op := by
        refine Resolved.mapM_eq_ok hls fun link _ l hl => ?_
        obtain ⟨e, -, rfl⟩ := Resolved.map_eq_ok.mp hl
        rfl
      exact writtenAs_compare (hsub _ _ hl) hops hlinks
  | .starred value, h => exact absurd h nofun

theorem writtenAs_of_resolve {t : Node} {e : Expr} (h : t.resolve scope = .ok e) :
    WrittenAs t e := by
  have hwithin (depth : Nat) : ∀ t e, t.resolveWithin scope depth = .ok e → WrittenAs t e := by
    induction depth with
    | zero => exact fun _ _ h => absurd h nofun
    | succ depth ih => exact fun _ _ h => writtenAs_of_resolveWith ih h
  exact hwithin maxDepth t e h

/-- The source text of an expression is that of its tree, in whatever scope it was resolved. -/
theorem source_of_resolve {t : Node} {e : Expr} (h : t.resolve scope = .ok e) :
    e.source = t.source := by
  rw [Expr.source, Node.source, (writtenAs_of_resolve h).pieces]

end Node

end CallSite
