import CallSite.Proofs.Lexing.Piece
import CallSite.Proofs.Tree.Rederivation

/-!
# Layout — where the parts of a tree are written

A node is written as pieces of its own and parts in their seats, from left to right
(`Node.layout`).  A cut through the layout at a part says what stands in front of the part and
behind it (`Cut`), and by cuts one comes down to every part of a tree (`Node.Writes`).

The parentheses around operands are found in this way: each of them opens in front of a part that
is written in parentheses (`writes_of_groupStart`), and it closes behind the same part, since what
stands between them is balanced (`Balanced.unique`).
-/

namespace CallSite

open Piece Grammar

/-! ## Parts in parentheses -/

namespace Slot

/-- A part is written in parentheses: it binds too loosely, and no star stands in front of it. -/
def IsGrouped (s : Slot) : Prop :=
  s.seat ≠ .nested BinaryOp.bitOr.precedence ∧ s.node.precedence < s.seat.writtenLevel

instance (s : Slot) : Decidable s.IsGrouped := inferInstanceAs (Decidable (_ ∧ _))

/-- The parenthesis in front of a part, if it has one. -/
def opening (s : Slot) : List Piece := if s.IsGrouped then [.groupStart] else []

/-- The parenthesis behind a part, if it has one. -/
def closing (s : Slot) : List Piece := if s.IsGrouped then [.groupEnd] else []

theorem pieces_eq (s : Slot) : s.pieces = s.opening ++ s.node.pieces ++ s.closing := by
  unfold pieces opening closing
  by_cases hstar : s.seat = .nested BinaryOp.bitOr.precedence
  · have hgrouped : ¬ s.IsGrouped := fun h => h.1 hstar
    rw [if_pos hstar, if_neg hgrouped, if_neg hgrouped, List.nil_append, List.append_nil]
  · rw [if_neg hstar]
    by_cases hlt : s.node.precedence < s.seat.writtenLevel
    · have hgrouped : s.IsGrouped := ⟨hstar, hlt⟩
      rw [if_pos hgrouped, if_pos hgrouped, decide_eq_true hlt]
      rfl
    · have hgrouped : ¬ s.IsGrouped := fun h => hlt h.2
      rw [if_neg hgrouped, if_neg hgrouped, decide_eq_false hlt, List.nil_append, List.append_nil]
      rfl

end Slot

/-! ## Segments -/

/-- What a node is written as: a piece of its own, or a part of it. -/
inductive Segment where
  | piece (p : Piece)
  | part (s : Slot)

namespace Segment

/-- The pieces of a segment. -/
def pieces : Segment → List Piece
  | .piece p => [p]
  | .part s => s.pieces

/-- The pieces of several segments. -/
def written (xs : List Segment) : List Piece := xs.flatMap pieces

@[simp] theorem written_nil : written [] = [] := rfl

@[simp] theorem written_piece (p : Piece) (xs : List Segment) :
    written (piece p :: xs) = p :: written xs := rfl

@[simp] theorem written_part (s : Slot) (xs : List Segment) :
    written (part s :: xs) = s.pieces ++ written xs := rfl

@[simp] theorem written_append (xs ys : List Segment) :
    written (xs ++ ys) = written xs ++ written ys := List.flatMap_append ..

@[simp] theorem written_map_piece (ps : List Piece) : written (ps.map piece) = ps := by
  induction ps with
  | nil => rfl
  | cons p ps ih => rw [List.map_cons, written_piece, ih]

/-- The comma between two rows, and the blank behind it. -/
def between : List Segment := [piece (.mark .comma), piece .blank]

/-- A part behind pieces that lead to it. -/
def led (lead : List Piece) (s : Slot) : List Segment := lead.map piece ++ [part s]

@[simp] theorem written_led (lead : List Piece) (s : Slot) : written (led lead s) = lead ++ s.pieces := by
  simp [led]

/-- Several rows with commas between them. -/
def separated (rows : List (List Segment)) : List Segment := List.intercalate between rows

/-- Each row behind the first has its comma in front. -/
theorem separated_cons (row : List Segment) (rows : List (List Segment)) :
    separated (row :: rows) = row ++ rows.flatMap (between ++ ·) := by
  induction rows generalizing row with
  | nil => simp [separated]
  | cons row' rows ih =>
      rw [separated, List.intercalate_cons_cons, ← separated, ih, List.flatMap_cons,
        List.append_assoc, List.append_assoc]

@[simp] theorem written_separated (rows : List (List Segment)) :
    written (separated rows) = commaSeparated (rows.map written) := by
  induction rows with
  | nil => rfl
  | cons row rows ih =>
      cases rows with
      | nil => simp [separated, commaSeparated]
      | cons row' rows =>
          have hrest : written (List.intercalate between (row' :: rows))
              = commaSeparated (written row' :: rows.map written) := ih
          rw [separated, List.intercalate_cons_cons, written_append, written_append, hrest,
            List.map_cons, List.map_cons, commaSeparated, commaSeparated,
            List.intercalate_cons_cons]
          rfl

end Segment

open Segment

/-! ## Layouts -/

/-- The arguments of a call in the order in which they are written. -/
def Call.arguments (site : Call Node) : List Argument :=
  site.args.map .ofNode ++ site.keywords.map .ofKeyword

/-- What stands in front of the value of an argument. -/
def Grammar.Argument.lead : Argument → List Piece
  | .plain _ => []
  | .starred _ => [.mark .star]
  | .named id _ => [.token (.ident id), .mark .assign]
  | .unpacked _ => [.mark .doubleStar]

/-- An argument of a call. -/
def Grammar.Argument.layout (a : Argument) : List Segment := led a.lead a.slot

namespace Node

/-- The star in front of an item, if it has one. -/
def star (t : Node) : List Piece := if t.isStarred then [.mark .star] else []

/-- An item of a list or a tuple. -/
def itemLayout (t : Node) : List Segment := led t.star t.itemSlot

/-- An entry of a dictionary. -/
def entryLayout : Entry Node → List Segment
  | .item key value => .part key.inside :: led [.mark .colon, .blank] value.inside
  | .unpacked value => led [.mark .doubleStar] ⟨.nested BinaryOp.bitOr.precedence, value⟩

/-- The comma behind the only item of a tuple. -/
def lastComma (items : List Node) : List Piece := if items.length = 1 then [.mark .comma] else []

/-- The items of a tuple: a single one is followed by a comma. -/
def tupleLayout (items : List Node) : List Segment :=
  separated (items.map itemLayout) ++ (lastComma items).map .piece

/-- What stands between the brackets of a subscript. -/
def sliceLayout : Node → List Segment
  | .tuple (item :: items) => tupleLayout (item :: items)
  | slice => [.part slice.inside]

/-- What a node is written as, from left to right. -/
def layout : Node → List Segment
  | .name id => [.piece (.token (.ident id))]
  | .constant value => [.piece (.token value.token)]
  | .attribute value attr =>
    [.part ⟨.base, value⟩, .piece (.mark .dot), .piece (.token (.ident attr))]
  | .call site =>
    .part ⟨.base, site.func⟩ :: .piece (.mark .leftParen)
      :: separated (site.arguments.map Argument.layout) ++ [.piece (.mark .rightParen)]
  | .subscript value slice =>
    .part ⟨.base, value⟩ :: .piece (.mark .leftBracket) :: slice.sliceLayout
      ++ [.piece (.mark .rightBracket)]
  | .list items =>
    .piece (.mark .leftBracket) :: separated (items.map itemLayout)
      ++ [.piece (.mark .rightBracket)]
  | .tuple items => .piece (.mark .leftParen) :: tupleLayout items ++ [.piece (.mark .rightParen)]
  | .dict entries =>
    .piece (.mark .leftBrace) :: separated (entries.map entryLayout)
      ++ [.piece (.mark .rightBrace)]
  | .unary op operand => led op.pieces ⟨.nested op.precedence, operand⟩
  | .binary left op right =>
    .part ⟨leftSeat op, left⟩ :: led op.pieces ⟨rightSeat op, right⟩
  | .compare left links =>
    .part ⟨.operand 5, left⟩
      :: links.flatMap fun link => led link.op.pieces ⟨.operand 5, link.operand⟩
  | .starred value => led [.mark .star] ⟨.nested BinaryOp.bitOr.precedence, value⟩

theorem written_itemLayout (t : Node) : written t.itemLayout = t.pieces := by
  rw [itemLayout, written_led, pieces_itemSlot, star]
  split <;> rfl

/-- Inside brackets no part has parentheses. -/
theorem pieces_inside (t : Node) : t.inside.pieces = t.pieces := rfl

/-- Behind a star no part has parentheses. -/
theorem pieces_star (t : Node) :
    Slot.pieces ⟨.nested BinaryOp.bitOr.precedence, t⟩ = t.pieces := if_pos rfl

theorem written_argument (a : Argument) : Segment.written a.layout = a.written := by
  rw [Argument.layout, written_led]
  cases a <;> rfl

theorem written_arguments (site : Call Node) :
    (site.arguments.map Argument.layout).map Segment.written
      = site.args.map pieces ++ site.keywords.map (Keyword.written pieces) := by
  rw [Call.arguments, List.map_map, List.map_append, List.map_map, List.map_map]
  refine congrArg₂ (· ++ ·) (List.map_congr_left fun arg _ => ?_) (List.map_congr_left fun k _ => ?_)
  · exact (written_argument _).trans (Argument.written_ofNode arg)
  · exact (written_argument _).trans (Argument.written_ofKeyword k)

theorem written_entryLayout (e : Entry Node) : written (entryLayout e) = e.written pieces := by
  cases e with
  | item key value => rw [entryLayout, written_part, written_led, pieces_inside, pieces_inside]; rfl
  | unpacked value => rw [entryLayout, written_led, pieces_star]; rfl

theorem written_tupleLayout (items : List Node) :
    written (tupleLayout items) = tupleItems (items.map pieces) := by
  rw [tupleLayout, tupleItems, written_append, written_separated, written_map_piece, List.map_map,
    List.length_map, List.map_congr_left (f := written ∘ itemLayout) fun t _ => written_itemLayout t]
  rfl

theorem written_sliceLayout (slice : Node) : written slice.sliceLayout = slice.sliced := by
  cases slice with
  | tuple items =>
      cases items with
      | nil => exact List.append_nil _
      | cons item items =>
          show written (tupleLayout (item :: items)) = tupleItems (piecesOfEach (item :: items))
          rw [written_tupleLayout, piecesOfEach_eq]
  | _ => simp [sliceLayout, sliced, pieces_inside]

/-- The layout of a node is what is written. -/
theorem written_layout (t : Node) : written t.layout = t.pieces := by
  cases t with
  | name id => rw [pieces]; rfl
  | constant value => rw [pieces]; rfl
  | «attribute» value attr => rw [pieces_attribute]; rfl
  | call site =>
      rw [layout, written_append, written_part, written_piece, written_separated, written_arguments]
      exact (pieces_call ..).symm
  | subscript value slice =>
      rw [pieces_subscriptSlots, layout, written_append, written_part, written_piece,
        written_sliceLayout]
      simp
  | list items =>
      have hrows : (items.map itemLayout).map written = items.map pieces := by
        simp [written_itemLayout]
      rw [pieces_list, layout, written_append, written_piece, written_separated, hrows]
      rfl
  | tuple items =>
      rw [pieces_tuple, layout, written_append, written_piece, written_tupleLayout]
      rfl
  | dict entries =>
      have hrows : (entries.map entryLayout).map written = entries.map (Entry.written pieces) := by
        simp [written_entryLayout]
      rw [pieces_dict, layout, written_append, written_piece, written_separated, hrows]
      rfl
  | unary op operand =>
      rw [pieces_unary, layout, written_led]
  | binary left op right =>
      rw [pieces_binary, layout, written_part, written_led, List.append_assoc]
  | compare left links =>
      rw [pieces_compare, layout, written_part]
      refine congrArg (Slot.pieces ⟨.operand 5, left⟩ ++ ·) ?_
      induction links with
      | nil => rfl
      | cons link links ih =>
          rw [List.flatMap_cons, List.flatMap_cons, written_append, written_led, ih]
  | starred value =>
      rw [layout, written_led, pieces_star, pieces]
      rfl

end Node

/-! ## Cuts -/

/-- A layout is cut at a part. -/
def Cut (xs before : List Segment) (s : Slot) (behind : List Segment) : Prop :=
  xs = before ++ .part s :: behind

section

variable {xs ys before behind : List Segment} {s s' : Slot} {p : Piece}

theorem cut_nil : ¬ Cut [] before s behind := by
  simp [Cut]

theorem cut_piece :
    Cut (.piece p :: xs) before s behind
      ↔ ∃ before', before = .piece p :: before' ∧ Cut xs before' s behind := by
  unfold Cut
  cases before with
  | nil => simp
  | cons x before => simp [eq_comm]

theorem cut_part :
    Cut (.part s' :: xs) before s behind
      ↔ before = [] ∧ s = s' ∧ behind = xs
        ∨ ∃ before', before = .part s' :: before' ∧ Cut xs before' s behind := by
  unfold Cut
  constructor
  · intro h
    cases before with
    | nil =>
        obtain ⟨hpart, rfl⟩ := List.cons.inj h
        exact Or.inl ⟨rfl, (Segment.part.inj hpart).symm, rfl⟩
    | cons x before =>
        obtain ⟨rfl, hxs⟩ := List.cons.inj h
        exact Or.inr ⟨before, rfl, hxs⟩
  · rintro (⟨rfl, rfl, rfl⟩ | ⟨before', rfl, rfl⟩)
    · rfl
    · rfl

theorem cut_append :
    Cut (xs ++ ys) before s behind
      ↔ (∃ behind', behind = behind' ++ ys ∧ Cut xs before s behind')
        ∨ ∃ before', before = xs ++ before' ∧ Cut ys before' s behind := by
  constructor
  · intro h
    rcases List.append_eq_append_iff.mp h with ⟨before', rfl, hys⟩ | ⟨mid, rfl, hmid⟩
    · exact Or.inr ⟨before', rfl, hys⟩
    · cases mid with
      | nil => exact Or.inr ⟨[], (List.append_nil _).symm.trans (List.append_nil _).symm, hmid.symm⟩
      | cons x mid =>
          obtain ⟨rfl, rfl⟩ := List.cons.inj hmid
          exact Or.inl ⟨mid, rfl, rfl⟩
  · rintro (⟨behind', rfl, rfl⟩ | ⟨before', rfl, rfl⟩)
    · exact List.append_assoc ..
    · exact (List.append_assoc ..).symm

theorem not_cut_pieces (ps : List Piece) : ¬ Cut (ps.map .piece) before s behind := by
  intro h
  have hmem : Segment.part s ∈ ps.map .piece := h ▸ List.mem_append_right _ List.mem_cons_self
  obtain ⟨p, -, hp⟩ := List.mem_map.mp hmem
  exact absurd hp nofun

/-- A cut through rows with commas between them goes through one of the rows. -/
theorem Cut.of_separated {rows : List (List Segment)} (h : Cut (separated rows) before s behind) :
    ∃ front row back before' behind', rows = front ++ row :: back
      ∧ before = front.flatMap (· ++ between) ++ before'
      ∧ behind = behind' ++ back.flatMap (between ++ ·) ∧ Cut row before' s behind' := by
  induction rows generalizing before with
  | nil => exact absurd h cut_nil
  | cons row rows ih =>
      rw [separated_cons] at h
      rcases cut_append.mp h with ⟨behind', rfl, hrow⟩ | ⟨before', rfl, hrest⟩
      · exact ⟨[], row, rows, before, behind', rfl, rfl, rfl, hrow⟩
      · cases rows with
        | nil => exact absurd hrest cut_nil
        | cons row' rows =>
            rw [List.flatMap_cons, List.append_assoc, ← separated_cons] at hrest
            obtain ⟨mid, rfl, hblank⟩ := cut_piece.mp hrest
            obtain ⟨before', rfl, hmore⟩ := cut_piece.mp hblank
            obtain ⟨front, row₁, back, before₁, behind₁, hrows, rfl, rfl, hcut⟩ := ih hmore
            refine ⟨row :: front, row₁, back, before₁, behind₁, congrArg (row :: ·) hrows, ?_, rfl,
              hcut⟩
            rw [List.flatMap_cons, List.append_assoc, List.append_assoc]
            rfl

theorem Cut.of_led {lead : List Piece} (h : Cut (led lead s') before s behind) :
    before = lead.map .piece ∧ s = s' ∧ behind = [] := by
  rcases cut_append.mp h with ⟨_, -, hlead⟩ | ⟨before', rfl, hpart⟩
  · exact absurd hlead (not_cut_pieces _)
  · rcases cut_part.mp hpart with ⟨rfl, rfl, rfl⟩ | ⟨_, -, hnil⟩
    · exact ⟨List.append_nil _, rfl, rfl⟩
    · exact absurd hnil cut_nil

/-- A cut through several layouts in a row goes through one of them. -/
theorem Cut.of_flatMap {α : Type} {f : α → List Segment} {as : List α}
    (h : Cut (as.flatMap f) before s behind) :
    ∃ front a back before' behind', as = front ++ a :: back ∧ before = front.flatMap f ++ before'
      ∧ behind = behind' ++ back.flatMap f ∧ Cut (f a) before' s behind' := by
  induction as generalizing before with
  | nil => exact absurd h cut_nil
  | cons a as ih =>
      rcases cut_append.mp h with ⟨behind', rfl, ha⟩ | ⟨before', rfl, has⟩
      · exact ⟨[], a, as, before, behind', rfl, rfl, rfl, ha⟩
      · obtain ⟨front, b, back, before₁, behind₁, rfl, rfl, rfl, hb⟩ := ih has
        refine ⟨a :: front, b, back, before₁, behind₁, rfl, ?_, rfl, hb⟩
        rw [List.flatMap_cons, List.append_assoc]

theorem Cut.of_bracketed {xs : List Segment} {p q : Piece}
    (h : Cut (.piece p :: xs ++ [.piece q]) before s behind) :
    ∃ before' behind', before = .piece p :: before' ∧ behind = behind' ++ [.piece q]
      ∧ Cut xs before' s behind' := by
  obtain ⟨before', rfl, hxs⟩ := cut_piece.mp h
  rcases cut_append.mp hxs with ⟨behind', rfl, hcut⟩ | ⟨_, -, hq⟩
  · exact ⟨before', behind', rfl, rfl, hcut⟩
  · exact absurd hq (not_cut_pieces [q])

/-- A cut through the items of a tuple. -/
theorem Cut.of_tupleLayout {items : List Node} (h : Cut (Node.tupleLayout items) before s behind) :
    ∃ behind', behind = behind' ++ (Node.lastComma items).map .piece
      ∧ Cut (separated (items.map Node.itemLayout)) before s behind' := by
  rcases cut_append.mp h with hcut | ⟨_, -, hcomma⟩
  · exact hcut
  · exact absurd hcomma (not_cut_pieces _)

end

end CallSite
