import CallSite.Proofs.Tree.Pair
import CallSite.Proofs.Tree.Stamp

/-!
# Imprint — the stamps of a tree in its own text

The stamps of a tree are those of its layout (`stamps_layout`), so a cut through the layout cuts them
too.  The text that is written for a tree has stamps of the same ranks (`Lawful.ranks`).  Together
they show where in the stamps of a tree the power stands behind which one of its parts is written
(`Lawful.stamps_of_writes`).
-/

namespace CallSite

open Piece Segment Grammar Stamp

/-! ## Stamps of layouts -/

/-- The stamps of a part: to the right of a power it is noted whether it is a sign. -/
def Slot.stamps (s : Slot) : List Stamp :=
  (if s.seat = .exponent then [.power s.node.isSign] else []) ++ s.node.stamps

theorem Slot.stamps_eq {s : Slot} (h : s.seat ≠ .exponent) : s.stamps = s.node.stamps := by
  rw [stamps, if_neg h, List.nil_append]

/-- The stamps of a layout that is written from a place on. -/
def Segment.stamps : Place → List Segment → List Stamp
  | _, [] => []
  | p, .piece q :: xs => p.stamps (tokens [q]) ++ stamps (p.behind (tokens [q])) xs
  | p, .part s :: xs => s.stamps ++ stamps (p.behind s.tokens) xs

namespace Place

variable {p : Place} {ts us : List Token}

theorem behind_append : p.behind (ts ++ us) = (p.behind ts).behind us := List.foldl_append ..

/-- In front of a text it does not matter whether a power stands there. -/
theorem behind_opened (hp : p ≠ .closed) (hts : ts ≠ []) : p.behind ts = opened.behind ts := by
  cases ts with
  | nil => exact absurd rfl hts
  | cons tok ts =>
      have hafter : p.after tok = opened.after tok := by
        simp [after, hp]
      show (p.after tok).behind ts = (opened.after tok).behind ts
      rw [hafter]

end Place

namespace Segment

variable {p : Place} {xs ys : List Segment}

@[simp] theorem stamps_nil : Segment.stamps p [] = [] := rfl

theorem stamps_append :
    Segment.stamps p (xs ++ ys)
      = Segment.stamps p xs ++ Segment.stamps (p.behind (tokens (written xs))) ys := by
  induction xs generalizing p with
  | nil => rfl
  | cons x xs ih =>
      cases x with
      | piece q =>
          have hwritten : tokens (written (.piece q :: xs)) = tokens [q] ++ tokens (written xs) := by
            rw [← tokens_append]
            rfl
          rw [List.cons_append, stamps, stamps, ih, hwritten, Place.behind_append, List.append_assoc]
      | part s =>
          have hwritten : tokens (written (.part s :: xs)) = s.tokens ++ tokens (written xs) :=
            tokens_append ..
          rw [List.cons_append, stamps, stamps, ih, hwritten, Place.behind_append, List.append_assoc]

theorem stamps_pieces (ps : List Piece) :
    Segment.stamps p (ps.map .piece) = p.stamps (tokens ps) := by
  induction ps generalizing p with
  | nil => rfl
  | cons q ps ih =>
      have hsplit : tokens (q :: ps) = tokens [q] ++ tokens ps := tokens_append [q] ps
      rw [List.map_cons, stamps, ih, hsplit, Place.stamps_append]

theorem stamps_led (lead : List Piece) (s : Slot) :
    Segment.stamps p (led lead s) = p.stamps (tokens lead) ++ s.stamps := by
  rw [led, stamps_append, stamps_pieces]
  exact congrArg (_ ++ ·) (List.append_nil _)

/-- The brackets around a layout are not noted. -/
theorem stamps_bracketed (m m' : Mark) (hm : Place.isSilent m = true)
    (hm' : Token.ends (.mark m') = true) (hp : p ≠ .power)
    (hxs : Place.opened.behind (tokens (written xs)) ≠ .power) :
    Segment.stamps p (.piece (mark m) :: xs ++ [.piece (mark m')]) = Segment.stamps .opened xs := by
  have hopen : p.stamps [.mark m] = [] := Place.stamps_silent m hm hp
  have hclose : (Place.opened.behind (tokens (written xs))).stamps [.mark m'] = [] :=
    @Place.stamps_close _ [] m' hm' hxs
  have hbehind : p.behind [.mark m] = .opened := by
    cases m <;> first
      | exact absurd hm (by decide)
      | simp [Place.behind, Place.after, Token.ends]
  rw [List.cons_append, stamps]
  show p.stamps [.mark m] ++ Segment.stamps (p.behind [.mark m]) _ = _
  rw [hopen, hbehind, List.nil_append, stamps_append, stamps]
  show _ ++ ((Place.opened.behind (tokens (written xs))).stamps [.mark m'] ++ []) = _
  rw [hclose, List.append_nil, List.append_nil]

section

variable {α : Type} {layout : α → List Segment} {f : α → List Stamp} {as : List α}

/-- Rows behind the first are noted one by one. -/
theorem stamps_rows
    (h : ∀ a ∈ as, Closes (tokens (written (layout a))) ∧ Segment.stamps .opened (layout a) = f a) :
    Segment.stamps .closed (as.flatMap fun a => between ++ layout a) = as.flatMap f
      ∧ Place.closed.behind (tokens (written (as.flatMap fun a => between ++ layout a))) = .closed := by
  induction as with
  | nil => exact ⟨rfl, rfl⟩
  | cons a as ih =>
      obtain ⟨ihStamps, ihPlace⟩ := ih fun b hb => h b (List.mem_cons_of_mem a hb)
      obtain ⟨hcloses, hstamps⟩ := h a List.mem_cons_self
      have hrow : Place.closed.behind (tokens (written (between ++ layout a))) = .closed := by
        rw [written_append, tokens_append, hcloses.append.behind]
      rw [List.flatMap_cons, List.flatMap_cons]
      constructor
      · rw [stamps_append, hrow, ihStamps, stamps_append]
        exact congrArg (· ++ _) hstamps
      · rw [written_append, tokens_append, Place.behind_append, hrow, ihPlace]

/-- Rows with commas between them are noted one by one. -/
theorem stamps_separated
    (h : ∀ a ∈ as, Closes (tokens (written (layout a))) ∧ Segment.stamps .opened (layout a) = f a) :
    Segment.stamps .opened (separated (as.map layout)) = as.flatMap f
      ∧ Place.opened.behind (tokens (written (separated (as.map layout)))) ≠ .power := by
  cases as with
  | nil => exact ⟨rfl, nofun⟩
  | cons a as =>
      obtain ⟨hcloses, hstamps⟩ := h a List.mem_cons_self
      obtain ⟨hrows, hplace⟩ := stamps_rows fun b hb => h b (List.mem_cons_of_mem a hb)
      rw [List.map_cons, separated_cons, List.flatMap_map, List.flatMap_cons]
      constructor
      · rw [stamps_append, hcloses.behind, hstamps]
        exact congrArg (_ ++ ·) hrows
      · rw [written_append, tokens_append, Place.behind_append, hcloses.behind]
        rw [hplace]
        exact nofun

end

end Segment

namespace Node

variable {t : Node}

/-! ## Stamps of nodes part by part -/

theorem stamps_itemLayout (t : Node) : Segment.stamps .opened t.itemLayout = t.stamps := by
  rw [itemLayout, stamps_led]
  cases t with
  | starred v => rw [stamps]; rfl
  | _ => rfl

theorem stamps_entryLayout {e : Entry Node} (h : ∀ s ∈ entrySlots e, s.node.Lawful) :
    Segment.stamps .opened (entryLayout e) = entryStamps e := by
  cases e with
  | item key value =>
      have hkey := closes_slotTokens (h key.inside List.mem_cons_self).closes
      rw [entryLayout, Segment.stamps, hkey.behind, stamps_led]
      rfl
  | unpacked value =>
      rw [entryLayout, stamps_led]
      rfl

theorem stamps_argumentLayout (a : Argument) : Segment.stamps .opened a.layout = a.stamps := by
  rw [Argument.layout, stamps_led]
  cases a <;> rfl

/-- The arguments of a call are noted in the order in which they are written. -/
theorem stamps_arguments (site : Call Node) :
    site.arguments.flatMap Argument.stamps
      = stampsOfEach site.args ++ stampsOfKeywords site.keywords := by
  rw [Call.arguments, List.flatMap_append, List.flatMap_map, List.flatMap_map, stampsOfEach_eq,
    stampsOfKeywords_eq]
  refine congrArg₂ (· ++ ·) (List.flatMap_congr fun arg _ => ?_) (List.flatMap_congr fun k _ => ?_)
  · cases arg with
    | starred v => rw [stamps]; rfl
    | _ => rfl
  · cases k <;> rfl

/-- The items of a list or a tuple are noted one by one. -/
theorem stamps_items (items : List Node) (h : ∀ s ∈ items.map itemSlot, s.node.Lawful) :
    Segment.stamps .opened (separated (items.map itemLayout)) = stampsOfEach items
      ∧ Place.opened.behind (Piece.tokens (written (separated (items.map itemLayout)))) ≠ .power := by
  rw [stampsOfEach_eq]
  refine stamps_separated fun t ht => ⟨?_, stamps_itemLayout t⟩
  rw [written_itemLayout]
  exact closes_items items h t ht

theorem stamps_tupleLayout (items : List Node) (h : ∀ s ∈ items.map itemSlot, s.node.Lawful) :
    Segment.stamps .opened (tupleLayout items) = stampsOfEach items
      ∧ Place.opened.behind (Piece.tokens (written (tupleLayout items))) ≠ .power := by
  obtain ⟨hitems, hplace⟩ := stamps_items items h
  rw [tupleLayout, stamps_append, stamps_pieces, written_append, tokens_append, hitems,
    Place.behind_append, written_map_piece, lastComma]
  generalize Place.opened.behind (Piece.tokens (written (separated (items.map itemLayout)))) = p at hplace
  split
  · exact ⟨by rw [tokens_mark, tokens_nil, Place.stamps_silent .comma rfl hplace]; simp,
      by cases p <;> simp [Place.behind, Place.after, Token.ends]⟩
  · exact ⟨List.append_nil _, hplace⟩

theorem stamps_sliceLayout (slice : Node) (h : ∀ s ∈ slice.sliceSlots, s.node.Lawful) :
    Segment.stamps .opened slice.sliceLayout = slice.stamps
      ∧ Place.opened.behind (Piece.tokens (written slice.sliceLayout)) ≠ .power := by
  have hwhole (hslice : slice.Lawful) :
      Segment.stamps .opened [.part slice.inside] = slice.stamps
        ∧ Place.opened.behind (Piece.tokens (written [.part slice.inside])) ≠ .power := by
    refine ⟨(List.append_nil _).trans rfl, ?_⟩
    rw [written_part, written_nil, List.append_nil]
    rw [show Piece.tokens slice.inside.pieces = slice.inside.tokens from rfl,
      (closes_slotTokens (s := slice.inside) hslice.closes).behind]
    exact nofun
  cases slice with
  | tuple items =>
      cases items with
      | nil => exact hwhole (h _ (List.mem_singleton_self _))
      | cons item items =>
          have hitems : ∀ s ∈ (item :: items).map itemSlot, s.node.Lawful := by
            intro s hs
            rcases sliceSlots_cases (.tuple (item :: items)) with hslots | hslots
            · have htuple := h (inside (.tuple (item :: items))) (hslots ▸ List.mem_singleton_self _)
              exact htuple.slot hs
            · exact h s (hslots ▸ hs)
          rw [stamps]
          exact stamps_tupleLayout _ hitems
  | _ => exact hwhole (h _ (List.mem_singleton_self _))

theorem stamps_links (links : List (Link Node)) (h : ∀ link ∈ links, link.operand.Lawful
    ∧ link.op.isRightAssoc = false) :
    Segment.stamps .closed (links.flatMap fun link => led link.op.pieces ⟨.operand 5, link.operand⟩)
      = stampsOfLinks links := by
  induction links with
  | nil => rfl
  | cons link links ih =>
      obtain ⟨hlink, hassoc⟩ := h link List.mem_cons_self
      have hcloses : Closes (Piece.tokens (written (led link.op.pieces ⟨.operand 5, link.operand⟩))) := by
        rw [written_led, tokens_append]
        exact (closes_slotTokens (s := ⟨.operand 5, link.operand⟩) hlink.closes).append
      have hop : Place.closed.stamps [link.op.token] = [] := by
        rw [Place.stamps_binary, hassoc]
        rfl
      rw [List.flatMap_cons, stamps_append, hcloses.behind,
        ih fun l hl => h l (List.mem_cons_of_mem _ hl), stamps_led, Piece.tokens_binary, hop]
      rfl

/-- The stamps of a tree are those of its layout. -/
theorem stamps_layout (ht : t.Lawful) : Segment.stamps .opened t.layout = t.stamps := by
  have hslot {s : Slot} (hs : s ∈ t.slots) (p : Place) : p.behind s.tokens = .closed :=
    (closes_slotTokens (ht.slot hs).closes).behind p
  cases t with
  | name id =>
      rw [stamps]
      rfl
  | constant value =>
      rw [stamps]
      exact (stamps_pieces [.token value.token]).trans (Place.stamps_constant value)
  | «attribute» value attr =>
      rw [layout, Segment.stamps, hslot List.mem_cons_self, stamps]
      exact List.append_nil _
  | call site =>
      obtain ⟨func, args, keywords⟩ := site
      have hargs : ∀ a ∈ (Call.mk func args keywords).arguments,
          Closes (Piece.tokens (written a.layout))
            ∧ Segment.stamps .opened a.layout = a.stamps := by
        intro a ha
        have hmem := List.mem_cons_of_mem ⟨.base, func⟩ (mem_slots_of_argument ha)
        refine ⟨?_, stamps_argumentLayout a⟩
        rw [Argument.layout, written_led, tokens_append]
        exact (closes_slotTokens (ht.slot hmem).closes).append
      obtain ⟨hrows, hplace⟩ := stamps_separated hargs
      rw [layout, List.cons_append, Segment.stamps, hslot List.mem_cons_self, stamps]
      refine congrArg (func.stamps ++ ·) ?_
      rw [← stamps_arguments ⟨func, args, keywords⟩, ← hrows]
      exact stamps_bracketed .leftParen .rightParen rfl rfl (by decide) hplace
  | subscript value slice =>
      obtain ⟨hslice, hplace⟩ := stamps_sliceLayout slice
        fun s hs => ht.slot (List.mem_cons_of_mem _ hs)
      rw [layout, List.cons_append, Segment.stamps, hslot List.mem_cons_self, stamps]
      refine congrArg (value.stamps ++ ·) ?_
      rw [← hslice]
      exact stamps_bracketed .leftBracket .rightBracket rfl rfl (by decide) hplace
  | list items =>
      obtain ⟨hitems, hplace⟩ := stamps_items items fun _ => ht.slot
      rw [layout, stamps, ← hitems]
      exact stamps_bracketed .leftBracket .rightBracket rfl rfl (by decide) hplace
  | tuple items =>
      obtain ⟨hitems, hplace⟩ := stamps_tupleLayout items fun _ => ht.slot
      rw [layout, stamps, ← hitems]
      exact stamps_bracketed .leftParen .rightParen rfl rfl (by decide) hplace
  | dict entries =>
      have hentry {e : Entry Node} (he : e ∈ entries) : ∀ s ∈ entrySlots e, s.node.Lawful :=
        fun s hs => ht.slot (List.mem_flatMap.mpr ⟨e, he, hs⟩)
      have hentries : ∀ e ∈ entries, Closes (Piece.tokens (written (entryLayout e)))
          ∧ Segment.stamps .opened (entryLayout e) = entryStamps e := by
        intro e he
        refine ⟨?_, stamps_entryLayout (hentry he)⟩
        rw [written_entryLayout]
        exact closes_entry fun s hs => (hentry he s hs).closes
      obtain ⟨hrows, hplace⟩ := stamps_separated hentries
      rw [layout, stamps, stampsOfEntries_eq, ← hrows]
      exact stamps_bracketed .leftBrace .rightBrace rfl rfl (by decide) hplace
  | unary op operand =>
      rw [layout, stamps_led, Piece.tokens_unary, Place.stamps_unary, stamps]
      rfl
  | binary left op right =>
      have hleft : leftSeat op ≠ .exponent := by
        cases op <;> decide
      rw [layout, Segment.stamps, hslot List.mem_cons_self, stamps_led, Piece.tokens_binary, stamps,
        Slot.stamps_eq (s := ⟨leftSeat op, left⟩) hleft, List.append_assoc]
      refine congrArg (left.stamps ++ ·) ?_
      cases op <;> rfl
  | compare left links =>
      have hlink (link : Link Node) (hlink : link ∈ links) :
          link.operand.Lawful ∧ link.op.isRightAssoc = false :=
        ⟨ht.slot (List.mem_cons_of_mem _ (List.mem_map.mpr ⟨link, hlink, rfl⟩)),
          BinaryOp.not_rightAssoc_of_comparison (ht.fitting.2 link hlink)⟩
      rw [layout, Segment.stamps, hslot List.mem_cons_self, stamps_links links hlink, stamps]
      rfl
  | starred value => exact ht.fitting.elim

/-! ## Parts and what is written for them -/

variable {s : Slot} {before behind : List Segment}

/-- A part stands where its seat says. -/
theorem Lawful.place_of_cut (ht : t.Lawful) (h : Cut t.layout before s behind) :
    Place.opened.behind (Piece.tokens (written before)) = s.seat.place := by
  rcases (seating_of_cut ht.fitting h).opening with ⟨hseat, hopening⟩ | ⟨left, rfl, hseat, rfl⟩
  · rw [hopening.place, hseat]
  · have hleft : Closes (Slot.tokens ⟨.base, left⟩) :=
      closes_slotTokens (ht.slot List.mem_cons_self).closes
    rw [hseat, written_part, written_map_piece, tokens_append, Place.behind_append]
    show Place.behind (Place.opened.behind (Slot.tokens ⟨.base, left⟩)) _ = _
    rw [hleft.behind]
    rfl

/-- The parentheses around a part are not noted. -/
theorem stamps_opened_slot (hs : s.node.Lawful) :
    Place.opened.stamps s.tokens = Place.opened.stamps s.node.tokens := by
  rw [Slot.tokens, Slot.pieces_eq, Slot.opening, Slot.closing]
  split
  · rw [tokens_append, tokens_append]
    show Place.opened.stamps (.mark .leftParen :: s.node.tokens ++ [.mark .rightParen]) = _
    rw [List.cons_append, Place.stamps_silent (p := .opened) .leftParen rfl (by decide),
      Place.stamps_close .rightParen rfl]
    rw [hs.closes.behind]
    decide
  · rw [List.nil_append, List.append_nil]
    rfl

/-- Where a part begins, its stamps have the ranks that are found in the text. -/
theorem ranks_seated {ts : List Token} (hts : ts ≠ []) (seat : Seat) (signed : Bool) :
    (seat.place.stamps ts).map rank
      = (if seat = .exponent then [.power signed] else []).map rank
        ++ (Place.opened.stamps ts).map rank := by
  cases seat with
  | exponent =>
      cases ts with
      | nil => exact absurd rfl hts
      | cons tok ts =>
          show (Place.power.stamps (tok :: ts)).map rank = _
          rw [Place.stamps_power]
          rfl
  | _ => rfl

theorem ranks_slot (hs : s.node.Lawful)
    (h : (Place.opened.stamps s.node.tokens).map rank = s.node.stamps.map rank) :
    (s.seat.place.stamps s.tokens).map rank = s.stamps.map rank := by
  have hne : s.tokens ≠ [] := by
    obtain ⟨init, tok, htokens, -⟩ := closes_slotTokens hs.closes
    rw [htokens]
    exact List.append_ne_nil_of_right_ne_nil _ (List.cons_ne_nil _ _)
  rw [ranks_seated hne s.seat s.node.isSign, stamps_opened_slot hs, h, ← List.map_append]
  rfl

/-- A layout is written with stamps of the same ranks if its parts are. -/
theorem ranks_written {p : Place} {xs : List Segment}
    (h : ∀ before s behind, Cut xs before s behind →
      ((p.behind (Piece.tokens (written before))).stamps s.tokens).map rank = s.stamps.map rank) :
    (p.stamps (Piece.tokens (written xs))).map rank = (Segment.stamps p xs).map rank := by
  induction xs generalizing p with
  | nil => rfl
  | cons x xs ih =>
      have hrest : ∀ before s behind, Cut xs before s behind →
          (((p.behind (Piece.tokens x.pieces)).behind (Piece.tokens (written before))).stamps
            s.tokens).map rank = s.stamps.map rank := by
        intro before s behind hcut
        have hcons := h (x :: before) s behind (congrArg (x :: ·) hcut)
        have hsplit : Piece.tokens (written (x :: before))
            = Piece.tokens x.pieces ++ Piece.tokens (written before) := tokens_append ..
        rwa [hsplit, Place.behind_append] at hcons
      have hsplit : Piece.tokens (written (x :: xs))
          = Piece.tokens x.pieces ++ Piece.tokens (written xs) := tokens_append ..
      rw [hsplit, Place.stamps_append, List.map_append, ih hrest]
      cases x with
      | piece q => exact (List.map_append ..).symm
      | part s =>
          have hs := h [] s xs rfl
          rw [Segment.stamps, List.map_append]
          exact congrArg (· ++ _) hs

/-- A tree is written with stamps of the same ranks. -/
theorem Lawful.ranks (t : Node) (ht : t.Lawful) :
    (Place.opened.stamps t.tokens).map rank = t.stamps.map rank := by
  rw [← stamps_layout ht, tokens, ← written_layout]
  refine ranks_written fun before s behind hcut => ?_
  have hlt := sizeOf_of_cut ht hcut
  rw [ht.place_of_cut hcut]
  exact ranks_slot (ht.of_cut hcut) (Lawful.ranks s.node (ht.of_cut hcut))
termination_by sizeOf t

/-- What is written in front of a part has stamps of the same ranks. -/
theorem Lawful.ranks_before (ht : t.Lawful) (h : Cut t.layout before s behind) :
    (Place.opened.stamps (Piece.tokens (written before))).map rank
      = (Segment.stamps .opened before).map rank := by
  refine ranks_written fun before' u behind' hcut => ?_
  have hcut' : Cut t.layout before' u (behind' ++ .part s :: behind) := by
    rw [Cut, h, show before = _ from hcut, List.append_assoc]
    rfl
  rw [ht.place_of_cut hcut']
  exact ranks_slot (ht.of_cut hcut') (Lawful.ranks u.node (ht.of_cut hcut'))

/-- A cut through the layout of a tree cuts its stamps. -/
theorem Lawful.stamps_of_cut (ht : t.Lawful) (h : Cut t.layout before s behind) :
    ∃ cs, t.stamps = Segment.stamps .opened before ++ (s.stamps ++ cs) := by
  rw [← stamps_layout ht, h, stamps_append]
  exact ⟨_, rfl⟩

/-- What is written without parentheses to the right of a power is no sign. -/
theorem isSign_of_ungrouped (hseat : s.seat = .exponent) (h : ¬ s.IsGrouped) :
    s.node.isSign = false := by
  have hlevel : 12 ≤ s.node.precedence := by
    refine Nat.le_of_not_lt fun hlt => h ⟨?_, ?_⟩ <;> rw [hseat]
    · exact nofun
    · exact hlt
  cases hnode : s.node with
  | unary op operand =>
      rw [hnode] at hlevel
      exact absurd op.precedence_le (Nat.not_le.mpr hlevel)
  | _ => rfl

/-- Behind a part's own parenthesis, if it has one, its text begins. -/
theorem place_opening (s : Slot) :
    s.seat.place.behind (Piece.tokens s.opening) = if s.IsGrouped then .opened else s.seat.place := by
  unfold Slot.opening
  split
  · cases hseat : s.seat <;> rfl
  · rfl

/-- A sign to the right of a power is written between these pieces. -/
def WritesSign (t : Node) (ps qs : List Piece) : Prop :=
  ∃ op operand, op ≠ .not ∧ t.Writes ⟨.exponent, .unary op operand⟩ ps qs

/-- Where a part is written directly behind a power, that power is found in the stamps of the tree;
    it notes no sign, unless the part itself is one and stands to the right of the power. -/
theorem Lawful.stamps_of_writes (ht : t.Lawful) {ps qs : List Piece} (h : t.Writes s ps qs)
    (hplace : Place.opened.behind (Piece.tokens ps) = .power)
    (hsign : ¬ t.WritesSign ps qs) :
    ∃ as bs, t.stamps = as ++ .power false :: bs
      ∧ (Place.opened.stamps (Piece.tokens ps)).map rank = as.map rank := by
  induction h with
  | @part t before behind hcut =>
      rw [ht.place_of_cut hcut] at hplace
      obtain ⟨seat, node⟩ := s
      obtain rfl : seat = .exponent := by
        cases seat with
        | exponent => rfl
        | _ => exact absurd hplace nofun
      have hnode : node.isSign = false := by
        cases node with
        | unary op operand =>
            refine decide_eq_false fun hop => hsign ⟨op, operand, hop, .part hcut⟩
        | _ => rfl
      obtain ⟨cs, hcs⟩ := ht.stamps_of_cut hcut
      rw [Slot.stamps, if_pos rfl, hnode] at hcs
      exact ⟨_, _, hcs, ht.ranks_before hcut⟩
  | @inner t u before behind ps qs hcut hwrites ih =>
      obtain ⟨cs, hcs⟩ := ht.stamps_of_cut hcut
      rw [tokens_append, tokens_append, Place.behind_append, Place.behind_append,
        ht.place_of_cut hcut] at hplace
      rw [tokens_append, tokens_append, List.append_assoc, Place.stamps_append,
        ht.place_of_cut hcut, List.map_append, ht.ranks_before hcut]
      by_cases hps : Piece.tokens ps = []
      · -- the part begins what stands to the right of the power, without parentheses
        rw [hps] at hplace ⊢
        have hplace : u.seat.place.behind (Piece.tokens u.opening) = .power := hplace
        rw [place_opening] at hplace
        by_cases hgrouped : u.IsGrouped
        · rw [if_pos hgrouped] at hplace
          exact absurd hplace nofun
        · rw [if_neg hgrouped] at hplace
          have hseat : u.seat = .exponent := by
            cases hu : u.seat with
            | exponent => rfl
            | _ =>
                rw [hu] at hplace
                exact absurd hplace nofun
          have hopening : u.opening = [] := if_neg hgrouped
          rw [Slot.stamps, if_pos hseat, isSign_of_ungrouped hseat hgrouped] at hcs
          refine ⟨_, _, hcs, ?_⟩
          rw [hopening]
          exact List.append_nil _
      · have hne : u.seat.place.behind (Piece.tokens u.opening) ≠ .closed := by
          rw [place_opening]
          split
          · exact nofun
          · cases u.seat <;> exact nofun
        rw [Place.behind_opened hne hps] at hplace
        obtain ⟨as, bs, hstamps, hranks⟩ := ih (ht.of_cut hcut) hplace
          fun ⟨op, operand, hop, hw⟩ => hsign ⟨op, operand, hop, .inner hcut hw⟩
        have hopened : Place.opened.stamps (Piece.tokens u.opening ++ Piece.tokens ps)
            = Place.opened.stamps (Piece.tokens ps) := by
          unfold Slot.opening
          split
          · exact Place.stamps_silent (p := .opened) .leftParen rfl nofun
          · rfl
        refine ⟨Segment.stamps .opened before
          ++ ((if u.seat = .exponent then [.power u.node.isSign] else []) ++ as), bs ++ cs, ?_, ?_⟩
        · rw [hcs, Slot.stamps, hstamps]
          simp only [List.append_assoc, List.cons_append]
        · rw [ranks_seated (List.append_ne_nil_of_right_ne_nil _ hps) u.seat u.node.isSign, hopened,
            hranks, List.map_append, List.map_append]

end Node

end CallSite
