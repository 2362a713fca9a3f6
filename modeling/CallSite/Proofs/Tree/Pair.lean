import CallSite.Proofs.Tree.Seating

/-!
# Pairs — the parentheses around operands

A part of a tree is found in the text by cuts, from the root down (`Node.Writes`).  Every
parenthesis that opens in front of an operand is that of a part which is written in parentheses
(`writes_of_groupStart`).  It closes behind the same part: what stands between the two is balanced,
and there is only one balanced text up to a parenthesis that closes (`writes_of_pair`).
-/

namespace CallSite

open Piece Segment Grammar

/-! ## Balanced pieces -/

namespace Piece

/-- Every parenthesis around an operand that opens among the pieces closes there, and the other way
    round. -/
inductive Balanced : List Piece → Prop
  | nil : Balanced []
  | cons {p : Piece} {ps : List Piece} :
      p ≠ .groupStart → p ≠ .groupEnd → Balanced ps → Balanced (p :: ps)
  | group {ps qs : List Piece} :
      Balanced ps → Balanced qs → Balanced (.groupStart :: (ps ++ .groupEnd :: qs))

variable {ps qs : List Piece}

/-- Pieces without such parentheses are balanced. -/
theorem balanced_plain (h : ∀ p ∈ ps, p ≠ .groupStart ∧ p ≠ .groupEnd) : Balanced ps := by
  induction ps with
  | nil => exact .nil
  | cons p ps ih =>
      obtain ⟨hstart, hend⟩ := h p List.mem_cons_self
      exact .cons hstart hend (ih fun q hq => h q (List.mem_cons_of_mem p hq))

theorem Balanced.append (hps : Balanced ps) (hqs : Balanced qs) : Balanced (ps ++ qs) := by
  induction hps with
  | nil => exact hqs
  | cons hstart hend _ ih => exact .cons hstart hend ih
  | @group inside ps hinside _ _ ih =>
      rw [List.cons_append, List.append_assoc]
      exact .group hinside ih

/-- A balanced text up to a parenthesis that closes is the only one. -/
theorem Balanced.unique (hps : Balanced ps) (hqs : Balanced qs) {rs rs' : List Piece}
    (h : ps ++ .groupEnd :: rs = qs ++ .groupEnd :: rs') : ps = qs ∧ rs = rs' := by
  induction hps generalizing qs rs rs' with
  | nil =>
      cases hqs with
      | nil => exact ⟨rfl, (List.cons.inj h).2⟩
      | cons _ hend _ => exact absurd (List.cons.inj h).1.symm hend
      | group _ _ => exact absurd (List.cons.inj h).1 nofun
  | cons hstart hend _ ih =>
      cases hqs with
      | nil => exact absurd (List.cons.inj h).1 hend
      | cons _ _ hqs =>
          obtain ⟨rfl, hmore⟩ := List.cons.inj h
          obtain ⟨hps, hrs⟩ := ih hqs hmore
          exact ⟨congrArg _ hps, hrs⟩
      | group _ _ => exact absurd (List.cons.inj h).1 hstart
  | group _ _ ihInside ihRest =>
      cases hqs with
      | nil => exact absurd (List.cons.inj h).1 nofun
      | cons hstart _ _ => exact absurd (List.cons.inj h).1.symm hstart
      | group hinside hrest =>
          have hmore := (List.cons.inj h).2
          rw [List.append_eq, List.append_eq, List.append_assoc, List.append_assoc] at hmore
          obtain ⟨rfl, hlast⟩ := ihInside hinside hmore
          obtain ⟨rfl, hrs⟩ := ihRest hrest hlast
          exact ⟨rfl, hrs⟩

end Piece

/-! ## Plain layouts -/

/-- The pieces of a layout are no parentheses around operands. -/
def Plain (xs : List Segment) : Prop :=
  ∀ p, .piece p ∈ xs → p ≠ .groupStart ∧ p ≠ .groupEnd

section

variable {xs ys : List Segment} {s : Slot}

theorem Plain.append (hxs : Plain xs) (hys : Plain ys) : Plain (xs ++ ys) := by
  intro p hp
  rcases List.mem_append.mp hp with hp | hp
  · exact hxs p hp
  · exact hys p hp

theorem Plain.part (hxs : Plain xs) : Plain (.part s :: xs) := by
  intro p hp
  rcases List.mem_cons.mp hp with hp | hp
  · exact absurd hp nofun
  · exact hxs p hp

/-- Tokens and blanks are plain. -/
theorem plain_pieces (ps : List Piece) (h : ∀ p ∈ ps, p ≠ .groupStart ∧ p ≠ .groupEnd) :
    Plain (ps.map .piece) := by
  intro p hp
  obtain ⟨q, hq, heq⟩ := List.mem_map.mp hp
  exact Segment.piece.inj heq ▸ h q hq

theorem plain_led {lead : List Piece} (h : ∀ p ∈ lead, p ≠ .groupStart ∧ p ≠ .groupEnd) :
    Plain (led lead s) := (plain_pieces _ h).append (Plain.part (fun _ hp => absurd hp List.not_mem_nil))

theorem plain_separated {rows : List (List Segment)} (h : ∀ row ∈ rows, Plain row) :
    Plain (separated rows) := by
  cases rows with
  | nil => exact fun _ hp => absurd hp List.not_mem_nil
  | cons row rows =>
      rw [separated_cons]
      refine (h row List.mem_cons_self).append fun p hp => ?_
      obtain ⟨row', hrow', hp⟩ := List.mem_flatMap.mp hp
      have hbetween : Plain between := plain_pieces [.mark .comma, .blank] (by decide)
      exact (hbetween.append (h row' (List.mem_cons_of_mem _ hrow'))) p hp

/-- Where a parenthesis opens in what is written, a part is written. -/
theorem cut_of_groupStart (hxs : Plain xs) {ps rest : List Piece}
    (h : written xs = ps ++ .groupStart :: rest) :
    ∃ before s behind ps' rest', Cut xs before s behind ∧ s.pieces = ps' ++ .groupStart :: rest'
      ∧ ps = written before ++ ps' ∧ rest = rest' ++ written behind := by
  induction xs generalizing ps with
  | nil => exact absurd h (by simp)
  | cons x xs ih =>
      have hplain : Plain xs := fun p hp => hxs p (List.mem_cons_of_mem x hp)
      cases x with
      | piece p =>
          cases ps with
          | nil =>
              have hstart : p = .groupStart := (List.cons.inj h).1
              exact absurd hstart (hxs p List.mem_cons_self).1
          | cons q ps =>
              obtain ⟨rfl, hrest⟩ := List.cons.inj h
              obtain ⟨before, s, behind, ps', rest', hcut, hs, rfl, rfl⟩ := ih hplain hrest
              exact ⟨.piece p :: before, s, behind, ps', rest', congrArg _ hcut, hs, rfl, rfl⟩
      | part s =>
          have hlater {ps' : List Piece} (hps : ps = s.pieces ++ ps')
              (hrest : written xs = ps' ++ .groupStart :: rest) :
              ∃ before s' behind ps' rest', Cut (.part s :: xs) before s' behind
                ∧ s'.pieces = ps' ++ .groupStart :: rest' ∧ ps = written before ++ ps'
                ∧ rest = rest' ++ written behind := by
            obtain ⟨before, s', behind, ps₁, rest', hcut, hs, rfl, rfl⟩ := ih hplain hrest
            refine ⟨.part s :: before, s', behind, ps₁, rest', congrArg _ hcut, hs, ?_, rfl⟩
            rw [hps, written_part, List.append_assoc]
          rcases List.append_eq_append_iff.mp h with ⟨ps', hps, hrest⟩ | ⟨mid, hs, hmid⟩
          · exact hlater hps hrest
          · cases mid with
            | nil =>
                rw [List.append_nil] at hs
                exact @hlater [] (hs.symm.trans (List.append_nil _).symm) hmid.symm
            | cons q mid =>
                obtain ⟨rfl, rfl⟩ := List.cons.inj hmid
                exact ⟨[], s, xs, ps, mid, rfl, hs, rfl, rfl⟩

/-- What is written is balanced if all its parts are. -/
theorem balanced_written (hxs : Plain xs) (hparts : ∀ s, .part s ∈ xs → Balanced s.pieces) :
    Balanced (written xs) := by
  induction xs with
  | nil => exact .nil
  | cons x xs ih =>
      have hrest := ih (fun p hp => hxs p (List.mem_cons_of_mem x hp))
        fun s hs => hparts s (List.mem_cons_of_mem x hs)
      cases x with
      | piece p =>
          obtain ⟨hstart, hend⟩ := hxs p List.mem_cons_self
          exact .cons hstart hend hrest
      | part s => exact (hparts s List.mem_cons_self).append hrest

end

theorem Slot.balanced_pieces {s : Slot} (h : Balanced s.node.pieces) : Balanced s.pieces := by
  rw [Slot.pieces_eq, Slot.opening, Slot.closing]
  split
  · exact .group h .nil
  · rwa [List.nil_append, List.append_nil]

namespace Node

/-- No node writes a parenthesis around an operand by itself. -/
theorem plain_layout (t : Node) : Plain t.layout := by
  have htoken (tok : Token) : Plain [.piece (.token tok)] :=
    plain_pieces [.token tok] (by simp)
  have hitems (items : List Node) : Plain (separated (items.map itemLayout)) := by
    refine plain_separated fun row hrow => ?_
    obtain ⟨item, -, rfl⟩ := List.mem_map.mp hrow
    refine plain_led fun p hp => ?_
    unfold star at hp
    split at hp
    · obtain rfl := List.mem_singleton.mp hp
      exact ⟨nofun, nofun⟩
    · exact absurd hp List.not_mem_nil
  have htuple (items : List Node) : Plain (tupleLayout items) := by
    refine (hitems items).append (plain_pieces _ fun p hp => ?_)
    unfold lastComma at hp
    split at hp
    · obtain rfl := List.mem_singleton.mp hp
      exact ⟨nofun, nofun⟩
    · exact absurd hp List.not_mem_nil
  have hbracket {xs : List Segment} (h : Plain xs) (m m' : Mark) :
      Plain (.piece (.mark m) :: xs ++ [.piece (.mark m')]) :=
    ((htoken (.mark m)).append h).append (htoken (.mark m'))
  have hbinary (op : BinaryOp) (s : Slot) : Plain (led op.pieces s) :=
    plain_led (by simp [BinaryOp.pieces])
  cases t with
  | name id => exact htoken _
  | constant value => exact htoken _
  | «attribute» value attr => exact ((htoken _).append (htoken _)).part
  | call site =>
      refine Plain.part (hbracket (plain_separated fun row hrow => ?_) _ _)
      obtain ⟨a, -, rfl⟩ := List.mem_map.mp hrow
      cases a <;> exact plain_led (by simp [Argument.lead, mark])
  | subscript value slice =>
      refine Plain.part (hbracket ?_ _ _)
      unfold sliceLayout
      split
      · exact htuple _
      · exact Plain.part fun _ hp => absurd hp List.not_mem_nil
  | list items => exact hbracket (hitems items) _ _
  | tuple items => exact hbracket (htuple items) _ _
  | dict entries =>
      refine hbracket (plain_separated fun row hrow => ?_) _ _
      obtain ⟨e, -, rfl⟩ := List.mem_map.mp hrow
      cases e with
      | item key value => exact Plain.part (plain_led (by simp [mark]))
      | unpacked value => exact plain_led (by simp [mark])
  | unary op operand => exact plain_led (by cases op <;> simp [UnaryOp.pieces])
  | binary left op right => exact Plain.part (hbinary op _)
  | compare left links =>
      refine Plain.part fun p hp => ?_
      obtain ⟨link, -, hp⟩ := List.mem_flatMap.mp hp
      exact hbinary link.op _ p hp
  | starred value => exact plain_led (by simp [mark])

/-! ## Parts of a tree -/

/-- A part is written somewhere in a tree, between these pieces. -/
inductive Writes (s : Slot) : List Piece → List Piece → Node → Prop
  | part {t : Node} {before behind : List Segment} :
      Cut t.layout before s behind → Writes s (written before) (written behind) t
  | inner {t : Node} {u : Slot} {before behind : List Segment} {ps qs : List Piece} :
      Cut t.layout before u behind → Writes s ps qs u.node →
      Writes s (written before ++ u.opening ++ ps) (qs ++ u.closing ++ written behind) t

variable {t : Node} {s : Slot} {ps qs : List Piece}

theorem pieces_of_cut {before behind : List Segment} (h : Cut t.layout before s behind) :
    t.pieces = written before ++ s.pieces ++ written behind := by
  rw [← written_layout, h, written_append, written_part, List.append_assoc]

/-- What is written around a part, and the part between. -/
theorem Writes.pieces_eq (h : t.Writes s ps qs) : t.pieces = ps ++ s.pieces ++ qs := by
  induction h with
  | part hcut => exact pieces_of_cut hcut
  | inner hcut _ ih =>
      rw [pieces_of_cut hcut, Slot.pieces_eq, ih]
      simp only [List.append_assoc]

/-- The parts of a lawful tree are lawful. -/
theorem Lawful.of_cut (ht : t.Lawful) {before behind : List Segment}
    (h : Cut t.layout before s behind) : s.node.Lawful := by
  rcases (seating_of_cut ht.fitting h).slot with hs | ⟨u, hu, hs⟩
  · exact ht.slot hs
  · exact (ht.slot hu).slot hs

theorem Lawful.of_writes (ht : t.Lawful) (h : t.Writes s ps qs) : s.node.Lawful := by
  induction h with
  | part hcut => exact ht.of_cut hcut
  | inner hcut _ ih => exact ih (ht.of_cut hcut)

theorem sizeOf_of_cut (ht : t.Lawful) {before behind : List Segment}
    (h : Cut t.layout before s behind) : sizeOf s.node < sizeOf t := by
  rcases (seating_of_cut ht.fitting h).slot with hs | ⟨u, hu, hs⟩
  · exact sizeOf_slot_lt hs
  · exact Nat.lt_trans (sizeOf_slot_lt hs) (sizeOf_slot_lt hu)

/-- A lawful tree is written with balanced parentheses. -/
theorem Lawful.balanced (t : Node) (ht : t.Lawful) : Balanced t.pieces := by
  rw [← written_layout]
  refine balanced_written (plain_layout t) fun s hs => ?_
  obtain ⟨before, behind, hcut⟩ := List.append_of_mem hs
  have hlt := sizeOf_of_cut ht hcut
  exact Slot.balanced_pieces (Lawful.balanced s.node (ht.of_cut hcut))
termination_by sizeOf t

/-- Where a parenthesis opens in front of an operand, a part is written in parentheses. -/
theorem Lawful.writes_of_groupStart (t : Node) (ht : t.Lawful) {ps rest : List Piece}
    (h : t.pieces = ps ++ .groupStart :: rest) :
    ∃ s qs, t.Writes s ps qs ∧ s.IsGrouped ∧ rest = s.node.pieces ++ .groupEnd :: qs := by
  rw [← written_layout] at h
  obtain ⟨before, s, behind, ps', rest', hcut, hs, rfl, rfl⟩ := cut_of_groupStart (plain_layout t) h
  have hlt := sizeOf_of_cut ht hcut
  -- a parenthesis inside the part belongs to one of its own parts
  have hinside {ps'' rest'' : List Piece} (hps : ps' = s.opening ++ ps'')
      (hpieces : s.node.pieces = ps'' ++ .groupStart :: rest'')
      (hrest : rest' = rest'' ++ s.closing) :
      ∃ u qs, t.Writes u (written before ++ ps') qs ∧ u.IsGrouped
        ∧ rest' ++ written behind = u.node.pieces ++ .groupEnd :: qs := by
    obtain ⟨u, qs, hwrites, hgrouped, rfl⟩ :=
      Lawful.writes_of_groupStart s.node (ht.of_cut hcut) hpieces
    refine ⟨u, qs ++ s.closing ++ written behind, ?_, hgrouped, ?_⟩
    · rw [hps, ← List.append_assoc]
      exact .inner hcut hwrites
    · rw [hrest]
      simp only [List.append_assoc, List.cons_append]
  rw [Slot.pieces_eq] at hs
  by_cases hgrouped : s.IsGrouped
  · have hopening : s.opening = [.groupStart] := if_pos hgrouped
    have hclosing : s.closing = [.groupEnd] := if_pos hgrouped
    rw [hopening, hclosing, List.append_assoc, List.singleton_append] at hs
    cases ps' with
    | nil =>
        obtain rfl : s.node.pieces ++ [.groupEnd] = rest' := (List.cons.inj hs).2
        refine ⟨s, written behind, ?_, hgrouped, by simp⟩
        rw [List.append_nil]
        exact .part hcut
    | cons p ps'' =>
        rw [List.cons_append] at hs
        obtain ⟨rfl, hmore⟩ := List.cons.inj hs
        -- the last piece is the parenthesis behind the part
        rcases List.eq_nil_or_concat rest' with rfl | ⟨rest'', last, rfl⟩
        · have hlast := (List.append_inj' hmore rfl).2
          exact absurd hlast nofun
        · rw [List.concat_eq_append, ← List.cons_append, ← List.append_assoc] at hmore
          obtain ⟨hpieces, hlast⟩ := List.append_inj' hmore rfl
          obtain rfl := (List.cons.inj hlast).1
          exact hinside (by rw [hopening]; rfl) hpieces (by rw [hclosing, List.concat_eq_append])
  · have hopening : s.opening = [] := if_neg hgrouped
    have hclosing : s.closing = [] := if_neg hgrouped
    rw [hopening, hclosing, List.append_nil] at hs
    exact hinside (by rw [hopening]; rfl) hs (by rw [hclosing, List.append_nil])
termination_by sizeOf t

/-- A pair of parentheses around an operand stands around a part that is written in parentheses. -/
theorem Lawful.writes_of_pair (ht : t.Lawful) {inside : List Piece} (hinside : Balanced inside)
    (h : t.pieces = ps ++ .groupStart :: (inside ++ .groupEnd :: qs)) :
    ∃ s, t.Writes s ps qs ∧ s.IsGrouped ∧ inside = s.node.pieces := by
  obtain ⟨s, qs', hwrites, hgrouped, hrest⟩ := Lawful.writes_of_groupStart t ht h
  have hbalanced := Lawful.balanced s.node (ht.of_writes hwrites)
  obtain ⟨rfl, rfl⟩ := hinside.unique hbalanced hrest
  exact ⟨s, hwrites, hgrouped, rfl⟩

end Node

end CallSite
