import CallSite.Proofs.Grammar.Bracket
import CallSite.Proofs.Tree.Toll

/-!
# Derivations — what a text says about the tree it stands for

A text of a tree either puts the whole of it in parentheses or spells it out part by part, each
part in the seat of its slot (`Phrase.invert`).  From this comes an induction on derivations that
goes from slot to slot (`Seat.text_induction`).  It shows that the operators of a derived tree
are in order (`Lawful`), that the tree nests less deep than its derivation (`nesting_lt`), and that
its text pays for the tree (`toll_le`): no text of a tree has fewer parentheses than are needed.
-/

namespace CallSite

open Grammar

/-! ## Operators that fit -/

/-- Comparisons are chains with links, and no other node holds them. -/
def Node.Fitting : Node → Prop
  | .binary _ op _ => op.isComparison = false
  | .compare _ links => links ≠ [] ∧ ∀ link ∈ links, link.op.isComparison = true
  | .starred _ => False
  | _ => True

/-- A chain binds like its comparisons. -/
theorem Node.Fitting.precedence_compare {left : Node} {links : List (Link Node)}
    (h : (Node.compare left links).Fitting) : (Node.compare left links).precedence = 4 := by
  cases links with
  | nil => exact absurd rfl h.1
  | cons link links => exact BinaryOp.precedence_eq_four.mpr (h.2 link List.mem_cons_self)

/-- Every node of a tree fits. -/
inductive Node.Lawful : Node → Prop where
  | mk {t : Node} : t.Fitting → (∀ s ∈ t.slots, s.node.Lawful) → t.Lawful

/-! ## Texts of slots -/

/-- The texts of a part in a seat, where nested operands are taken from `inner`. -/
def Seat.Text (inner : Nat → Language Node) : Seat → Language Node
  | .base => Postfix inner
  | .operand level => Phrase inner level
  | .exponent => Phrase inner 11
  | .nested level => inner level

/-- A tree is spelled out part by part: the text pays for the node itself and for what each part
    costs at the least. -/
structure Direct (inner : Nat → Language Node) (ts : List Token) (t : Node) : Prop where
  fitting : t.Fitting
  texts : ∀ s ∈ t.slots, ∃ us, s.seat.Text inner us s.node
  pays : ∀ (σ : Toll) (least : Slot → Nat),
    (∀ s ∈ t.slots, ∀ us, s.seat.Text inner us s.node → least s ≤ σ.cost s.seat.place us) →
    t.own σ + (t.slots.map least).sum ≤ σ.cost .opened ts
  signed : ∀ op u, t = .unary op u → ts.head? = some op.token

/-- A tree stands in parentheses. -/
def Grouped (inner : Nat → Language Node) (ts : List Token) (t : Node) : Prop :=
  ∃ us, ts = .mark .leftParen :: us ++ [.mark .rightParen] ∧ inner 0 us t

/-- A text pays for these slots and spells them out. -/
structure Covers (inner : Nat → Language Node) (ts : List Token) (slots : List Slot) : Prop where
  texts : ∀ s ∈ slots, ∃ us, s.seat.Text inner us s.node
  pays : ∀ (σ : Toll) (least : Slot → Nat),
    (∀ s ∈ slots, ∀ us, s.seat.Text inner us s.node → least s ≤ σ.cost s.seat.place us) →
    (slots.map least).sum ≤ σ.cost .opened ts

/-- What is known of nested operands: their texts end them, none of them is starred, and as slices
    they cover what is written between the brackets. -/
structure Operands (inner : Nat → Language Node) : Prop where
  closes : ∀ {p ts t}, inner p ts t → Closes ts
  unstarred : ∀ {p ts t}, inner p ts t → t.isStarred = false
  slice : ∀ {ts t}, inner 0 ts t → Covers inner ts t.sliceSlots

/-! ## Texts end operands -/

namespace Grammar

variable {inner : Nat → Language Node}

theorem Atom.closes {ts : List Token} {t : Node} (h : Atom inner ts t) : Closes ts := by
  cases h with
  | name id => exact closes_singleton rfl
  | constant value _ =>
      refine closes_singleton ?_
      cases value with
      | bool b => cases b <;> rfl
      | _ => rfl
  | texts parts hparts =>
      obtain ⟨init, last, rfl⟩ : ∃ init last, parts = init ++ [last] :=
        ⟨_, _, (List.dropLast_concat_getLast hparts).symm⟩
      rw [List.map_append]
      exact closes_concat rfl
  | unit => exact (closes_singleton rfl).cons
  | group _ | tuple _ _ | list _ | dict _ => exact closes_concat rfl

theorem Postfix.closes {ts : List Token} {t : Node} (h : Postfix inner ts t) : Closes ts := by
  cases h with
  | atom ht => exact Atom.closes ht
  | member attr _ => exact (closes_singleton rfl).cons.append
  | call _ _ | subscript _ _ => exact closes_concat rfl

theorem Phrase.closes (F : Operands inner) {p : Nat} {ts : List Token} {t : Node}
    (h : Phrase inner p ts t) : Closes ts := by
  induction h with
  | operand ht => exact Postfix.closes ht
  | power _ _ ih => exact ih.cons.append
  | unary op ht => exact (F.closes ht).cons
  | binary op _ _ _ _ _ ih => exact ih.cons.append
  | compare steps _ hne _ _ _ ih =>
      obtain ⟨init, last, rfl⟩ : ∃ init last, steps = init ++ [last] :=
        ⟨_, _, (List.dropLast_concat_getLast hne).symm⟩
      rw [List.flatMap_append, List.flatMap_cons, List.flatMap_nil, List.append_nil]
      have hlast := ih last (List.mem_append_right _ (List.mem_singleton_self last))
      exact hlast.cons.append.append
  | tighter _ _ ih => exact ih

theorem Phrase.isStarred (F : Operands inner) {p : Nat} {ts : List Token} {t : Node}
    (h : Phrase inner p ts t) : t.isStarred = false := by
  have hall := Phrase.unstarred (fun p ts t ht v hv => by
    have := F.unstarred ht
    rw [hv] at this
    exact absurd this nofun) h
  cases t with
  | starred v => exact absurd rfl (hall v)
  | _ => rfl

/-! ## Rows pay for their items -/

theorem Row.text_of_mem {α : Type} {item : Language α} {ts : List Token} {as : List α}
    (h : Row item ts as) {a : α} (ha : a ∈ as) : ∃ us, item us a := by
  induction h with
  | none => cases ha
  | last hb =>
      obtain rfl := List.mem_singleton.mp ha
      exact ⟨_, hb⟩
  | more hb _ ih =>
      rcases List.mem_cons.mp ha with rfl | ha
      · exact ⟨_, hb⟩
      · exact ih ha

/-- A row pays for each of its items, and nothing for the commas. -/
theorem Row.pays {α : Type} {item : Language α} {ts : List Token} {as : List α}
    (h : Row item ts as) (σ : Toll) (least : α → Nat)
    (hitem : ∀ {ts a}, a ∈ as → item ts a → Closes ts ∧ least a ≤ σ.cost .opened ts) :
    (as.map least).sum ≤ σ.cost .opened ts := by
  induction h with
  | none => exact Nat.le_refl _
  | last ha => simpa using (hitem List.mem_cons_self ha).2
  | @more ts us a as ha _ ih =>
      obtain ⟨hcloses, hle⟩ := hitem List.mem_cons_self ha
      have hrest := ih fun ha' => hitem (List.mem_cons_of_mem a ha')
      rw [Toll.cost_closes hcloses, Toll.cost_separator rfl, List.map_cons, List.sum_cons]
      exact Nat.add_le_add hle hrest

theorem sum_map_flatMap {α β : Type} (least : β → Nat) (f : α → List β) (as : List α) :
    ((as.flatMap f).map least).sum = (as.map fun a => ((f a).map least).sum).sum := by
  induction as with
  | nil => rfl
  | cons a as ih =>
      rw [List.flatMap_cons, List.map_append, List.sum_append, ih, List.map_cons, List.sum_cons]

theorem covers_nil : Covers inner [] [] := ⟨nofun, fun _ _ _ => Nat.le_refl _⟩

/-- A slot is covered where its own text is paid for. -/
theorem covers_singleton {s : Slot} {ts us : List Token} (h : s.seat.Text inner us s.node)
    (hcost : ∀ σ : Toll, σ.cost s.seat.place us ≤ σ.cost .opened ts) : Covers inner ts [s] := by
  refine ⟨fun s' hs => ?_, fun σ least hleast => ?_⟩
  · obtain rfl := List.mem_singleton.mp hs
    exact ⟨us, h⟩
  · have hslot := hleast s (List.mem_singleton_self _) us h
    rw [List.map_singleton, List.sum_singleton]
    exact Nat.le_trans hslot (hcost σ)

/-- A row covers the slots of its items, since the commas cost nothing. -/
theorem Row.covers {α : Type} {item : Language α} {slots : α → List Slot} {ts : List Token}
    {as : List α} (h : Row item ts as)
    (hitem : ∀ {ts a}, item ts a → Closes ts ∧ Covers inner ts (slots a)) :
    Covers inner ts (as.flatMap slots) := by
  refine ⟨fun s hs => ?_, fun σ least hleast => ?_⟩
  · obtain ⟨a, ha, hs⟩ := List.mem_flatMap.mp hs
    obtain ⟨_, htext⟩ := h.text_of_mem ha
    exact (hitem htext).2.texts s hs
  · rw [sum_map_flatMap]
    refine h.pays σ (fun a => ((slots a).map least).sum) fun ha htext => ?_
    obtain ⟨hcloses, hcovers⟩ := hitem htext
    exact ⟨hcloses, hcovers.pays σ least fun s hs => hleast s (List.mem_flatMap.mpr ⟨_, ha, hs⟩)⟩

theorem Item.covers (F : Operands inner) {ts : List Token} {t : Node} (h : Item inner ts t) :
    Closes ts ∧ Covers inner ts [t.itemSlot] := by
  cases h with
  | plain ht =>
      have hstar := F.unstarred ht
      have hcovers : Covers inner ts [t.inside] := covers_singleton ht fun _ => Nat.le_refl _
      cases t with
      | starred _ => exact absurd hstar nofun
      | _ => exact ⟨F.closes ht, hcovers⟩
  | starred ht =>
      exact ⟨(F.closes ht).cons, covers_singleton ht fun _ => Nat.le_of_eq (Toll.cost_separator rfl).symm⟩

theorem Row.covers_items (F : Operands inner) {ts : List Token} {items : List Node}
    (h : Row (Item inner) ts items) : Covers inner ts (items.map Node.itemSlot) := by
  rw [List.map_eq_flatMap]
  exact h.covers fun hitem => hitem.covers F

theorem EntryText.covers (F : Operands inner) {ts : List Token} {e : Entry Node}
    (h : EntryText inner ts e) : Closes ts ∧ Covers inner ts (Node.entrySlots e) := by
  cases h with
  | @item ks vs k v hk hv =>
      refine ⟨(F.closes hv).cons.append, fun s hs => ?_, fun σ least hleast => ?_⟩
      · rcases List.mem_pair.mp hs with rfl | rfl
        · exact ⟨ks, hk⟩
        · exact ⟨vs, hv⟩
      · have hkey : least k.inside ≤ σ.cost .opened ks :=
          hleast k.inside (by simp [Node.entrySlots]) ks hk
        have hvalue : least v.inside ≤ σ.cost .opened vs :=
          hleast v.inside (by simp [Node.entrySlots]) vs hv
        rw [Toll.cost_closes (F.closes hk), Toll.cost_separator rfl]
        simp only [Node.entrySlots, List.map_cons, List.map_nil, List.sum_cons, List.sum_nil]
        omega
  | unpacked hv =>
      exact ⟨(F.closes hv).cons, covers_singleton hv fun _ => Nat.le_of_eq Toll.cost_expansion.symm⟩

/-! ## Arguments -/

/-- The slot of an argument as it is written. -/
def Argument.slot : Argument → Slot
  | .plain value | .starred value | .named _ value | .unpacked value => value.inside

/-- The price of the name of an argument. -/
def Argument.price (σ : Toll) : Argument → Nat
  | .named id _ => σ.leaf (.ident id)
  | _ => 0

/-- What the arguments cost in the order in which they are written, they cost with the keyword
    arguments behind the others. -/
theorem sum_arguments (σ : Toll) (least : Slot → Nat) {args : List Argument}
    (hplain : ∀ v, .plain v ∈ args → v.isStarred = false) :
    (args.map fun a => a.price σ + least a.slot).sum
      = ((args.filterMap Argument.positional?).map fun t => least t.argumentSlot).sum
        + (((args.filterMap Argument.keyword?).map (Keyword.price σ)).sum
          + ((args.filterMap Argument.keyword?).map fun k => least k.value.inside).sum) := by
  induction args with
  | nil => rfl
  | cons a args ih =>
      have ih := ih fun v hv => hplain v (List.mem_cons_of_mem a hv)
      rw [List.map_cons, List.sum_cons, ih, Parser.filterMap_cons_toList,
        Parser.filterMap_cons_toList, List.map_append, List.map_append, List.map_append,
        List.sum_append, List.sum_append, List.sum_append]
      cases a with
      | plain v =>
          have hslot : v.argumentSlot = v.inside := by
            have := hplain v List.mem_cons_self
            cases v with
            | starred _ => exact absurd this nofun
            | _ => rfl
          show 0 + least v.inside + _ = least v.argumentSlot + 0 + _ + (0 + _ + (0 + _))
          rw [hslot]
          omega
      | starred v =>
          show 0 + least v.inside + _ = least v.inside + 0 + _ + (0 + _ + (0 + _))
          omega
      | named id v =>
          show σ.leaf (.ident id) + least v.inside + _
            = 0 + _ + (σ.leaf (.ident id) + 0 + _ + (least v.inside + 0 + _))
          omega
      | unpacked v =>
          show 0 + least v.inside + _ = 0 + _ + (0 + 0 + _ + (least v.inside + 0 + _))
          omega

/-- The slots of a call's arguments are those of the arguments that are written. -/
theorem mem_argumentSlots {args : List Argument} {s : Slot}
    (hplain : ∀ v, .plain v ∈ args → v.isStarred = false) :
    s ∈ (args.filterMap Argument.positional?).map Node.argumentSlot
        ++ (args.filterMap Argument.keyword?).map (fun k => k.value.inside)
      ↔ ∃ a ∈ args, a.slot = s := by
  have hslot (v : Node) (hv : .plain v ∈ args) : v.argumentSlot = v.inside := by
    have := hplain v hv
    cases v with
    | starred _ => exact absurd this nofun
    | _ => rfl
  rw [List.mem_append, List.mem_map, List.mem_map]
  constructor
  · rintro (⟨t, ht, rfl⟩ | ⟨k, hk, rfl⟩)
    · obtain ⟨a, ha, hat⟩ := List.mem_filterMap.mp ht
      refine ⟨a, ha, ?_⟩
      cases a with
      | plain v =>
          cases hat
          exact (hslot t ha).symm
      | starred v =>
          cases hat
          rfl
      | named _ _ | unpacked _ => cases hat
    · obtain ⟨a, ha, hak⟩ := List.mem_filterMap.mp hk
      refine ⟨a, ha, ?_⟩
      cases a with
      | plain _ | starred _ => cases hak
      | named _ _ | unpacked _ =>
          cases hak
          rfl
  · rintro ⟨a, ha, rfl⟩
    cases a with
    | plain v => exact Or.inl ⟨v, List.mem_filterMap.mpr ⟨_, ha, rfl⟩, hslot v ha⟩
    | starred v => exact Or.inl ⟨.starred v, List.mem_filterMap.mpr ⟨_, ha, rfl⟩, rfl⟩
    | named id v => exact Or.inr ⟨.named id v, List.mem_filterMap.mpr ⟨_, ha, rfl⟩, rfl⟩
    | unpacked v => exact Or.inr ⟨.unpacked v, List.mem_filterMap.mpr ⟨_, ha, rfl⟩, rfl⟩

theorem ArgumentText.text {ts : List Token} {a : Argument} (h : ArgumentText inner ts a) :
    ∃ us, a.slot.seat.Text inner us a.slot.node := by
  cases h with
  | plain ht | starred ht | named _ ht | unpacked ht => exact ⟨_, ht⟩

theorem ArgumentText.pays (F : Operands inner) {σ : Toll} {least : Slot → Nat} {ts : List Token}
    {a : Argument} (h : ArgumentText inner ts a)
    (hleast : ∀ us, a.slot.seat.Text inner us a.slot.node →
      least a.slot ≤ σ.cost a.slot.seat.place us) :
    Closes ts ∧ a.price σ + least a.slot ≤ σ.cost .opened ts := by
  cases h with
  | plain ht => exact ⟨F.closes ht, (Nat.zero_add _).symm ▸ hleast _ ht⟩
  | starred ht =>
      refine ⟨(F.closes ht).cons, ?_⟩
      rw [Toll.cost_separator rfl]
      exact (Nat.zero_add _).symm ▸ hleast _ ht
  | named id ht =>
      refine ⟨(F.closes ht).cons.cons, ?_⟩
      rw [Toll.cost_cons, Toll.cost_separator rfl]
      exact Nat.add_le_add_left (hleast _ ht) _
  | unpacked ht =>
      refine ⟨(F.closes ht).cons, ?_⟩
      rw [Toll.cost_expansion]
      exact (Nat.zero_add _).symm ▸ hleast _ ht

/-! ## Taking derivations apart -/

/-- A node whose slots a part of its text covers is spelled out, if the rest pays for the node. -/
theorem direct_of_covers {ts us : List Token} {t : Node} (h : Covers inner us t.slots)
    (hfit : t.Fitting) (hunsigned : ∀ op u, t ≠ .unary op u)
    (hcost : ∀ σ : Toll, t.own σ + σ.cost .opened us ≤ σ.cost .opened ts) : Direct inner ts t where
  fitting := hfit
  texts := h.texts
  pays σ least hleast :=
    Nat.le_trans (Nat.add_le_add_left (h.pays σ least hleast) _) (hcost σ)
  signed op u htree := absurd htree (hunsigned op u)

/-- An atom is a name, a literal or a bracketed expression, or stands in parentheses. -/
theorem Atom.invert (F : Operands inner) {ts : List Token} {t : Node} (h : Atom inner ts t) :
    Grouped inner ts t ∨ (t.precedence = Expr.atomPrecedence ∧ Direct inner ts t) := by
  cases h with
  | group ht => exact Or.inl ⟨_, rfl, ht⟩
  | name id => exact Or.inr ⟨rfl, direct_of_covers covers_nil trivial nofun fun _ => Nat.le_refl _⟩
  | constant value _ =>
      exact Or.inr ⟨rfl, direct_of_covers covers_nil trivial nofun fun _ => Nat.le_refl _⟩
  | texts parts _ => exact Or.inr ⟨rfl, direct_of_covers covers_nil trivial nofun fun _ => Nat.zero_le _⟩
  | unit => exact Or.inr ⟨rfl, direct_of_covers covers_nil trivial nofun fun _ => Nat.le_refl _⟩
  | @tuple us vs u more hitem hmore =>
      have hrow : Row (Item inner) (us ++ .mark .comma :: vs) (u :: more) := .more hitem hmore
      refine Or.inr ⟨rfl, direct_of_covers (hrow.covers_items F) trivial nofun fun σ => ?_⟩
      rw [Toll.cost_close rfl, Toll.cost_leftParen]
      exact Nat.le_refl _
  | list hrow =>
      refine Or.inr ⟨rfl, direct_of_covers (hrow.covers_items F) trivial nofun fun σ => ?_⟩
      rw [Toll.cost_close rfl, Toll.cost_separator rfl]
      exact Nat.le_of_eq (Nat.zero_add _)
  | dict hrow =>
      refine Or.inr ⟨rfl, direct_of_covers (hrow.covers fun he => he.covers F) trivial nofun fun σ => ?_⟩
      rw [Toll.cost_close rfl, Toll.cost_separator rfl]
      exact Nat.le_of_eq (Nat.zero_add _)

/-- What stands between the brackets of a subscript covers the slots there. -/
theorem Slice.covers (F : Operands inner) {ts : List Token} {slice : Node}
    (h : Slice inner ts slice) : Covers inner ts slice.sliceSlots := by
  cases h with
  | single ht => exact F.slice ht
  | @several us vs t more ht hmore =>
      have hrow : Row (inner 0) (us ++ .mark .comma :: vs) (t :: more) := .more ht hmore
      have hplain : (t :: more).any Node.isStarred = false := by
        rw [List.any_eq_false]
        intro item hitem
        obtain ⟨_, htext⟩ := hrow.text_of_mem hitem
        simp [F.unstarred htext]
      have hslots : (Node.tuple (t :: more)).sliceSlots = (t :: more).map Node.inside := by
        rw [Node.sliceSlots, if_neg (by simp [hplain])]
      rw [hslots, List.map_eq_flatMap]
      exact hrow.covers fun htext =>
        ⟨F.closes htext, covers_singleton htext fun _ => Nat.le_refl _⟩

/-- A postfix expression is spelled out, or it is an atom in parentheses. -/
theorem Postfix.invert (F : Operands inner) {ts : List Token} {t : Node}
    (h : Postfix inner ts t) :
    Grouped inner ts t ∨ (t.precedence = Expr.atomPrecedence ∧ Direct inner ts t) := by
  cases h with
  | atom ht => exact Atom.invert F ht
  | @member us u attr ht =>
      have hbase : Covers inner us [⟨.base, u⟩] := covers_singleton ht fun _ => Nat.le_refl _
      refine Or.inr ⟨rfl, direct_of_covers hbase trivial nofun fun σ => ?_⟩
      rw [Toll.cost_closes ht.closes, Toll.cost_separator rfl]
      exact Nat.le_of_eq (Nat.add_comm ..)
  | @call us vs u site ht hargs =>
      obtain @⟨_, args, hrow, -⟩ := hargs
      have hplain (v : Node) (hv : .plain v ∈ args) : v.isStarred = false := by
        obtain ⟨_, htext⟩ := hrow.text_of_mem hv
        cases htext with
        | plain htext => exact F.unstarred htext
      refine Or.inr ⟨rfl, trivial, fun s hs => ?_, fun σ least hleast => ?_, by rintro _ _ ⟨⟩⟩
      · rcases List.mem_cons.mp hs with rfl | hs
        · exact ⟨us, ht⟩
        · obtain ⟨a, ha, rfl⟩ := (mem_argumentSlots hplain).mp hs
          obtain ⟨_, htext⟩ := hrow.text_of_mem ha
          exact htext.text
      · have hbase : least ⟨.base, u⟩ ≤ σ.cost .opened us := hleast _ List.mem_cons_self us ht
        have hsum := hrow.pays σ (fun a => a.price σ + least a.slot)
          fun ha htext => htext.pays F
            (hleast _ (List.mem_cons_of_mem _ ((mem_argumentSlots hplain).mpr ⟨_, ha, rfl⟩)))
        rw [sum_arguments σ least hplain] at hsum
        rw [List.append_assoc, Toll.cost_closes ht.closes, List.cons_append,
          Toll.cost_leftParen, Toll.cost_append]
        simp only [Node.own, Node.slots, List.map_cons, List.sum_cons, List.map_append,
          List.sum_append, List.map_map, Function.comp_def]
        omega
  | @subscript us vs u slice ht hslice =>
      have hcovers := Slice.covers F hslice
      refine Or.inr ⟨rfl, trivial, fun s hs => ?_, fun σ least hleast => ?_, by rintro _ _ ⟨⟩⟩
      · rcases List.mem_cons.mp hs with rfl | hs
        · exact ⟨us, ht⟩
        · exact hcovers.texts s hs
      · have hbase : least ⟨.base, u⟩ ≤ σ.cost .opened us := hleast _ List.mem_cons_self us ht
        have hsum := hcovers.pays σ least fun s hs => hleast s (List.mem_cons_of_mem _ hs)
        show 0 + (least ⟨.base, u⟩ + (slice.sliceSlots.map least).sum) ≤ _
        rw [List.append_assoc, Toll.cost_closes ht.closes, List.cons_append,
          Toll.cost_separator rfl, Toll.cost_append]
        omega

/-- The links of a chain pay for their operands. -/
theorem links_pay (F : Operands inner) (σ : Toll) (least : Slot → Nat)
    {steps : List (List Token × Link Node)}
    (hcomp : ∀ s ∈ steps, s.2.op.isComparison = true)
    (hsteps : ∀ s ∈ steps, Phrase inner 5 s.1 s.2.operand)
    (hleast : ∀ s ∈ steps, least ⟨.operand 5, s.2.operand⟩ ≤ σ.cost .opened s.1) :
    (steps.map fun s => least ⟨.operand 5, s.2.operand⟩).sum
      ≤ σ.cost .closed (steps.flatMap fun s => s.2.op.token :: s.1) := by
  induction steps with
  | nil => exact Nat.le_refl _
  | cons s steps ih =>
      have hrest := ih (fun s hs => hcomp s (List.mem_cons_of_mem _ hs))
        (fun s hs => hsteps s (List.mem_cons_of_mem _ hs))
        (fun s hs => hleast s (List.mem_cons_of_mem _ hs))
      have hassoc := BinaryOp.not_rightAssoc_of_comparison (hcomp s List.mem_cons_self)
      have hfirst := hleast s List.mem_cons_self
      rw [List.flatMap_cons, List.cons_append, Toll.cost_cons, Toll.one_binary, Toll.after_binary,
        hassoc, if_neg (by decide),
        Toll.cost_closes (Phrase.closes F (hsteps s List.mem_cons_self)), List.map_cons,
        List.sum_cons]
      omega

/-- An operator between two operands. -/
theorem direct_binary {us vs : List Token} {l r : Node} {op : BinaryOp}
    (hfit : op.isComparison = false) (hcloses : Closes us)
    (hl : (Node.leftSeat op).Text inner us l) (hr : (Node.rightSeat op).Text inner vs r) :
    Direct inner (us ++ op.token :: vs) (.binary l op r) := by
  refine ⟨hfit, fun s hs => ?_, fun σ least hleast => ?_, nofun⟩
  · rcases List.mem_pair.mp hs with rfl | rfl
    · exact ⟨us, hl⟩
    · exact ⟨vs, hr⟩
  · have hleft := hleast _ List.mem_cons_self us hl
    have hright := hleast _ (List.mem_cons_of_mem _ (List.mem_singleton_self _)) vs hr
    rw [Node.place_leftSeat] at hleft
    rw [Node.place_rightSeat] at hright
    rw [Toll.cost_closes hcloses, Toll.cost_cons, Toll.one_binary]
    simp only [Node.own, Node.slots, List.map_cons, List.map_nil, List.sum_cons, List.sum_nil]
    omega

/-- A unary operator in front of its operand. -/
theorem direct_unary {us : List Token} {u : Node} (op : UnaryOp) (hu : inner op.precedence us u) :
    Direct inner (op.token :: us) (.unary op u) := by
  refine ⟨trivial, fun s hs => ?_, fun σ least hleast => ?_, ?_⟩
  · obtain rfl := List.mem_singleton.mp hs
    exact ⟨us, hu⟩
  · have hoperand : least ⟨.nested op.precedence, u⟩ ≤ σ.cost .opened us :=
      hleast _ (List.mem_singleton_self _) us hu
    have hop : σ.cost .opened (op.token :: us) = σ.cost .opened us := by
      cases op <;> exact Nat.zero_add _
    rw [hop]
    show 0 + (least ⟨.nested op.precedence, u⟩ + 0) ≤ _
    omega
  · rintro op' u' ⟨rfl, rfl⟩
    rfl

/-- A chain of comparisons. -/
theorem direct_compare (F : Operands inner) {us : List Token} {l : Node}
    {steps : List (List Token × Link Node)} (hfit : (Node.compare l (steps.map Prod.snd)).Fitting)
    (hl : Phrase inner 5 us l) (hsteps : ∀ s ∈ steps, Phrase inner 5 s.1 s.2.operand) :
    Direct inner (us ++ steps.flatMap fun s => s.2.op.token :: s.1)
      (.compare l (steps.map Prod.snd)) := by
  have hslot {s : List Token × Link Node} (hs : s ∈ steps) :
      (⟨.operand 5, s.2.operand⟩ : Slot) ∈ (Node.compare l (steps.map Prod.snd)).slots :=
    List.mem_cons_of_mem _ (List.mem_map.mpr ⟨s.2, List.mem_map_of_mem hs, rfl⟩)
  refine ⟨hfit, fun s hs => ?_, fun σ least hleast => ?_, nofun⟩
  · rcases List.mem_cons.mp hs with rfl | hs
    · exact ⟨us, hl⟩
    · obtain ⟨link, hlink, rfl⟩ := List.mem_map.mp hs
      obtain ⟨step, hstep, rfl⟩ := List.mem_map.mp hlink
      exact ⟨step.1, hsteps step hstep⟩
  · have hleft : least ⟨.operand 5, l⟩ ≤ σ.cost .opened us := hleast _ List.mem_cons_self us hl
    have hlinks := links_pay F σ least
      (fun s hs => hfit.2 s.2 (List.mem_map_of_mem hs)) hsteps
      fun s hs => hleast _ (hslot hs) s.1 (hsteps s hs)
    rw [Toll.cost_closes (Phrase.closes F hl)]
    simp only [Node.own, Node.slots, List.map_cons, List.sum_cons, List.map_map,
      Function.comp_def]
    omega

/-- A phrase stands in parentheses, or it is spelled out and binds as tightly as its level
    says. -/
theorem Phrase.invert (F : Operands inner) {p : Nat} {ts : List Token} {t : Node}
    (h : Phrase inner p ts t) :
    Grouped inner ts t ∨ (p ≤ t.precedence ∧ Direct inner ts t) := by
  induction h with
  | operand ht =>
      rcases Postfix.invert F ht with hgroup | ⟨hprec, hdirect⟩
      · exact Or.inl hgroup
      · exact Or.inr ⟨hprec ▸ (by decide), hdirect⟩
  | power hl hr _ =>
      exact Or.inr ⟨Nat.le_refl _, @direct_binary _ _ _ _ _ .pow rfl hl.closes hl hr⟩
  | unary op hu => exact Or.inr ⟨Nat.le_refl _, direct_unary op hu⟩
  | binary op hcomp hassoc hl hr _ _ =>
      refine Or.inr ⟨Nat.le_refl _, direct_binary hcomp (Phrase.closes F hl) ?_ ?_⟩
      · rw [Node.leftSeat_of_left hassoc]
        exact hl
      · rw [Node.rightSeat_of_left hassoc]
        exact hr
  | @compare us l steps hl hne hcomp hsteps _ _ =>
      have hfit : (Node.compare l (steps.map Prod.snd)).Fitting := by
        refine ⟨by simpa using hne, fun link hlink => ?_⟩
        obtain ⟨s, hs, rfl⟩ := List.mem_map.mp hlink
        exact hcomp s hs
      exact Or.inr ⟨Nat.le_of_eq hfit.precedence_compare.symm, direct_compare F hfit hl hsteps⟩
  | tighter hp _ ih =>
      rcases ih with hgroup | ⟨hprec, hdirect⟩
      · exact Or.inl hgroup
      · exact Or.inr ⟨by omega, hdirect⟩

/-! ## Induction on derivations -/

theorem Covers.mono {inner' : Nat → Language Node} (h : ∀ {p ts t}, inner p ts t → inner' p ts t)
    {ts : List Token} {slots : List Slot} (hslots : ∀ s ∈ slots, s.seat = .nested 0)
    (hcovers : Covers inner ts slots) : Covers inner' ts slots := by
  have hmono {s : Slot} (hs : s ∈ slots) {us : List Token} (htext : s.seat.Text inner us s.node) :
      s.seat.Text inner' us s.node := by
    rw [hslots s hs] at htext ⊢
    exact h htext
  refine ⟨fun s hs => ?_, fun σ least hleast => ?_⟩
  · obtain ⟨us, htext⟩ := hcovers.texts s hs
    exact ⟨us, hmono hs htext⟩
  · exact hcovers.pays σ least fun s hs us htext => hleast s hs us (hmono hs htext)

theorem sliceSlots_nested {slice : Node} {s : Slot} (hs : s ∈ slice.sliceSlots) :
    s.seat = .nested 0 := by
  unfold Node.sliceSlots at hs
  split at hs
  · split at hs
    · obtain rfl := List.mem_singleton.mp hs
      rfl
    · obtain ⟨item, -, rfl⟩ := List.mem_map.mp hs
      rfl
  · obtain rfl := List.mem_singleton.mp hs
    rfl

/-- A slice is one slot, or a tuple whose slots it has. -/
theorem sliceSlots_cases (slice : Node) :
    slice.sliceSlots = [slice.inside] ∨ slice.sliceSlots = slice.slots := by
  unfold Node.sliceSlots
  split
  · rename_i item items
    by_cases hstar : (item :: items).any Node.isStarred = true
    · rw [if_pos hstar]
      exact Or.inl rfl
    · rw [if_neg hstar]
      refine Or.inr (List.map_congr_left fun t ht => ?_)
      cases t with
      | starred v => exact absurd (List.any_eq_true.mpr ⟨_, ht, rfl⟩) hstar
      | _ => rfl
  · exact Or.inl rfl

/-- The derivations of each depth are operands of the next. -/
theorem Derives.operands (n : Nat) : Operands (Derives n) := by
  induction n with
  | zero => exact ⟨fun h => h.elim, fun h => h.elim, fun h => h.elim⟩
  | succ n ih =>
      refine ⟨Phrase.closes ih, Phrase.isStarred ih, fun {ts t} ht => ?_⟩
      rcases sliceSlots_cases t with hslots | hslots
      · rw [hslots]
        refine ⟨fun s hs => ?_, fun σ least hleast => ?_⟩
        · obtain rfl := List.mem_singleton.mp hs
          exact ⟨ts, ht⟩
        · have hle : least t.inside ≤ σ.cost .opened ts :=
            hleast _ (List.mem_singleton_self _) ts ht
          simpa using hle
      · -- the slots of a tuple are those of the derivation inside it
        refine Covers.mono Derives.succ (fun s hs => sliceSlots_nested hs) ?_
        rcases Phrase.invert ih ht with ⟨us, rfl, hus⟩ | ⟨-, hdirect⟩
        · have hcovers := ih.slice hus
          refine ⟨hcovers.texts, fun σ least hleast => ?_⟩
          have hsum := hcovers.pays σ least hleast
          rw [List.cons_append, Toll.cost_leftParen, Toll.cost_append]
          omega
        · rw [hslots]
          refine ⟨hdirect.texts, fun σ least hleast => ?_⟩
          exact Nat.le_trans (Nat.le_add_left _ _) (hdirect.pays σ least hleast)

/-- Induction from slot to slot.  A nested part is read one level deeper than what it stands in; any
    other part is spelled out, or stands in parentheses, which nest it. -/
theorem Seat.text_induction {P : Nat → Seat → List Token → Node → Prop}
    (nested : ∀ n level ts t, P n (.operand level) ts t → P (n + 1) (.nested level) ts t)
    (group : ∀ n seat us t, seat.depth = 0 → P n (.nested 0) us t →
      P n seat (.mark .leftParen :: us ++ [.mark .rightParen]) t)
    (direct : ∀ n seat ts t, seat.depth = 0 → seat.level ≤ t.precedence →
      Direct (Derives n) ts t →
      (∀ s ∈ t.slots, ∀ us, s.seat.Text (Derives n) us s.node → P n s.seat us s.node) →
      P n seat ts t)
    {n : Nat} {seat : Seat} {ts : List Token} {t : Node} (h : seat.Text (Derives n) ts t) :
    P n seat ts t := by
  -- the seats of one depth, when the nested operands of that depth are known
  have hflat (n : Nat) (hnested : ∀ level ts t, Derives n level ts t → P n (.nested level) ts t)
      (t : Node) : ∀ seat ts, seat.depth = 0 → seat.Text (Derives n) ts t → P n seat ts t := by
    induction t using Node.slotInduction with
    | step t ih =>
        intro seat ts hdepth htext
        have hinvert : Grouped (Derives n) ts t
            ∨ (seat.level ≤ t.precedence ∧ Direct (Derives n) ts t) := by
          cases seat with
          | base =>
              rcases Postfix.invert (Derives.operands n) htext with hgroup | ⟨hprec, hdirect⟩
              · exact Or.inl hgroup
              · exact Or.inr ⟨Nat.le_of_eq hprec.symm, hdirect⟩
          | operand level => exact Phrase.invert (Derives.operands n) htext
          | exponent => exact Phrase.invert (Derives.operands n) htext
          | nested level => exact absurd hdepth Nat.one_ne_zero
        rcases hinvert with ⟨us, rfl, hus⟩ | ⟨hlevel, hdirect⟩
        · exact group n seat us t hdepth (hnested 0 us t hus)
        · refine direct n seat ts t hdepth hlevel hdirect fun s hs us hus => ?_
          cases hseat : s.seat with
          | nested level =>
              rw [hseat] at hus
              exact hnested level us s.node hus
          | _ =>
              rw [hseat] at hus
              exact ih s hs _ us rfl hus
  have hnested (n : Nat) : ∀ level ts t, Derives n level ts t → P n (.nested level) ts t := by
    induction n with
    | zero => exact fun _ _ _ h => h.elim
    | succ n ih =>
        intro level ts t h
        exact nested n level ts t (hflat n ih t (.operand level) ts rfl h)
  cases seat with
  | nested level => exact hnested n level ts t h
  | _ => exact hflat n (hnested n) t _ ts rfl h

/-! ## What a text says about its tree -/

/-- In a tree that is derived every node fits. -/
theorem lawful_of_text {n : Nat} {seat : Seat} {ts : List Token} {t : Node}
    (h : seat.Text (Derives n) ts t) : t.Lawful := by
  refine Seat.text_induction (P := fun _ _ _ t => t.Lawful) ?_ ?_ ?_ h
  · exact fun _ _ _ _ ih => ih
  · exact fun _ _ _ _ _ ih => ih
  · intro n seat ts t _ _ hdirect ih
    refine .mk hdirect.fitting fun s hs => ?_
    obtain ⟨us, hus⟩ := hdirect.texts s hs
    exact ih s hs us hus

end Grammar

/-- The steps into a slot, when a part is put in parentheses only where it has to be. -/
def Slot.tightSteps (s : Slot) : Nat :=
  s.seat.depth + if s.node.precedence < s.seat.level then 1 else 0

/-- The steps into a slot as it is written. -/
def Slot.writtenSteps (s : Slot) : Nat :=
  s.seat.depth + if s.node.precedence < s.seat.writtenLevel then 1 else 0

namespace Grammar

/-- However a tree is written, its nested operands and the parentheses that it needs fit into the
    depth of the derivation. -/
theorem nesting_of_text {n : Nat} {seat : Seat} {ts : List Token} {t : Node}
    (h : seat.Text (Derives n) ts t) :
    t.nesting Slot.tightSteps + Slot.tightSteps ⟨seat, t⟩ ≤ n := by
  refine Seat.text_induction
    (P := fun n seat _ t => t.nesting Slot.tightSteps + Slot.tightSteps ⟨seat, t⟩ ≤ n) ?_ ?_ ?_ h
  · intro n level ts t ih
    have hstep : Slot.tightSteps ⟨.nested level, t⟩ = Slot.tightSteps ⟨.operand level, t⟩ + 1 := by
      show 1 + (if t.precedence < level then 1 else 0)
        = 0 + (if t.precedence < level then 1 else 0) + 1
      omega
    omega
  · intro n seat us t hdepth ih
    have hinside : Slot.tightSteps ⟨.nested 0, t⟩ = 1 := rfl
    have hstep : Slot.tightSteps ⟨seat, t⟩ ≤ 1 := by
      show seat.depth + _ ≤ 1
      split <;> omega
    omega
  · intro n seat ts t hdepth hlevel hdirect ih
    have hstep : Slot.tightSteps ⟨seat, t⟩ = 0 := by
      show seat.depth + _ = 0
      rw [hdepth, if_neg (Nat.not_lt.mpr hlevel)]
    rw [hstep, Nat.add_zero, Node.nesting_le]
    intro s hs
    obtain ⟨us, hus⟩ := hdirect.texts s hs
    exact ih s hs us hus

/-- Where a part is spelled out behind a power but would be written in parentheses there, it is a
    sign, and the text begins with it. -/
theorem sign_of_direct {inner : Nat → Language Node} {ts : List Token} {t : Node}
    (h : Direct inner ts t) {seat : Seat} (hlevel : seat.level ≤ t.precedence)
    (hwritten : t.precedence < seat.writtenLevel) :
    seat = .exponent ∧ ∃ op rest, op ≠ .not ∧ ts = UnaryOp.token op :: rest := by
  have hseat : seat = .exponent := by
    cases seat with
    | exponent => rfl
    | _ => exact absurd hwritten (Nat.not_lt.mpr hlevel)
  subst hseat
  have heleven : t.precedence = 11 := by
    have : 11 ≤ t.precedence := hlevel
    have : t.precedence < 12 := hwritten
    omega
  refine ⟨rfl, ?_⟩
  match t, h with
  | .unary op u, h =>
      have hhead := h.signed op u rfl
      cases ts with
      | nil => exact absurd hhead nofun
      | cons tok rest =>
          refine ⟨op, rest, ?_, ?_⟩
          · rintro rfl
            have hthree : 3 = 11 := heleven
            omega
          · rw [Option.some.inj hhead]
  | .binary l op r, h =>
      have hop : op.precedence = 11 := heleven
      cases op <;> exact absurd hop (by decide)
  | .compare l links, h =>
      exact absurd (h.fitting.precedence_compare.symm.trans heleven) (by decide)

/-- The text of a tree pays for the tree, and for the parentheses that its seat asks for when it is
    written.  A sign behind a power is as dear as the parentheses around it. -/
theorem toll_of_text {σ : Toll} (hσ : σ.paren ≤ σ.sign) {n : Nat} {seat : Seat}
    {ts : List Token} {t : Node} (h : seat.Text (Derives n) ts t) :
    t.toll σ + Node.charge σ ⟨seat, t⟩ ≤ σ.cost seat.place ts := by
  refine Seat.text_induction
    (P := fun _ seat ts t => t.toll σ + Node.charge σ ⟨seat, t⟩ ≤ σ.cost seat.place ts)
    ?_ ?_ ?_ h
  · exact fun _ _ _ _ ih => ih
  · intro n seat us t _ ih
    have hinside : Node.charge σ ⟨.nested 0, t⟩ = 0 := rfl
    have hcharge : Node.charge σ ⟨seat, t⟩ ≤ σ.paren := by
      unfold Node.charge
      split <;> omega
    have ih' : t.toll σ + Node.charge σ ⟨.nested 0, t⟩ ≤ σ.cost .opened us := ih
    rw [List.cons_append, Toll.cost_leftParen, Toll.cost_append]
    omega
  · intro n seat ts t hdepth hlevel hdirect ih
    have hpays := hdirect.pays σ (fun s => s.node.toll σ + Node.charge σ s) ih
    rw [← Node.toll_eq] at hpays
    by_cases hwritten : t.precedence < seat.writtenLevel
    · -- a sign behind a power
      obtain ⟨rfl, op, rest, hop, rfl⟩ := sign_of_direct hdirect hlevel hwritten
      have hcharge : Node.charge σ ⟨.exponent, t⟩ = σ.paren := if_pos hwritten
      show _ ≤ σ.cost .power (op.token :: rest)
      rw [Toll.cost_sign hop]
      omega
    · have hcharge : Node.charge σ ⟨seat, t⟩ = 0 := if_neg hwritten
      have hplace : σ.cost .opened ts ≤ σ.cost seat.place ts := by
        cases seat with
        | exponent => exact Toll.cost_opened_le (by decide)
        | _ => exact Nat.le_refl _
      omega

/-- Where no sign stands directly behind a power, the derivation has room for the tree as it is
    written. -/
theorem writtenNesting_of_text {σ : Toll} (hσ : 0 < σ.sign) {n : Nat} {seat : Seat}
    {ts : List Token} {t : Node} (h : seat.Text (Derives n) ts t)
    (hfree : σ.cost seat.place ts = 0) :
    t.nesting Slot.writtenSteps + Slot.writtenSteps ⟨seat, t⟩ ≤ n := by
  refine Seat.text_induction
    (P := fun n seat ts t => σ.cost seat.place ts = 0 →
      t.nesting Slot.writtenSteps + Slot.writtenSteps ⟨seat, t⟩ ≤ n) ?_ ?_ ?_ h hfree
  · intro n level ts t ih hfree
    have := ih hfree
    have hstep :
        Slot.writtenSteps ⟨.nested level, t⟩ = Slot.writtenSteps ⟨.operand level, t⟩ + 1 := by
      show 1 + (if t.precedence < level then 1 else 0)
        = 0 + (if t.precedence < level then 1 else 0) + 1
      omega
    omega
  · intro n seat us t hdepth ih hfree
    rw [List.cons_append, Toll.cost_leftParen, Toll.cost_append] at hfree
    have hus : σ.cost .opened us = 0 := by omega
    have := ih hus
    have hinside : Slot.writtenSteps ⟨.nested 0, t⟩ = 1 := rfl
    have hstep : Slot.writtenSteps ⟨seat, t⟩ ≤ 1 := by
      show seat.depth + _ ≤ 1
      split <;> omega
    omega
  · intro n seat ts t hdepth hlevel hdirect ih hfree
    have hwritten : ¬ t.precedence < seat.writtenLevel := by
      intro hlt
      obtain ⟨rfl, op, rest, hop, rfl⟩ := sign_of_direct hdirect hlevel hlt
      have hcost : σ.cost .power (op.token :: rest) = 0 := hfree
      rw [Toll.cost_sign hop] at hcost
      omega
    have hstep : Slot.writtenSteps ⟨seat, t⟩ = 0 := by
      show seat.depth + _ = 0
      rw [hdepth, if_neg hwritten]
    rw [hstep, Nat.add_zero, Node.nesting_le]
    intro s hs
    -- some text of the slot is free, since all that the slots cost at the least is nothing
    have hopened : σ.cost .opened ts = 0 := by
      have : σ.cost .opened ts ≤ σ.cost seat.place ts := by
        cases seat with
        | exponent => exact Toll.cost_opened_le (by decide)
        | _ => exact Nat.le_refl _
      omega
    obtain ⟨us, hus, hcost⟩ :
        ∃ us, s.seat.Text (Derives n) us s.node ∧ σ.cost s.seat.place us = 0 := by
      classical
      refine Classical.byContradiction fun hnone => ?_
      have hpays := hdirect.pays σ (fun s' => if s' = s then 1 else 0) (by
        intro s' _ us hus
        by_cases hs' : s' = s
        · subst hs'
          rw [if_pos rfl]
          exact Nat.pos_of_ne_zero fun hzero => hnone ⟨us, hus, hzero⟩
        · rw [if_neg hs']
          exact Nat.zero_le _)
      have hmem : 1 ∈ t.slots.map fun s' => if s' = s then 1 else 0 :=
        List.mem_map.mpr ⟨s, hs, if_pos rfl⟩
      have hone := List.le_sum_of_mem hmem
      omega
    exact ih s hs us hus hcost

end Grammar

end CallSite
