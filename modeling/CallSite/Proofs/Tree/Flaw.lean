import CallSite.Proofs.Tree.Derivation
import CallSite.Proofs.Tree.Occurrence

/-!
# Flaws — trees whose source text is not their own

The text of a tree is not always read back as the tree.  Four kinds of nodes spoil it: an integer
in front of an attribute, whose point becomes its own; a number that is not finite; a starred item
or an expansion that would need parentheses; and a subscript whose tuple holds a starred item.  A
tree is flawed when such a node occurs anywhere in it (`Node.Flawed`).
-/

namespace CallSite

namespace Node

/-! ## The four kinds -/

/-- A disjunction, a conjunction, a negation or a comparison. -/
def isLoose : Node → Bool
  | .binary _ op _ => op = .or || op = .and
  | .unary op _ => op = .not
  | .compare _ _ => true
  | _ => false

/-- An integer in front of an attribute. -/
inductive IntegerBase : Node → Prop where
  | mk (value : Int) (attr : String) : IntegerBase (.attribute (.constant (.int value)) attr)

/-- A number that is not finite. -/
inductive NotFinite : Node → Prop where
  | mk {x : Binary64} : x.isFinite = false → NotFinite (.constant (.float x))

/-- A starred item or an expansion that binds too loosely for its place, or a starred item in the
    tuple of a subscript. -/
inductive BareStar : Node → Prop where
  | list {items : List Node} {v : Node} :
      .starred v ∈ items → v.isLoose = true → BareStar (.list items)
  | tuple {items : List Node} {v : Node} :
      .starred v ∈ items → v.isLoose = true → BareStar (.tuple items)
  | dict {entries : List (Entry Node)} {v : Node} :
      .unpacked v ∈ entries → v.isLoose = true → BareStar (.dict entries)
  | slice {value : Node} {items : List Node} {v : Node} :
      .starred v ∈ items → BareStar (.subscript value (.tuple items))

/-- A node that spoils the text of the trees it occurs in. -/
def Flaw (t : Node) : Prop := t.IntegerBase ∨ t.NotFinite ∨ t.BareStar

/-- A flaw occurs in the tree. -/
def Flawed (t : Node) : Prop := t.Contains Flaw

/-- A power with a unary operator to its right. -/
inductive UnaryExponent : Node → Prop where
  | mk (left : Node) (op : UnaryOp) (operand : Node) :
      UnaryExponent (.binary left .pow (.unary op operand))

/-! ## Occurrences by slots -/

/-- A kind of nodes that are never skipped between a node and its slots. -/
structure Seated (P : Node → Prop) : Prop where
  starred : ∀ v, ¬ P (.starred v)
  tuple : ∀ items, (∀ item ∈ items, item.isStarred = false) → ¬ P (.tuple items)

theorem integerBase_seated : Seated IntegerBase := ⟨fun _ => nofun, fun _ _ => nofun⟩

theorem notFinite_seated : Seated NotFinite := ⟨fun _ => nofun, fun _ _ => nofun⟩

theorem bareStar_seated : Seated BareStar := by
  refine ⟨fun _ => nofun, fun items hplain h => ?_⟩
  cases h with
  | tuple hmem _ => exact absurd (hplain _ hmem) nofun

theorem flaw_seated : Seated Flaw := by
  refine ⟨fun v h => ?_, fun items hplain h => ?_⟩
  · rcases h with h | h | h
    · exact integerBase_seated.starred v h
    · exact notFinite_seated.starred v h
    · exact bareStar_seated.starred v h
  · rcases h with h | h | h
    · exact integerBase_seated.tuple items hplain h
    · exact notFinite_seated.tuple items hplain h
    · exact bareStar_seated.tuple items hplain h

variable {P : Node → Prop}

/-- Behind a star the operand is next. -/
theorem Contains.of_starred (hP : Seated P) {v : Node} (h : Contains P (.starred v)) :
    Contains P v := by
  obtain ⟨u, hu, hPu⟩ := h
  cases hu with
  | refl => exact absurd hPu (hP.starred v)
  | child hc hu =>
      obtain rfl := List.mem_singleton.mp hc
      exact ⟨u, hu, hPu⟩

theorem Contains.itemSlot (hP : Seated P) {t : Node} (h : Contains P t) :
    Contains P t.itemSlot.node := by
  cases t with
  | starred v => exact h.of_starred hP
  | _ => exact h

theorem Contains.argumentSlot (hP : Seated P) {t : Node} (h : Contains P t) :
    Contains P t.argumentSlot.node := by
  cases t with
  | starred v => exact h.of_starred hP
  | _ => exact h

theorem Contains.sliceSlot (hP : Seated P) {slice : Node} (h : Contains P slice) :
    ∃ s ∈ slice.sliceSlots, Contains P s.node := by
  unfold sliceSlots
  split
  · rename_i item items
    by_cases hstar : (item :: items).any isStarred = true
    · rw [if_pos hstar]
      exact ⟨_, List.mem_singleton_self _, h⟩
    · rw [if_neg hstar]
      obtain ⟨u, hu, hPu⟩ := h
      cases hu with
      | refl =>
          refine absurd hPu (hP.tuple _ fun t ht => ?_)
          exact Bool.eq_false_iff.mpr fun htrue => hstar (List.any_eq_true.mpr ⟨t, ht, htrue⟩)
      | child hc hu => exact ⟨_, List.mem_map_of_mem hc, u, hu, hPu⟩
  · exact ⟨_, List.mem_singleton_self _, h⟩

/-- What occurs in a tree is the tree itself or occurs in one of its slots. -/
theorem Contains.here_or_slot (hP : Seated P) {t : Node} (ht : t.isStarred = false)
    (h : Contains P t) : P t ∨ ∃ s ∈ t.slots, Contains P s.node := by
  obtain ⟨u, hu, hPu⟩ := h
  cases hu with
  | refl => exact Or.inl hPu
  | @child c _ hc hu =>
      have hcontains : Contains P c := ⟨u, hu, hPu⟩
      refine Or.inr ?_
      match t, ht, hc with
      | .attribute value attr, _, hc =>
          obtain rfl := List.mem_singleton.mp hc
          exact ⟨_, List.mem_singleton_self _, hcontains⟩
      | .call ⟨func, args, keywords⟩, _, hc =>
          rcases List.mem_cons.mp hc with rfl | hc
          · exact ⟨_, List.mem_cons_self, hcontains⟩
          rcases List.mem_append.mp hc with hc | hc
          · exact ⟨c.argumentSlot, List.mem_cons_of_mem _
              (List.mem_append_left _ (List.mem_map_of_mem hc)), hcontains.argumentSlot hP⟩
          · obtain ⟨k, hk, rfl⟩ := List.mem_map.mp hc
            exact ⟨k.value.inside, List.mem_cons_of_mem _
              (List.mem_append_right _ (List.mem_map.mpr ⟨k, hk, rfl⟩)), hcontains⟩
      | .subscript value slice, _, hc =>
          simp only [children, List.mem_cons, List.not_mem_nil, or_false] at hc
          rcases hc with rfl | rfl
          · exact ⟨_, List.mem_cons_self, hcontains⟩
          · obtain ⟨s, hs, hslot⟩ := hcontains.sliceSlot hP
            exact ⟨s, List.mem_cons_of_mem _ hs, hslot⟩
      | .list items, _, hc | .tuple items, _, hc =>
          exact ⟨c.itemSlot, List.mem_map_of_mem hc, hcontains.itemSlot hP⟩
      | .dict entries, _, hc =>
          obtain ⟨e, he, hc⟩ := List.mem_flatMap.mp hc
          have hslot {s : Slot} (hs : s ∈ entrySlots e) (hnode : s.node = c) :
              ∃ s ∈ (Node.dict entries).slots, Contains P s.node :=
            ⟨s, List.mem_flatMap.mpr ⟨e, he, hs⟩, hnode ▸ hcontains⟩
          cases e with
          | item key value =>
              simp only [Entry.values, List.mem_cons, List.not_mem_nil, or_false] at hc
              rcases hc with rfl | rfl
              · exact hslot (s := c.inside) List.mem_cons_self rfl
              · exact hslot (s := c.inside) (List.mem_cons_of_mem _ (List.mem_singleton_self _)) rfl
          | unpacked value =>
              obtain rfl := List.mem_singleton.mp hc
              exact hslot (List.mem_singleton_self _) rfl
      | .unary op operand, _, hc =>
          obtain rfl := List.mem_singleton.mp hc
          exact ⟨_, List.mem_singleton_self _, hcontains⟩
      | .binary left op right, _, hc =>
          simp only [children, List.mem_cons, List.not_mem_nil, or_false] at hc
          rcases hc with rfl | rfl
          · exact ⟨_, List.mem_cons_self, hcontains⟩
          · exact ⟨_, List.mem_cons_of_mem _ (List.mem_singleton_self _), hcontains⟩
      | .compare left links, _, hc =>
          rcases List.mem_cons.mp hc with rfl | hc
          · exact ⟨_, List.mem_cons_self, hcontains⟩
          · obtain ⟨link, hlink, rfl⟩ := List.mem_map.mp hc
            exact ⟨_, List.mem_cons_of_mem _ (List.mem_map.mpr ⟨link, hlink, rfl⟩), hcontains⟩

/-- What stands in the slot of an item occurs in the item. -/
theorem within_itemSlot (item : Node) : Within item.itemSlot.node item := by
  cases item with
  | starred v => exact .child (List.mem_singleton_self _) .refl
  | _ => exact .refl

theorem within_argumentSlot (arg : Node) : Within arg.argumentSlot.node arg := by
  cases arg with
  | starred v => exact .child (List.mem_singleton_self _) .refl
  | _ => exact .refl

/-- What stands in a slot occurs in the tree. -/
theorem within_of_slot {t : Node} {s : Slot} (hs : s ∈ t.slots) : Within s.node t := by
  match t, hs with
  | .attribute value attr, hs =>
      obtain rfl := List.mem_singleton.mp hs
      exact .child (List.mem_singleton_self _) .refl
  | .call ⟨func, args, keywords⟩, hs =>
      rcases List.mem_cons.mp hs with rfl | hs
      · exact .child List.mem_cons_self .refl
      rcases List.mem_append.mp hs with hs | hs
      · obtain ⟨arg, harg, rfl⟩ := List.mem_map.mp hs
        exact .child (List.mem_cons_of_mem _ (List.mem_append_left _ harg))
          (within_argumentSlot arg)
      · obtain ⟨k, hk, rfl⟩ := List.mem_map.mp hs
        exact .child (List.mem_cons_of_mem _
          (List.mem_append_right _ (List.mem_map.mpr ⟨k, hk, rfl⟩))) .refl
  | .subscript value slice, hs =>
      rcases List.mem_cons.mp hs with rfl | hs
      · exact .child List.mem_cons_self .refl
      · have hslice : slice ∈ (Node.subscript value slice).children :=
          List.mem_cons_of_mem _ (List.mem_singleton_self _)
        refine .child hslice ?_
        unfold sliceSlots at hs
        split at hs
        · split at hs
          · obtain rfl := List.mem_singleton.mp hs
            exact .refl
          · obtain ⟨item, hmem, rfl⟩ := List.mem_map.mp hs
            exact .child hmem .refl
        · obtain rfl := List.mem_singleton.mp hs
          exact .refl
  | .list items, hs | .tuple items, hs =>
      obtain ⟨item, hmem, rfl⟩ := List.mem_map.mp hs
      exact .child hmem (within_itemSlot item)
  | .dict entries, hs =>
      obtain ⟨e, he, hs⟩ := List.mem_flatMap.mp hs
      refine .child (List.mem_flatMap.mpr ⟨e, he, ?_⟩) .refl
      cases e with
      | item key value =>
          simp only [entrySlots, List.mem_cons, List.not_mem_nil, or_false] at hs
          rcases hs with rfl | rfl <;> simp [Entry.values, inside]
      | unpacked value =>
          obtain rfl := List.mem_singleton.mp hs
          simp [Entry.values]
  | .unary op operand, hs =>
      obtain rfl := List.mem_singleton.mp hs
      exact .child (List.mem_singleton_self _) .refl
  | .binary left op right, hs =>
      simp only [slots, List.mem_cons, List.not_mem_nil, or_false] at hs
      rcases hs with rfl | rfl
      · exact .child List.mem_cons_self .refl
      · exact .child (List.mem_cons_of_mem _ (List.mem_singleton_self _)) .refl
  | .compare left links, hs =>
      rcases List.mem_cons.mp hs with rfl | hs
      · exact .child List.mem_cons_self .refl
      · obtain ⟨link, hlink, rfl⟩ := List.mem_map.mp hs
        exact .child (List.mem_cons_of_mem _ (List.mem_map.mpr ⟨link, hlink, rfl⟩)) .refl

theorem Contains.of_slot {t : Node} {s : Slot} (hs : s ∈ t.slots) (h : Contains P s.node) :
    Contains P t := by
  obtain ⟨u, hu, hPu⟩ := h
  exact ⟨u, hu.trans (within_of_slot hs), hPu⟩

/-- A flawed tree has a flaw of one of the kinds. -/
theorem flawed_iff {t : Node} :
    t.Flawed ↔ t.Contains IntegerBase ∨ t.Contains NotFinite ∨ t.Contains BareStar := by
  constructor
  · rintro ⟨u, hu, h | h | h⟩
    · exact Or.inl ⟨u, hu, h⟩
    · exact Or.inr (Or.inl ⟨u, hu, h⟩)
    · exact Or.inr (Or.inr ⟨u, hu, h⟩)
  · rintro (h | h | h)
    · exact h.mono fun _ => Or.inl
    · exact h.mono fun _ hu => Or.inr (Or.inl hu)
    · exact h.mono fun _ hu => Or.inr (Or.inr hu)

end Node

end CallSite
