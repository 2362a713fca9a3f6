import CallSite.Proofs.Resolution
import CallSite.Proofs.RoundTrip

/-!
# Shape — the trees that parsers return

A tree that was read has its stars where items stand, and its comparisons in chains
(`Node.WellShaped`).  This is read off the grammar: the slots of a derived tree are filled with
derived trees (`Node.Lawful`), and the nodes one step down are what fills them
(`Node.Lawful.successor`).

Resolution has two causes to fail, and a tree whose stars are in their places leaves it one of them
(`Node.blames_resolveWithin`).  So what was read is resolved unless it is too high.
-/

namespace CallSite

open Grammar

namespace Node

/-- Every star of a tree stands where items stand and in front of no other star, every chain has
    links, and the comparisons are those in the chains. -/
structure WellShaped (t : Node) : Prop where
  starsPlaced : t.StarsPlaced
  binary : ∀ {left right op}, Within (.binary left op right) t → op.isComparison = false
  compare : ∀ {left links}, Within (.compare left links) t →
    links ≠ [] ∧ ∀ link ∈ links, link.op.isComparison = true

/-! ## Steps down -/

/-- A node of a tree is the tree, a node of a tree one step down, or the star in front of one. -/
theorem within_cases {t u : Node} (h : Within u t) :
    u = t ∨ ∃ p ∈ t.successors, Within u p ∨ u = .starred p := by
  cases h with
  | refl => exact Or.inl rfl
  | @child c _ hc hu =>
      rcases mem_children.mp hc with hc | hc
      · exact Or.inr ⟨c, List.mem_append_left _ hc, Or.inl hu⟩
      · refine Or.inr ⟨c.unstarred, List.mem_append_right _ (List.mem_map_of_mem hc), ?_⟩
        cases c with
        | starred v =>
            cases hu with
            | refl => exact Or.inr rfl
            | child hc hu => exact Or.inl (List.mem_singleton.mp hc ▸ hu)
        | _ => exact Or.inl hu

theorem node_argumentSlot (t : Node) : t.argumentSlot.node = t.unstarred := by
  cases t <;> rfl

theorem node_itemSlot (t : Node) : t.itemSlot.node = t.unstarred := by
  cases t <;> rfl

/-- A slice is lawful if what stands between the brackets is. -/
theorem lawful_of_sliceSlots {slice : Node} (h : ∀ s ∈ slice.sliceSlots, s.node.Lawful) :
    slice.Lawful := by
  unfold sliceSlots at h
  split at h
  · rename_i item items
    by_cases hstar : (item :: items).any isStarred = true
    · rw [if_pos hstar] at h
      exact h _ (List.mem_singleton_self _)
    · -- without stars the items themselves stand there
      rw [if_neg hstar] at h
      refine .mk trivial (List.forall_mem_map.mpr fun t ht => ?_)
      have hlawful := h _ (List.mem_map_of_mem ht)
      rw [node_itemSlot]
      cases t with
      | starred v => exact absurd (List.any_eq_true.mpr ⟨_, ht, rfl⟩) hstar
      | _ => exact hlawful
  · exact h _ (List.mem_singleton_self _)

/-- One step down from a lawful tree are lawful trees. -/
theorem Lawful.successor {t : Node} (h : t.Lawful) : ∀ p ∈ t.successors, p.Lawful := by
  have hslots : ∀ s ∈ t.slots, s.node.Lawful := fun s hs => h.slot hs
  have hfitting := h.fitting
  match t, hslots, hfitting with
  | .name _, _, _ | .constant _, _, _ => exact List.forall_mem_nil _
  | .attribute value attr, hslots, _ =>
      exact List.forall_mem_singleton.mpr (hslots _ (List.mem_singleton_self _))
  | .call ⟨func, args, keywords⟩, hslots, _ =>
      obtain ⟨hfunc, hmore⟩ := List.forall_mem_cons.mp hslots
      obtain ⟨hargs, hkeywords⟩ := List.forall_mem_append.mp hmore
      refine List.forall_mem_append.mpr ⟨List.forall_mem_cons.mpr ⟨hfunc, ?_⟩, ?_⟩
      · exact List.forall_mem_map.mpr fun k hk => List.forall_mem_map.mp hkeywords k hk
      · exact List.forall_mem_map.mpr fun arg harg =>
          node_argumentSlot arg ▸ List.forall_mem_map.mp hargs arg harg
  | .subscript value slice, hslots, _ =>
      obtain ⟨hvalue, hslice⟩ := List.forall_mem_cons.mp hslots
      exact List.forall_mem_cons.mpr ⟨hvalue, List.forall_mem_singleton.mpr
        (lawful_of_sliceSlots hslice)⟩
  | .list items, hslots, _ | .tuple items, hslots, _ =>
      exact List.forall_mem_map.mpr fun item hitem =>
        node_itemSlot item ▸ List.forall_mem_map.mp hslots item hitem
  | .dict entries, hslots, _ =>
      refine List.forall_mem_append.mpr ⟨fun p hp => ?_, List.forall_mem_nil _⟩
      obtain ⟨entry, hentry, hp⟩ := List.mem_flatMap.mp hp
      have hentry (s : Slot) (hs : s ∈ entrySlots entry) : s.node.Lawful :=
        hslots s (List.mem_flatMap.mpr ⟨entry, hentry, hs⟩)
      cases entry with
      | item key value =>
          rcases List.mem_cons.mp hp with rfl | hp
          · exact hentry _ List.mem_cons_self
          · obtain rfl := List.mem_singleton.mp hp
            exact hentry _ (List.mem_cons_of_mem _ (List.mem_singleton_self _))
      | unpacked value =>
          obtain rfl := List.mem_singleton.mp hp
          exact hentry _ (List.mem_singleton_self _)
  | .unary op operand, hslots, _ =>
      exact List.forall_mem_singleton.mpr (hslots _ (List.mem_singleton_self _))
  | .binary left op right, hslots, _ =>
      obtain ⟨hleft, hright⟩ := List.forall_mem_cons.mp hslots
      exact List.forall_mem_cons.mpr ⟨hleft, List.forall_mem_singleton.mpr
        (hright _ (List.mem_singleton_self _))⟩
  | .compare left links, hslots, _ =>
      obtain ⟨hleft, hlinks⟩ := List.forall_mem_cons.mp hslots
      refine List.forall_mem_append.mpr ⟨List.forall_mem_cons.mpr ⟨hleft, ?_⟩,
        List.forall_mem_nil _⟩
      exact List.forall_mem_map.mpr fun link hlink => List.forall_mem_map.mp hlinks link hlink
  | .starred v, _, hfitting => exact hfitting.elim

/-- What holds of a tree when it holds of the trees one step down holds of all trees. -/
@[elab_as_elim]
theorem successorInduction {motive : Node → Prop}
    (step : ∀ t, (∀ p ∈ t.successors, motive p) → motive t) (t : Node) : motive t :=
  step t fun p _hp => successorInduction step p
termination_by sizeOf t
decreasing_by exact sizeOf_successor_lt _hp

/-- In a lawful tree every node fits, apart from the stars. -/
theorem Lawful.within {t : Node} (h : t.Lawful) {u : Node} (hu : Within u t) :
    u.isStarred = true ∨ u.Fitting := by
  induction t using successorInduction with
  | step t ih =>
      rcases within_cases hu with rfl | ⟨p, hp, hu | rfl⟩
      · exact Or.inr h.fitting
      · exact ih p hp (h.successor p hp) hu
      · exact Or.inl rfl

theorem Lawful.starsPlaced {t : Node} (h : t.Lawful) : t.StarsPlaced := by
  induction t using successorInduction with
  | step t ih => exact starsPlaced_iff.mpr ⟨h.isStarred, fun p hp => ih p hp (h.successor p hp)⟩

theorem Lawful.wellShaped {t : Node} (h : t.Lawful) : t.WellShaped where
  starsPlaced := h.starsPlaced
  binary := fun hu => (h.within hu).resolve_left nofun
  compare := fun hu => (h.within hu).resolve_left nofun

/-- What a parser returns is well shaped. -/
theorem wellShaped_of_nodeWithin {depth : Nat} {c c' : Cursor} {t : Node}
    (h : Parser.nodeWithin depth c = .ok t c') : t.WellShaped := by
  obtain ⟨ts, -, hderives⟩ := Parser.expression_sound (Parser.operand_recognizes depth) h
  have htext : Seat.Text (Derives depth) (.nested 0) ts t := hderives
  exact (lawful_of_text htext).wellShaped

end Node

/-! ## Faults of a resolution -/

/-- A resolution succeeds or has a fault of some kind. -/
def Resolved.Blames {α : Type} (F : ResolutionFault → Prop) (r : Resolved α) : Prop :=
  ∀ e, r = .error e → F e.fault

section

variable {α β : Type} {F : ResolutionFault → Prop}

theorem Resolved.blames_ok (a : α) : Blames F (.ok a : Resolved α) := fun _ => nofun

theorem Resolved.Blames.bind {r : Resolved α} {f : α → Resolved β} (h : Blames F r)
    (hf : ∀ a, Blames F (f a)) : Blames F (r >>= f) := by
  cases r with
  | ok a => exact hf a
  | error e =>
      intro e' he
      obtain rfl := Except.error.inj he
      exact h e rfl

theorem Resolved.Blames.map {r : Resolved α} {f : α → β} (h : Blames F r) : Blames F (f <$> r) := by
  cases r with
  | ok a => exact Resolved.blames_ok (f a)
  | error e =>
      intro e' he
      obtain rfl := Except.error.inj he
      exact h e rfl

theorem Resolved.Blames.within {context : ResolutionContext} {r : Resolved α} (h : Blames F r) :
    Blames F (r.within context) := by
  cases r with
  | ok a => exact Resolved.blames_ok a
  | error e =>
      intro e' he
      obtain rfl := Except.error.inj he
      exact h e rfl

theorem Resolved.Blames.mapM {f : α → Resolved β} {as : List α} (h : ∀ a ∈ as, Blames F (f a)) :
    Blames F (as.mapM f) := by
  induction as with
  | nil => exact Resolved.blames_ok []
  | cons a as ih =>
      obtain ⟨ha, has⟩ := List.forall_mem_cons.mp h
      rw [List.mapM_cons]
      exact ha.bind fun _ => (ih has).bind fun _ => Resolved.blames_ok _

end

namespace Node

open Resolved

section

variable {scope : Scope} {sub : Node → Resolved Expr} {F : ResolutionFault → Prop}

theorem blames_resolveItem {item : Node} (h : Blames F (sub item.unstarred)) :
    Blames F (resolveItem sub item) := by
  cases item with
  | starred v => exact h.map
  | _ => exact h

theorem blames_resolveKeyword {k : Keyword Node} (h : Blames F (sub k.value)) :
    Blames F (resolveKeyword sub k) := by
  cases k with
  | named id value | unpacked value => exact h.within.map

theorem blames_resolveEntry {entry : Entry Node} (h : ∀ p ∈ entry.values, Blames F (sub p)) :
    Blames F (resolveEntry sub entry) := by
  cases entry with
  | item key value =>
      have hvalue := h value (List.mem_cons_of_mem _ (List.mem_singleton_self _))
      exact (h key List.mem_cons_self).bind fun _ => hvalue.bind fun _ => blames_ok _
  | unpacked value => exact (h value (List.mem_singleton_self _)).map

theorem blames_resolveItems {items : List Node}
    (h : ∀ p ∈ items.map unstarred, Blames F (sub p)) : Blames F (items.mapM (resolveItem sub)) :=
  .mapM fun _ hitem => blames_resolveItem (h _ (List.mem_map_of_mem hitem))

theorem blames_resolveCall {site : Call Node}
    (h : ∀ p ∈ (Node.call site).successors, Blames F (sub p)) :
    Blames F (resolveCall sub site) := by
  obtain ⟨func, args, keywords⟩ := site
  obtain ⟨hoperands, hitems⟩ := List.forall_mem_append.mp h
  obtain ⟨hfunc, hkeywords⟩ := List.forall_mem_cons.mp hoperands
  refine hfunc.within.bind fun _ => Blames.bind (.mapM fun x hx => ?_) fun _ =>
    Blames.bind (.mapM fun k hk => ?_) fun _ => blames_ok _
  · have harg : x.1 ∈ args := (List.mem_zipIdx hx).2.2 ▸ List.getElem_mem _
    exact (blames_resolveItem (hitems _ (List.mem_map_of_mem harg))).within
  · exact blames_resolveKeyword (hkeywords _ (List.mem_map_of_mem hk))

/-- A node without a star has the faults of the nodes one step down. -/
theorem blames_resolveWith {t : Node} (ht : t.isStarred = false)
    (h : ∀ p ∈ t.successors, Blames F (sub p)) : Blames F (t.resolveWith scope sub) := by
  match t, ht, h with
  | .name id, _, _ => exact blames_ok _
  | .constant value, _, _ => exact blames_ok _
  | .attribute value attr, _, h =>
      exact (h value List.mem_cons_self).within.bind fun _ => blames_ok _
  | .call site, _, h => exact blames_resolveCall h
  | .subscript value slice, _, h =>
      have hslice := h slice (List.mem_cons_of_mem _ List.mem_cons_self)
      exact (h value List.mem_cons_self).bind fun _ => hslice.within.bind fun _ => blames_ok _
  | .list items, _, h | .tuple items, _, h =>
      have hitems : Blames F (items.mapM (resolveItem sub)) := blames_resolveItems h
      exact hitems.map
  | .dict entries, _, h =>
      have hentries : Blames F (entries.mapM (resolveEntry sub)) := .mapM fun entry hentry =>
        blames_resolveEntry fun p hp =>
          h p (List.mem_append_left _ (List.mem_flatMap.mpr ⟨entry, hentry, hp⟩))
      exact hentries.map
  | .unary op operand, _, h => exact (h operand List.mem_cons_self).map
  | .binary left op right, _, h =>
      have hright := h right (List.mem_cons_of_mem _ List.mem_cons_self)
      exact (h left List.mem_cons_self).bind fun _ => hright.bind fun _ => blames_ok _
  | .compare left links, _, h =>
      obtain ⟨hleft, hlinks⟩ := List.forall_mem_cons.mp (List.forall_mem_append.mp h).1
      have hmore : Blames F (links.mapM (resolveLink sub)) := .mapM fun link hlink =>
        Blames.map (hlinks _ (List.mem_map_of_mem hlink))
      exact hleft.bind fun _ => hmore.bind fun _ => blames_ok _

end

/-- A tree whose stars are in their places fails only because it is too high. -/
theorem blames_resolveWithin (scope : Scope) (depth : Nat) {t : Node} (h : t.StarsPlaced) :
    Blames (· = .nestedTooDeeply) (t.resolveWithin scope depth) := by
  induction depth generalizing t with
  | zero =>
      -- no level is left, and that is the fault
      intro e he
      obtain rfl := Except.error.inj he
      rfl
  | succ depth ih =>
      obtain ⟨hroot, hsuccessors⟩ := starsPlaced_iff.mp h
      exact blames_resolveWith hroot fun p hp => ih (hsuccessors p hp)

/-- Whatever a parser returns, from any place in any list of tokens, is well shaped.  So the tree of
    a source text is resolved in every scope if it is not too high, and if it is, the last thing
    that the error says is that the expression is nested too deeply. -/
theorem resolve_of_parsed :
    (∀ (c c' : Cursor) (t : Node), Parser.node c = .ok t c' ∨ Parser.complete c = .ok t c' →
      t.WellShaped)
    ∧ ∀ (src : String) (t : Node) (scope : Scope), Node.ofSource src = .ok t →
      (t.height ≤ maxDepth ∧ ∃ e, t.resolve scope = .ok e)
      ∨ maxDepth < t.height ∧ ∃ e, t.resolve scope = .error e
        ∧ e.chain.getLast? = some "expression nested too deeply" := by
  have hshaped {c c' : Cursor} {t : Node}
      (h : Parser.node c = .ok t c' ∨ Parser.complete c = .ok t c') : t.WellShaped := by
    rcases h with h | h
    · exact wellShaped_of_nodeWithin h
    · obtain ⟨u, m, hread, h⟩ := Parser.bind_eq_ok.mp h
      rw [Parser.peek_bind] at h
      by_cases heof : m.token = .eof
      · rw [if_pos heof] at h
        obtain ⟨rfl, rfl⟩ := Parser.pure_eq_ok.mp h
        exact wellShaped_of_nodeWithin hread
      · rw [if_neg heof] at h
        exact absurd h (by simp)
  refine ⟨fun c c' t => hshaped, ?_⟩
  intro src t scope h
  have hplaced : t.StarsPlaced := (sourced_of_ofSource h).lawful.starsPlaced
  rcases Nat.lt_or_ge maxDepth t.height with hheight | hheight
  · -- a tree that is too high has no expression, and its stars are not to blame
    cases hresolve : t.resolve scope with
    | ok e =>
        obtain ⟨-, hle, -⟩ := resolveWithin_eq_ok_iff.mp hresolve
        exact absurd hheight (Nat.not_lt.mpr hle)
    | error e =>
        have hfault : e.fault = .nestedTooDeeply :=
          blames_resolveWithin scope maxDepth hplaced e hresolve
        refine Or.inr ⟨hheight, e, rfl, ?_⟩
        rw [ResolutionError.chain, hfault, List.getLast?_concat]
        rfl
  · exact Or.inl ⟨hheight, _, resolveWithin_eq_ok_iff.mpr ⟨hplaced, hheight, rfl⟩⟩

/-- A star among arguments is no obstacle in front of a chain. -/
theorem resolve_of_parsed_starred :
    let t : Node := .compare (.call ⟨.name "f", [.starred (.name "a")], []⟩) [⟨.lt, .name "b"⟩]
    Node.ofSource "f(*a) < b" = .ok t ∧ t.WellShaped
      ∧ ((t.height ≤ maxDepth ∧ ∃ e, t.resolve (.ofModule "m") = .ok e)
        ∨ maxDepth < t.height ∧ ∃ e, t.resolve (.ofModule "m") = .error e
          ∧ e.chain.getLast? = some "expression nested too deeply") := by
  intro t
  have htokens : tokenize "f(*a) < b" = .ok [⟨.ident "f", ⟨1, 1⟩⟩, ⟨.mark .leftParen, ⟨1, 2⟩⟩,
      ⟨.mark .star, ⟨1, 3⟩⟩, ⟨.ident "a", ⟨1, 4⟩⟩, ⟨.mark .rightParen, ⟨1, 5⟩⟩,
      ⟨.mark .less, ⟨1, 7⟩⟩, ⟨.ident "b", ⟨1, 9⟩⟩, ⟨.eof, ⟨1, 10⟩⟩] := by
    decide +kernel
  have hparsed : Parser.complete (.ofTokens [⟨.ident "f", ⟨1, 1⟩⟩, ⟨.mark .leftParen, ⟨1, 2⟩⟩,
      ⟨.mark .star, ⟨1, 3⟩⟩, ⟨.ident "a", ⟨1, 4⟩⟩, ⟨.mark .rightParen, ⟨1, 5⟩⟩,
      ⟨.mark .less, ⟨1, 7⟩⟩, ⟨.ident "b", ⟨1, 9⟩⟩, ⟨.eof, ⟨1, 10⟩⟩])
      = .ok t ⟨[⟨.eof, ⟨1, 10⟩⟩], ⟨1, 10⟩⟩ := rfl
  have hread : Node.ofSource "f(*a) < b" = .ok t := by
    simp only [Node.ofSource, htokens, bind, Except.bind, Parser.onTokens, hparsed]
  obtain ⟨hshaped, hresolved⟩ := resolve_of_parsed
  exact ⟨hread, hshaped _ _ _ (Or.inr hparsed), hresolved _ _ _ hread⟩

end Node

end CallSite
