import CallSite.Proofs.Tree.Image
import CallSite.Proofs.Tree.Occurrence
import CallSite.Proofs.Tree.Source

/-!
# Resolution — which trees are resolved, and to what

A tree is resolved if every star in it stands where items stand and if it is not too high.  What it
is resolved to is its image in the scope (`Node.resolveWithin_eq_ok_iff`).  The height counts the
nodes on a way down and leaves out the stars of items, because a starred item and its operand are
resolved in one step: the successors of a node are the nodes that are resolved one step later
(`Node.successors`).
-/

namespace CallSite

namespace Node

/-! ## Places of stars -/

/-- The children that are items, where a star may stand. -/
def items : Node → List Node
  | .call ⟨_, args, _⟩ => args
  | .list items | .tuple items => items
  | _ => []

/-- The other children. -/
def operands : Node → List Node
  | .attribute value _ | .unary _ value | .starred value => [value]
  | .call ⟨func, _, keywords⟩ => func :: keywords.map Keyword.value
  | .subscript left right | .binary left _ right => [left, right]
  | .dict entries => entries.flatMap Entry.values
  | .compare left links => left :: links.map Link.operand
  | .name _ | .constant _ | .list _ | .tuple _ => []

theorem mem_children {c t : Node} : c ∈ t.children ↔ c ∈ t.operands ∨ c ∈ t.items := by
  cases t with
  | call site =>
      obtain ⟨func, args, keywords⟩ := site
      simp only [children, operands, items, List.mem_cons, List.mem_append]
      exact (or_congr_right or_comm).trans or_assoc.symm
  | _ => simp [children, operands, items]

/-- Every starred node of a tree is an item. -/
def StarsPlaced (t : Node) : Prop :=
  t.isStarred = false ∧ ∀ u, Within u t → ∀ c ∈ u.operands, c.isStarred = false

/-! ## Steps down -/

/-- The node without the star around it. -/
def unstarred : Node → Node
  | .starred value => value
  | t => t

/-- The nodes that are resolved one step later: the operands, and the items without their stars. -/
def successors (t : Node) : List Node := t.operands ++ t.items.map unstarred

theorem sizeOf_child_lt {c t : Node} (h : c ∈ t.children) : sizeOf c < sizeOf t := by
  match t, h with
  | .attribute value attr, h =>
      obtain rfl := List.mem_singleton.mp h
      simp +arith
  | .call ⟨func, args, keywords⟩, h =>
      rcases List.mem_cons.mp h with rfl | h
      · simp +arith
      rcases List.mem_append.mp h with h | h
      · have := List.sizeOf_lt_of_mem h
        simp only [call.sizeOf_spec, Call.mk.sizeOf_spec]
        omega
      · obtain ⟨k, hk, rfl⟩ := List.mem_map.mp h
        have := sizeOf_keyword_lt k
        have := List.sizeOf_lt_of_mem hk
        simp only [call.sizeOf_spec, Call.mk.sizeOf_spec]
        omega
  | .subscript left right, h | .binary left _ right, h =>
      simp only [children, List.mem_cons, List.not_mem_nil, or_false] at h
      rcases h with rfl | rfl <;> simp +arith
  | .list items, h | .tuple items, h =>
      have : sizeOf c < sizeOf items := List.sizeOf_lt_of_mem h
      simp only [list.sizeOf_spec, tuple.sizeOf_spec]
      omega
  | .dict entries, h =>
      obtain ⟨e, he, hc⟩ := List.mem_flatMap.mp h
      have := List.sizeOf_lt_of_mem he
      have : sizeOf c < sizeOf e := by
        cases e with
        | item key value =>
            simp only [Entry.values, List.mem_cons, List.not_mem_nil, or_false] at hc
            rcases hc with rfl | rfl <;> simp +arith
        | unpacked value =>
            obtain rfl := List.mem_singleton.mp hc
            simp +arith
      simp only [dict.sizeOf_spec]
      omega
  | .unary op operand, h =>
      obtain rfl := List.mem_singleton.mp h
      simp +arith
  | .compare left links, h =>
      rcases List.mem_cons.mp h with rfl | h
      · simp +arith
      · obtain ⟨link, hlink, rfl⟩ := List.mem_map.mp h
        have := sizeOf_link_lt link
        have := List.sizeOf_lt_of_mem hlink
        simp only [compare.sizeOf_spec]
        omega
  | .starred value, h =>
      obtain rfl := List.mem_singleton.mp h
      simp +arith

theorem sizeOf_unstarred_le (t : Node) : sizeOf t.unstarred ≤ sizeOf t := by
  cases t <;> simp +arith [unstarred]

theorem sizeOf_successor_lt {p t : Node} (h : p ∈ t.successors) : sizeOf p < sizeOf t := by
  rcases List.mem_append.mp h with h | h
  · exact sizeOf_child_lt (mem_children.mpr (.inl h))
  · obtain ⟨item, hitem, rfl⟩ := List.mem_map.mp h
    exact Nat.lt_of_le_of_lt (sizeOf_unstarred_le item)
      (sizeOf_child_lt (mem_children.mpr (.inr hitem)))

/-- How many nodes there are at most on a way down, without the stars of items. -/
def height (t : Node) : Nat := (t.successors.attach.map fun p => p.val.height).foldr max 0 + 1
termination_by sizeOf t
decreasing_by exact sizeOf_successor_lt p.property

theorem height_pos (t : Node) : 0 < t.height := by
  rw [height]
  exact Nat.succ_pos _

theorem height_le_succ {t : Node} {n : Nat} :
    t.height ≤ n + 1 ↔ ∀ p ∈ t.successors, p.height ≤ n := by
  rw [height, Nat.add_le_add_iff_right, foldr_max_le]
  simp

/-- The stars of a tree are in their places if and only if there is none around it and those of its
    successors are. -/
theorem starsPlaced_iff {t : Node} :
    t.StarsPlaced ↔ t.isStarred = false ∧ ∀ p ∈ t.successors, p.StarsPlaced := by
  constructor
  · rintro ⟨hroot, hwithin⟩
    refine ⟨hroot, fun p hp => ?_⟩
    rcases List.mem_append.mp hp with hp | hp
    · have hchild := mem_children.mpr (.inl hp)
      exact ⟨hwithin t .refl p hp, fun u hu => hwithin u (.child hchild hu)⟩
    · obtain ⟨item, hitem, rfl⟩ := List.mem_map.mp hp
      have hchild := mem_children.mpr (.inr hitem)
      cases item with
      | starred v =>
          have hv : v ∈ (Node.starred v).operands := List.mem_singleton_self v
          exact ⟨hwithin _ (.child hchild .refl) v hv, fun u hu =>
            hwithin u (.child hchild (.child (mem_children.mpr (.inl hv)) hu))⟩
      | _ => exact ⟨rfl, fun u hu => hwithin u (.child hchild hu)⟩
  · rintro ⟨hroot, hsuccessors⟩
    refine ⟨hroot, fun u hu => ?_⟩
    cases hu with
    | refl => exact fun c hc => (hsuccessors c (List.mem_append_left _ hc)).1
    | @child c _ hc hu =>
        rcases mem_children.mp hc with hc | hc
        · exact (hsuccessors c (List.mem_append_left _ hc)).2 u hu
        · have hplaced := hsuccessors _ (List.mem_append_right _ (List.mem_map_of_mem hc))
          cases c with
          | starred v =>
              -- the star is an item, and below it stands what is behind it
              cases hu with
              | refl => exact fun c hc => List.mem_singleton.mp hc ▸ hplaced.1
              | child hc hu => exact hplaced.2 u (List.mem_singleton.mp hc ▸ hu)
          | _ => exact hplaced.2 u hu

/-! ## Resolution of a node -/

variable {scope : Scope} {sub : Node → Resolved Expr}

/-- An item is resolved to its image if what is behind its star is. -/
theorem resolveItem_image {item : Node}
    (h : sub item.unstarred = .ok (item.unstarred.image scope)) :
    resolveItem sub item = .ok (item.image scope) := by
  cases item with
  | starred v =>
      rw [unstarred] at h
      rw [resolveItem, h]
      rfl
  | _ => exact h

theorem resolveItems_image {items : List Node}
    (h : ∀ p ∈ items.map unstarred, sub p = .ok (p.image scope)) :
    items.mapM (resolveItem sub) = .ok (imageOfEach scope items) := by
  rw [imageOfEach_eq]
  exact Resolved.mapM_of_ok fun item hitem => resolveItem_image (h _ (List.mem_map_of_mem hitem))

theorem resolveKeywords_image {keywords : List (Keyword Node)}
    (h : ∀ p ∈ keywords.map Keyword.value, sub p = .ok (p.image scope)) :
    keywords.mapM (resolveKeyword sub) = .ok (imageOfKeywords scope keywords) := by
  induction keywords with
  | nil => rfl
  | cons k keywords ih =>
      obtain ⟨hvalue, hmore⟩ := List.forall_mem_cons.mp h
      rw [List.mapM_cons, ih hmore]
      cases k with
      | named id value =>
          rw [Keyword.value] at hvalue
          rw [resolveKeyword, hvalue]
          rfl
      | unpacked value =>
          rw [Keyword.value] at hvalue
          rw [resolveKeyword, hvalue]
          rfl

theorem resolveEntries_image {entries : List (Entry Node)}
    (h : ∀ p ∈ entries.flatMap Entry.values, sub p = .ok (p.image scope)) :
    entries.mapM (resolveEntry sub) = .ok (imageOfEntries scope entries) := by
  induction entries with
  | nil => rfl
  | cons entry entries ih =>
      rw [List.flatMap_cons] at h
      obtain ⟨hentry, hmore⟩ := List.forall_mem_append.mp h
      rw [List.mapM_cons, ih hmore]
      cases entry with
      | item key value =>
          rw [resolveEntry, hentry key List.mem_cons_self,
            hentry value (List.mem_cons_of_mem _ List.mem_cons_self)]
          rfl
      | unpacked value =>
          rw [resolveEntry, hentry value List.mem_cons_self]
          rfl

theorem resolveLinks_image {links : List (Link Node)}
    (h : ∀ p ∈ links.map Link.operand, sub p = .ok (p.image scope)) :
    links.mapM (resolveLink sub) = .ok (imageOfLinks scope links) := by
  induction links with
  | nil => rfl
  | cons link links ih =>
      obtain ⟨hoperand, hmore⟩ := List.forall_mem_cons.mp h
      rw [List.mapM_cons, ih hmore, resolveLink, hoperand]
      rfl

/-- What is called, the positional arguments and the keyword arguments are resolved one after the
    other. -/
theorem resolveCall_image {site : Call Node}
    (h : ∀ p ∈ (Node.call site).successors, sub p = .ok (p.image scope)) :
    resolveCall sub site = .ok ((Node.call site).image scope) := by
  obtain ⟨func, args, keywords⟩ := site
  obtain ⟨hoperands, hitems⟩ := List.forall_mem_append.mp h
  obtain ⟨hfunc, hkeywords⟩ := List.forall_mem_cons.mp hoperands
  have hargs : args.zipIdx.mapM (fun x : Node × Nat =>
      (resolveItem sub x.1).within (.argument x.2)) = .ok (imageOfEach scope args) := by
    have hmap : args.map (image scope) = args.zipIdx.map fun x => x.1.image scope :=
      (congrArg (List.map (image scope)) (List.zipIdx_map_fst ..)).symm.trans List.map_map
    rw [imageOfEach_eq, hmap]
    refine Resolved.mapM_of_ok fun x hx => ?_
    have harg : x.1 ∈ args := (List.mem_zipIdx hx).2.2 ▸ List.getElem_mem _
    rw [resolveItem_image (hitems _ (List.mem_map_of_mem harg))]
    rfl
  rw [resolveCall, hfunc]
  show ((args.zipIdx.mapM fun x : Node × Nat =>
    (resolveItem sub x.1).within (.argument x.2)) >>= _) = _
  rw [hargs]
  show ((keywords.mapM (resolveKeyword sub)) >>= _) = _
  rw [resolveKeywords_image hkeywords]
  rfl

/-- A node without a star is converted. -/
theorem resolveWith_eq_convertWith {t : Node} (ht : t.isStarred = false) :
    t.resolveWith scope sub = t.convertWith scope sub := by
  cases t with
  | starred v => exact absurd ht nofun
  | _ => rfl

/-- A node whose successors are resolved to their images is resolved to its own. -/
theorem resolveWith_image {t : Node} (ht : t.isStarred = false)
    (h : ∀ p ∈ t.successors, sub p = .ok (p.image scope)) :
    t.resolveWith scope sub = .ok (t.image scope) := by
  rw [resolveWith_eq_convertWith ht]
  match t, ht, h with
  | .name id, _, _ => rfl
  | .constant value, _, _ => rfl
  | .attribute value attr, _, h =>
      rw [convertWith, h value List.mem_cons_self]
      rfl
  | .call site, _, h => exact resolveCall_image h
  | .subscript value slice, _, h =>
      rw [convertWith, h value List.mem_cons_self,
        h slice (List.mem_cons_of_mem _ List.mem_cons_self)]
      rfl
  | .list items, _, h | .tuple items, _, h =>
      have hitems : items.mapM (resolveItem sub) = .ok (imageOfEach scope items) :=
        resolveItems_image h
      rw [convertWith, hitems]
      rfl
  | .dict entries, _, h =>
      rw [convertWith, resolveEntries_image (List.forall_mem_append.mp h).1]
      rfl
  | .unary op operand, _, h =>
      rw [convertWith, h operand List.mem_cons_self]
      rfl
  | .binary left op right, _, h =>
      rw [convertWith, h left List.mem_cons_self,
        h right (List.mem_cons_of_mem _ List.mem_cons_self)]
      rfl
  | .compare left links, _, h =>
      obtain ⟨hleft, hlinks⟩ := List.forall_mem_cons.mp (List.forall_mem_append.mp h).1
      rw [convertWith, hleft, resolveLinks_image hlinks]
      rfl

theorem ok_of_resolveItem {item : Node} {e : Expr} (h : resolveItem sub item = .ok e) :
    ∃ e, sub item.unstarred = .ok e := by
  cases item with
  | starred v =>
      obtain ⟨e, he, -⟩ := Resolved.map_eq_ok.mp h
      exact ⟨e, he⟩
  | _ => exact ⟨e, h⟩

theorem ok_of_resolveItems {items : List Node} {es : List Expr}
    (h : items.mapM (resolveItem sub) = .ok es) :
    ∀ p ∈ items.map unstarred, ∃ e, sub p = .ok e := by
  refine List.forall_mem_map.mpr fun item hitem => ?_
  obtain ⟨e, he⟩ := Resolved.ok_of_mapM h item hitem
  exact ok_of_resolveItem he

theorem ok_of_resolveKeyword {k : Keyword Node} {e : Expr} (h : resolveKeyword sub k = .ok e) :
    ∃ e, sub k.value = .ok e := by
  cases k with
  | named id value | unpacked value =>
      obtain ⟨e, he, -⟩ := Resolved.map_eq_ok.mp h
      exact ⟨e, Resolved.within_eq_ok.mp he⟩

theorem ok_of_resolveEntry {entry : Entry Node} {e : Entry Expr}
    (h : resolveEntry sub entry = .ok e) : ∀ p ∈ entry.values, ∃ e, sub p = .ok e := by
  cases entry with
  | item key value =>
      obtain ⟨k, hk, h⟩ := Resolved.bind_eq_ok.mp h
      obtain ⟨v, hv, -⟩ := Resolved.bind_eq_ok.mp h
      exact List.forall_mem_cons.mpr ⟨⟨k, hk⟩, List.forall_mem_singleton.mpr ⟨v, hv⟩⟩
  | unpacked value =>
      obtain ⟨v, hv, -⟩ := Resolved.map_eq_ok.mp h
      exact List.forall_mem_singleton.mpr ⟨v, hv⟩

theorem ok_of_resolveCall {site : Call Node} {e : Expr} (h : resolveCall sub site = .ok e) :
    ∀ p ∈ (Node.call site).successors, ∃ e, sub p = .ok e := by
  obtain ⟨func, args, keywords⟩ := site
  obtain ⟨f, hf, h⟩ := Resolved.bind_eq_ok.mp h
  obtain ⟨as, has, h⟩ := Resolved.bind_eq_ok.mp h
  obtain ⟨ks, hks, -⟩ := Resolved.bind_eq_ok.mp h
  refine List.forall_mem_append.mpr
    ⟨List.forall_mem_cons.mpr ⟨⟨f, Resolved.within_eq_ok.mp hf⟩, ?_⟩, ?_⟩
  · refine List.forall_mem_map.mpr fun k hk => ?_
    obtain ⟨e, he⟩ := Resolved.ok_of_mapM hks k hk
    exact ok_of_resolveKeyword he
  · refine List.forall_mem_map.mpr fun arg harg => ?_
    obtain ⟨i, hi, rfl⟩ := List.getElem_of_mem harg
    obtain ⟨e, he⟩ := Resolved.ok_of_mapM has (args[i], i) (List.mem_zipIdx_iff_getElem?.mpr
      (List.getElem?_eq_getElem hi))
    exact ok_of_resolveItem (Resolved.within_eq_ok.mp he)

/-- A node that is resolved has no star, and all its successors are resolved. -/
theorem ok_of_resolveWith {t : Node} {e : Expr} (h : t.resolveWith scope sub = .ok e) :
    t.isStarred = false ∧ ∀ p ∈ t.successors, ∃ e, sub p = .ok e := by
  match t, h with
  | .name _, _ | .constant _, _ => exact ⟨rfl, List.forall_mem_nil _⟩
  | .attribute value attr, h =>
      obtain ⟨v, hv, -⟩ := Resolved.bind_eq_ok.mp h
      exact ⟨rfl, List.forall_mem_singleton.mpr ⟨v, Resolved.within_eq_ok.mp hv⟩⟩
  | .call site, h => exact ⟨rfl, ok_of_resolveCall h⟩
  | .subscript value slice, h =>
      obtain ⟨v, hv, h⟩ := Resolved.bind_eq_ok.mp h
      obtain ⟨s, hs, -⟩ := Resolved.bind_eq_ok.mp h
      exact ⟨rfl, List.forall_mem_cons.mpr ⟨⟨v, hv⟩,
        List.forall_mem_singleton.mpr ⟨s, Resolved.within_eq_ok.mp hs⟩⟩⟩
  | .list items, h | .tuple items, h =>
      obtain ⟨es, hes, -⟩ := Resolved.map_eq_ok.mp h
      exact ⟨rfl, ok_of_resolveItems hes⟩
  | .dict entries, h =>
      obtain ⟨es, hes, -⟩ := Resolved.map_eq_ok.mp h
      refine ⟨rfl, List.forall_mem_append.mpr ⟨fun p hp => ?_, List.forall_mem_nil _⟩⟩
      obtain ⟨entry, hentry, hp⟩ := List.mem_flatMap.mp hp
      obtain ⟨e, he⟩ := Resolved.ok_of_mapM hes entry hentry
      exact ok_of_resolveEntry he p hp
  | .unary op operand, h =>
      obtain ⟨o, ho, -⟩ := Resolved.map_eq_ok.mp h
      exact ⟨rfl, List.forall_mem_singleton.mpr ⟨o, ho⟩⟩
  | .binary left op right, h =>
      obtain ⟨l, hl, h⟩ := Resolved.bind_eq_ok.mp h
      obtain ⟨r, hr, -⟩ := Resolved.bind_eq_ok.mp h
      exact ⟨rfl, List.forall_mem_cons.mpr ⟨⟨l, hl⟩, List.forall_mem_singleton.mpr ⟨r, hr⟩⟩⟩
  | .compare left links, h =>
      obtain ⟨l, hl, h⟩ := Resolved.bind_eq_ok.mp h
      obtain ⟨ls, hls, -⟩ := Resolved.bind_eq_ok.mp h
      refine ⟨rfl, List.forall_mem_append.mpr ⟨List.forall_mem_cons.mpr ⟨⟨l, hl⟩, ?_⟩,
        List.forall_mem_nil _⟩⟩
      refine List.forall_mem_map.mpr fun link hlink => ?_
      obtain ⟨k, hk⟩ := Resolved.ok_of_mapM hls link hlink
      obtain ⟨e, he, -⟩ := Resolved.map_eq_ok.mp hk
      exact ⟨e, he⟩
  | .starred v, h => exact absurd h nofun

/-! ## Resolution of a tree -/

/-- Within a depth just the trees are resolved whose stars are in their places and that are no
    higher than that, and they are resolved to their images. -/
theorem resolveWithin_eq_ok_iff {depth : Nat} {t : Node} {e : Expr} :
    t.resolveWithin scope depth = .ok e
      ↔ t.StarsPlaced ∧ t.height ≤ depth ∧ e = t.image scope := by
  induction depth generalizing t e with
  | zero =>
      constructor
      · intro h
        exact absurd h nofun
      · rintro ⟨-, hheight, -⟩
        exact absurd t.height_pos (Nat.not_lt.mpr hheight)
  | succ depth ih =>
      rw [resolveWithin, starsPlaced_iff, height_le_succ]
      constructor
      · intro h
        obtain ⟨ht, hsuccessors⟩ := ok_of_resolveWith h
        have hsuccessor {p : Node} (hp : p ∈ t.successors) : p.StarsPlaced ∧ p.height ≤ depth := by
          obtain ⟨e, he⟩ := hsuccessors p hp
          obtain ⟨hplaced, hheight, -⟩ := ih.mp he
          exact ⟨hplaced, hheight⟩
        have himage := resolveWith_image ht fun p hp =>
          ih.mpr ⟨(hsuccessor hp).1, (hsuccessor hp).2, rfl⟩
        exact ⟨⟨ht, fun p hp => (hsuccessor hp).1⟩, fun p hp => (hsuccessor hp).2,
          Except.ok.inj (h.symm.trans himage)⟩
      · rintro ⟨⟨ht, hplaced⟩, hheight, rfl⟩
        exact resolveWith_image ht fun p hp => ih.mpr ⟨hplaced p hp, hheight p hp, rfl⟩

/-- In a scope just the trees are resolved whose stars are in their places and that are at most as
    high as the deepest that is resolved.  What comes of such a tree is that tree again when its
    paths are dropped, every name in it carries the path that the scope gives it, and its source
    text is the same in every scope. -/
theorem resolve_faithful (t : Node) (scope : Scope) :
    ((∃ e, t.resolve scope = .ok e) ↔ t.StarsPlaced ∧ t.height ≤ maxDepth)
      ∧ ∀ e, t.resolve scope = .ok e → e.node? = some t
        ∧ (∀ x ∈ e.names, x.2 = scope.resolve x.1)
        ∧ ∀ scope' e', t.resolve scope' = .ok e' → e'.source = e.source := by
  constructor
  · constructor
    · rintro ⟨e, he⟩
      obtain ⟨hplaced, hheight, -⟩ := resolveWithin_eq_ok_iff.mp he
      exact ⟨hplaced, hheight⟩
    · rintro ⟨hplaced, hheight⟩
      exact ⟨_, resolveWithin_eq_ok_iff.mpr ⟨hplaced, hheight, rfl⟩⟩
  · intro e he
    obtain ⟨-, -, himage⟩ := resolveWithin_eq_ok_iff.mp he
    refine ⟨?_, ?_, fun scope' e' he' => ?_⟩
    · rw [himage, node?_image]
    · rw [himage]
      exact names_image scope t
    · rw [source_of_resolve he', source_of_resolve he]

/-- A call with a starred argument, a keyword argument and an expansion comes out whole. -/
theorem resolve_faithful_call :
    let t : Node := .call ⟨.name "f", [.starred (.name "a"), .name "b"],
      [.named "k" (.name "c"), .unpacked (.name "d")]⟩
    t.StarsPlaced ∧ t.height ≤ maxDepth ∧ ∃ e, t.resolve (.ofModule "m") = .ok e
      ∧ e.node? = some t ∧ ∀ x ∈ e.names, x.2 = (Scope.ofModule "m").resolve x.1 := by
  intro t
  obtain ⟨hdomain, hfaithful⟩ := resolve_faithful t (.ofModule "m")
  obtain ⟨hplaced, hheight⟩ := hdomain.mp ⟨_, rfl⟩
  obtain ⟨hnode, hnames, -⟩ := hfaithful _ rfl
  exact ⟨hplaced, hheight, _, rfl, hnode, hnames⟩

end Node

end CallSite
