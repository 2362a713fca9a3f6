import CallSite.Proofs.Resolution

/-!
# Complaints — what a failed resolution says

A tree that is not resolved may have many nodes to blame, and one of them is reported.  Which one
and in what words can be told without resolving anything.  `Node.walk` visits the nodes of a tree in
the order in which they are resolved, a node before what is below it, and notes the mentions on the
way to each.  The first visit that offends is the one that is reported (`complaint?_resolveWithin`):
the complaint is its mentions and then the reason (`resolve_complains`).

The walk and the resolution agree because a node complains of the first of its edges that does
(`complaint?_convertWith`).  For this nothing has to be known about the values that are put together
in between: a row of resolutions complains of the first that fails, whatever the others give.
-/

namespace CallSite

/-! ## The first of a row -/

theorem findSome?_cons_or {α β : Type} (f : α → Option β) (a : α) (as : List α) :
    (a :: as).findSome? f = (f a).or (as.findSome? f) := by
  rw [List.findSome?_cons]
  cases f a <;> rfl

theorem findSome?_flatMap {α β γ : Type} (f : β → Option γ) (g : α → List β) (as : List α) :
    (as.flatMap g).findSome? f = as.findSome? fun a => (g a).findSome? f := by
  induction as with
  | nil => rfl
  | cons a as ih => rw [List.flatMap_cons, List.findSome?_append, findSome?_cons_or, ih]

/-! ## Complaints of resolutions -/

namespace Resolved

variable {α β : Type}

/-- The wordings of the error, if there is one. -/
def complaint? : Resolved α → Option (List String)
  | .ok _ => none
  | .error e => some e.chain

theorem complaint?_map (f : α → β) (r : Resolved α) : complaint? (f <$> r) = r.complaint? := by
  cases r <;> rfl

theorem complaint?_within (context : ResolutionContext) (r : Resolved α) :
    (r.within context).complaint? = r.complaint?.map ([context.message] ++ ·) := by
  cases r <;> rfl

/-- The second of two resolutions is reached only if the first does not complain. -/
theorem complaint?_bind {r : Resolved α} {f : α → Resolved β} {later : Option (List String)}
    (hf : ∀ a, (f a).complaint? = later) : complaint? (r >>= f) = r.complaint?.or later := by
  cases r with
  | ok a => exact hf a
  | error e => rfl

/-- The values do not matter when both are there. -/
theorem complaint?_both {γ : Type} (f : α → β → γ) (r : Resolved α) (s : Resolved β) :
    complaint? (do return f (← r) (← s)) = r.complaint?.or s.complaint? := by
  have hlast (a : α) : complaint? (do return f a (← s)) = s.complaint? := by
    cases s <;> rfl
  exact complaint?_bind hlast

/-- A row complains of the first that fails. -/
theorem complaint?_mapM (f : α → Resolved β) (as : List α) :
    complaint? (as.mapM f) = as.findSome? fun a => (f a).complaint? := by
  induction as with
  | nil => rfl
  | cons a as ih => rw [List.mapM_cons, complaint?_both, findSome?_cons_or, ih]

end Resolved

namespace Node

open Resolved

/-! ## Walks -/

/-- A step down a tree: the words that errors have for it, if they mention it, and the node to which
    it leads. -/
structure Edge where
  mention? : Option String
  node : Node

/-- A step that is not mentioned. -/
def Edge.silent (node : Node) : Edge := ⟨none, node⟩

/-- The step to the value of a keyword argument. -/
def Edge.ofKeyword : Keyword Node → Edge
  | .named id value => ⟨some ("in keyword argument " ++ id), value⟩
  | .unpacked value => ⟨some "in ** argument", value⟩

/-- The step to a positional argument. -/
def Edge.ofArgument (arg : Node × Nat) : Edge :=
  ⟨some ("in argument " ++ toString arg.2), arg.1.unstarred⟩

/-- The steps down from a node, in the order in which they are gone.  The star of an item is passed
    over. -/
def edges : Node → List Edge
  | .name _ | .constant _ => []
  | .attribute value attr => [⟨some ("in base of ." ++ attr), value⟩]
  | .call ⟨func, args, keywords⟩ =>
    ⟨some "in called expression", func⟩
      :: (args.zipIdx.map Edge.ofArgument ++ keywords.map Edge.ofKeyword)
  | .subscript value slice => [.silent value, ⟨some "in subscript", slice⟩]
  | .list items | .tuple items => items.map fun item => .silent item.unstarred
  | .dict entries => entries.flatMap fun entry => entry.values.map .silent
  | .unary _ operand => [.silent operand]
  | .binary left _ right => [.silent left, .silent right]
  | .compare left links => .silent left :: links.map fun link => .silent link.operand
  | .starred value => [.silent value]

theorem mem_successors_of_mem_edges {edge : Edge} {t : Node} (h : edge ∈ t.edges) :
    edge.node ∈ t.successors := by
  match t, h with
  | .attribute value attr, h | .unary op value, h | .starred value, h =>
      obtain rfl := List.mem_singleton.mp h
      exact List.mem_singleton_self _
  | .call ⟨func, args, keywords⟩, h =>
      rcases List.mem_cons.mp h with rfl | h
      · exact List.mem_cons_self
      rcases List.mem_append.mp h with h | h
      · obtain ⟨arg, harg, rfl⟩ := List.mem_map.mp h
        have hmem : arg.1 ∈ args := (List.mem_zipIdx harg).2.2 ▸ List.getElem_mem _
        exact List.mem_append_right _ (List.mem_map_of_mem hmem)
      · obtain ⟨k, hk, rfl⟩ := List.mem_map.mp h
        have hvalue : (Edge.ofKeyword k).node = k.value := by cases k <;> rfl
        rw [hvalue]
        exact List.mem_append_left _ (List.mem_cons_of_mem _ (List.mem_map_of_mem hk))
  | .subscript left right, h | .binary left op right, h =>
      rcases List.mem_cons.mp h with rfl | h
      · exact List.mem_cons_self
      · obtain rfl := List.mem_singleton.mp h
        exact List.mem_cons_of_mem _ List.mem_cons_self
  | .list items, h | .tuple items, h =>
      obtain ⟨item, hitem, rfl⟩ := List.mem_map.mp h
      exact List.mem_append_right _ (List.mem_map_of_mem hitem)
  | .dict entries, h =>
      obtain ⟨entry, hentry, h⟩ := List.mem_flatMap.mp h
      obtain ⟨value, hvalue, rfl⟩ := List.mem_map.mp h
      exact List.mem_append_left _ (List.mem_flatMap.mpr ⟨entry, hentry, hvalue⟩)
  | .compare left links, h =>
      rcases List.mem_cons.mp h with rfl | h
      · exact List.mem_cons_self
      · obtain ⟨link, hlink, rfl⟩ := List.mem_map.mp h
        exact List.mem_append_left _ (List.mem_cons_of_mem _ (List.mem_map_of_mem hlink))

/-- A node that is met on a walk: the mentions on the way to it, the outermost first, how many steps
    there are, and the node. -/
structure Visit where
  mentions : List String
  depth : Nat
  node : Node

/-- The visit that it is from one step further up. -/
def Visit.behind (edge : Edge) (v : Visit) : Visit :=
  ⟨edge.mention?.toList ++ v.mentions, v.depth + 1, v.node⟩

/-- The visits to all nodes of a tree: its root, and then what is below each edge in turn. -/
def walk (t : Node) : List Visit :=
  ⟨[], 0, t⟩ :: t.edges.attach.flatMap fun edge => edge.val.node.walk.map (.behind edge.val)
termination_by sizeOf t
decreasing_by exact sizeOf_successor_lt (mem_successors_of_mem_edges edge.property)

theorem walk_eq (t : Node) :
    t.walk = ⟨[], 0, t⟩ :: t.edges.flatMap fun edge => edge.node.walk.map (.behind edge) := by
  rw [walk, List.flatMap_subtype (g := fun edge => edge.node.walk.map (.behind edge))
    fun _ _ => rfl, List.unattach_attach]

namespace Visit

/-- With this many levels a node offends if it is too deep for them, or if it is a star where none
    may stand. -/
def offends (limit : Nat) (v : Visit) : Bool := limit ≤ v.depth || v.node.isStarred

/-- The mentions on the way to an offending node, and the reason. -/
def complaint (limit : Nat) (v : Visit) : List String :=
  v.mentions ++ [if limit ≤ v.depth then "expression nested too deeply"
    else "starred expression is only valid as a call argument or display element"]

theorem offends_behind (limit : Nat) (edge : Edge) (v : Visit) :
    (v.behind edge).offends (limit + 1) = v.offends limit := by
  simp [offends, behind]

theorem complaint_behind (limit : Nat) (edge : Edge) (v : Visit) :
    (v.behind edge).complaint (limit + 1) = edge.mention?.toList ++ v.complaint limit := by
  simp [complaint, behind]

end Visit

/-! ## Complaints of nodes -/

variable {scope : Scope} {sub : Node → Resolved Expr}

/-- What is complained of below an edge. -/
def Edge.complaint? (sub : Node → Resolved Expr) (edge : Edge) : Option (List String) :=
  (sub edge.node).complaint?.map (edge.mention?.toList ++ ·)

theorem Edge.complaint?_silent (t : Node) :
    (Edge.silent t).complaint? sub = (sub t).complaint? := Option.map_id'

theorem complaint?_resolveItem (item : Node) :
    (resolveItem sub item).complaint? = (sub item.unstarred).complaint? := by
  cases item with
  | starred v => exact complaint?_map _ _
  | _ => rfl

theorem complaint?_resolveItems (items : List Node) :
    complaint? (items.mapM (resolveItem sub))
      = (items.map fun item => Edge.silent item.unstarred).findSome? (Edge.complaint? sub) := by
  rw [complaint?_mapM, List.findSome?_map]
  refine congrArg (items.findSome? ·) (funext fun item => ?_)
  rw [complaint?_resolveItem, Function.comp_apply, Edge.complaint?_silent]

/-- A key is resolved before its value. -/
theorem complaint?_resolveEntry (entry : Entry Node) :
    (resolveEntry sub entry).complaint?
      = (entry.values.map Edge.silent).findSome? (Edge.complaint? sub) := by
  cases entry with
  | item key value =>
      show complaint? (do return Entry.item (← sub key) (← sub value)) = _
      rw [complaint?_both, Entry.values, List.map_cons, List.map_singleton, findSome?_cons_or,
        List.findSome?_singleton, Edge.complaint?_silent, Edge.complaint?_silent]
  | unpacked value =>
      rw [resolveEntry, complaint?_map, Entry.values, List.map_singleton,
        List.findSome?_singleton, Edge.complaint?_silent]

theorem complaint?_resolveKeyword (k : Keyword Node) :
    (resolveKeyword sub k).complaint? = (Edge.ofKeyword k).complaint? sub := by
  cases k with
  | named id value | unpacked value =>
      rw [resolveKeyword, complaint?_map, complaint?_within]
      rfl

/-- What is called comes first, then the positional arguments and the keyword arguments. -/
theorem complaint?_resolveCall (site : Call Node) :
    (resolveCall sub site).complaint? = (Node.call site).edges.findSome? (Edge.complaint? sub) := by
  obtain ⟨func, args, keywords⟩ := site
  have hargs : complaint? (args.zipIdx.mapM fun x : Node × Nat =>
      (resolveItem sub x.1).within (.argument x.2))
      = (args.zipIdx.map Edge.ofArgument).findSome? (Edge.complaint? sub) := by
    rw [complaint?_mapM, List.findSome?_map]
    refine congrArg (args.zipIdx.findSome? ·) (funext fun x => ?_)
    rw [complaint?_within, complaint?_resolveItem]
    rfl
  have hkeywords : complaint? (keywords.mapM (resolveKeyword sub))
      = (keywords.map Edge.ofKeyword).findSome? (Edge.complaint? sub) := by
    rw [complaint?_mapM, List.findSome?_map]
    exact congrArg (keywords.findSome? ·) (funext complaint?_resolveKeyword)
  rw [edges, findSome?_cons_or, List.findSome?_append, ← hargs, ← hkeywords]
  refine (complaint?_bind fun function => complaint?_both (fun args keywords =>
    Expr.call function (args ++ keywords)) _ _).trans ?_
  rw [complaint?_within]
  rfl

/-- A node without a star complains of the first of its edges that does. -/
theorem complaint?_convertWith {t : Node} (ht : t.isStarred = false) :
    (t.convertWith scope sub).complaint? = t.edges.findSome? (Edge.complaint? sub) := by
  match t, ht with
  | .name _, _ | .constant _, _ => rfl
  | .attribute value attr, _ =>
      show complaint? ((· |>.attribute attr) <$> (sub value).within (.attributeBase attr)) = _
      rw [complaint?_map, complaint?_within]
      exact List.findSome?_singleton.symm
  | .call site, _ => exact complaint?_resolveCall site
  | .subscript value slice, _ =>
      show complaint? (do return Expr.subscript (← sub value) (← (sub slice).within .subscript)) = _
      rw [complaint?_both, complaint?_within, edges, findSome?_cons_or, List.findSome?_singleton,
        Edge.complaint?_silent]
      rfl
  | .list items, _ | .tuple items, _ =>
      rw [convertWith, complaint?_map, complaint?_resolveItems]
      rfl
  | .dict entries, _ =>
      rw [convertWith, complaint?_map, complaint?_mapM, edges, findSome?_flatMap]
      exact congrArg (entries.findSome? ·) (funext complaint?_resolveEntry)
  | .unary op operand, _ =>
      rw [convertWith, complaint?_map, edges, List.findSome?_singleton, Edge.complaint?_silent]
  | .binary left op right, _ =>
      show complaint? (do return Expr.binary (← sub left) op (← sub right)) = _
      rw [complaint?_both (fun left right => Expr.binary left op right), edges, findSome?_cons_or,
        List.findSome?_singleton, Edge.complaint?_silent, Edge.complaint?_silent]
  | .compare left links, _ =>
      have hlinks : complaint? (links.mapM (resolveLink sub))
          = (links.map fun link => Edge.silent link.operand).findSome? (Edge.complaint? sub) := by
        rw [complaint?_mapM, List.findSome?_map]
        refine congrArg (links.findSome? ·) (funext fun link => ?_)
        rw [resolveLink, complaint?_map, Function.comp_apply, Edge.complaint?_silent]
      show complaint? (do return Expr.compare (← sub left) (← links.mapM (resolveLink sub))) = _
      rw [complaint?_both, hlinks, edges, findSome?_cons_or, Edge.complaint?_silent]

/-! ## Complaints of trees -/

/-- With this many levels a tree complains of the first visit that offends. -/
theorem complaint?_resolveWithin (limit : Nat) (t : Node) :
    (t.resolveWithin scope limit).complaint?
      = (t.walk.find? (Visit.offends limit)).map (Visit.complaint limit) := by
  induction limit generalizing t with
  | zero =>
      have hroot : Visit.offends 0 ⟨[], 0, t⟩ = true := rfl
      rw [walk_eq, List.find?_cons_of_pos hroot]
      rfl
  | succ limit ih =>
      have hroot : Visit.offends (limit + 1) ⟨[], 0, t⟩ = t.isStarred := rfl
      rw [walk_eq]
      cases ht : t.isStarred with
      | true =>
          rw [ht] at hroot
          rw [List.find?_cons_of_pos hroot]
          cases t with
          | starred v => rfl
          | _ => exact absurd ht nofun
      | false =>
          rw [ht] at hroot
          -- below an edge every visit is one step nearer, and there is one level less
          have hbelow (edge : Edge) :
              ((edge.node.walk.map (Visit.behind edge)).find? (Visit.offends (limit + 1))).map
                  (Visit.complaint (limit + 1))
                = edge.complaint? (resolveWithin scope limit) := by
            rw [List.find?_map, Option.map_map, Edge.complaint?, ih, Option.map_map]
            simp only [Function.comp_def, Visit.offends_behind, Visit.complaint_behind]
          rw [List.find?_cons_of_neg (by rw [hroot]; exact nofun), List.find?_flatMap,
            List.map_findSome?, resolveWithin, resolveWith_eq_convertWith ht,
            complaint?_convertWith ht]
          exact congrArg (t.edges.findSome? ·) (funext fun edge => (hbelow edge).symm)

/-! ## Wordings -/

theorem head?_append {text more : String} {c : Char} (h : text.toList.head? = some c) :
    (text ++ more).toList.head? = some c := by
  rw [String.toList_append, List.head?_append, h]
  rfl

/-- All contexts are worded alike at the start. -/
theorem head?_message : (context : ResolutionContext) → context.message.toList.head? = some 'i'
  | .attributeBase _ => head?_append (by decide +kernel)
  | .argument _ => head?_append (by decide +kernel)
  | .keywordArgument _ => head?_append (by decide +kernel)
  | .subscript | .calledExpression | .unpackedArgument => by decide +kernel

/-- A star that is not expected is never met: the stars that are not passed over are refused. -/
theorem unexpected_not_mem_chain {limit : Nat} {v : Visit} {e : ResolutionError}
    (h : e.chain = v.complaint limit) : "unexpected starred expression" ∉ e.chain := by
  have hreason : e.fault.message ≠ "unexpected starred expression" := by
    have hlast := congrArg List.getLast? h
    rw [ResolutionError.chain, Visit.complaint, List.getLast?_concat, List.getLast?_concat] at hlast
    rw [Option.some.inj hlast]
    split <;> decide +kernel
  rw [ResolutionError.chain, List.mem_append, List.mem_singleton, not_or]
  refine ⟨fun hmem => ?_, hreason.symm⟩
  obtain ⟨context, -, hcontext⟩ := List.mem_map.mp hmem
  have hhead := head?_message context
  rw [hcontext] at hhead
  exact absurd hhead (by decide +kernel)

/-- A tree that is not resolved complains of the first offending visit of its walk: all mentions on
    the way to the node, and then that it is nested too deeply or else that its star is misplaced.
    Nothing is ever said about a star that is not expected.  When the failure is passed over, one
    message gives these words in a row, and there is no value. -/
theorem resolve_complains {t : Node} {e : ResolutionError} (h : t.resolve scope = .error e) :
    (∃ before visit behind, t.walk = before ++ visit :: behind
      ∧ (∀ v ∈ before, v.offends maxDepth = false) ∧ visit.offends maxDepth = true
      ∧ e.chain = visit.complaint maxDepth)
    ∧ "unexpected starred expression" ∉ e.chain
    ∧ ∀ (m : Type → Type) [Monad m] (note : Message → m Unit), t.resolve? note scope = (do
        note ⟨"scry_engine::expressions::resolve", .debug,
          "could not resolve expression in " ++ scope.inner.path ++ ": "
            ++ ": ".intercalate e.chain⟩
        return none) := by
  have hwithin : t.resolveWithin scope maxDepth = .error e := h
  have hcomplaint : (t.resolveWithin scope maxDepth).complaint? = _ :=
    complaint?_resolveWithin maxDepth t
  rw [hwithin] at hcomplaint
  obtain ⟨visit, hvisit, hchain⟩ := Option.map_eq_some_iff.mp hcomplaint.symm
  obtain ⟨hoffends, before, behind, hwalk, hbefore⟩ := List.find?_eq_some_iff_append.mp hvisit
  refine ⟨⟨before, visit, behind, hwalk, fun v hv => ?_, hoffends, hchain.symm⟩,
    unexpected_not_mem_chain hchain.symm, fun m _ note => ?_⟩
  · exact (Bool.not_eq_true' _).mp (hbefore v hv)
  · rw [resolve?, h]
    rfl

/-- The star in the list comes first: it is met before that of the keyword argument, and the star
    of the argument is in its place. -/
theorem resolve_complains_argument :
    let t : Node := .call ⟨.name "f", [.name "x",
      .starred (.list [.starred (.starred (.name "a"))])], [.named "k" (.starred (.name "b"))]⟩
    let e : ResolutionError := ⟨[.argument 1], .misplacedStar⟩
    t.resolve (.ofModule "m") = .error e
      ∧ (∃ visit ∈ t.walk, visit.offends maxDepth = true
        ∧ visit.complaint maxDepth = ["in argument 1",
          "starred expression is only valid as a call argument or display element"])
      ∧ "unexpected starred expression" ∉ e.chain := by
  intro t e
  have hfails : t.resolve (.ofModule "m") = .error e := rfl
  obtain ⟨⟨before, visit, _, hwalk, -, hoffends, hchain⟩, hnever, -⟩ := resolve_complains hfails
  refine ⟨hfails, ⟨visit, ?_, hoffends, ?_⟩, hnever⟩
  · rw [hwalk]
    exact List.mem_append_right _ List.mem_cons_self
  · rw [← hchain]
    decide +kernel

end Node

end CallSite
