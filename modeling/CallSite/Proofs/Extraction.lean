import CallSite.KeywordMap.Extraction
import CallSite.Parser.Operand
import CallSite.Proofs.Resolution

/-!
# Extraction — the keyword arguments of a resolved call

The values of keyword arguments are resolved in two ways: one by one, each from its root, and
together with the call around them, one step further down.  A tree that is resolved further down is
resolved to the same expression from its root (`Node.resolveFrom_mono`), since either way it comes
to its image.  So the map of the keyword arguments can be read off the resolved call: it is what its
arguments with a name come to when they are set one after the other (`KeywordMap.ofArguments`).
-/

namespace CallSite

/-! ## Depths -/

namespace Node

variable {scope : Scope} {t : Node} {e : Expr}

/-- The expression that a node stands for when it is met `start` levels down a tree.  Levels are
    counted upwards: at the deepest level nothing is resolved. -/
def resolveFrom (scope : Scope) (start : Nat) (t : Node) : Resolved Expr :=
  if maxDepth ≤ start then .error ⟨[], .nestedTooDeeply⟩
  else t.resolveWith scope (resolveFrom scope (start + 1))
termination_by maxDepth - start

/-- From a level on there are as many levels as are left of all. -/
theorem resolveFrom_eq (scope : Scope) (start : Nat) :
    resolveFrom scope start = resolveWithin scope (maxDepth - start) := by
  funext t
  -- on the number of levels that are left, down from the root to the deepest
  induction hleft : maxDepth - start generalizing start t with
  | zero =>
      rw [resolveFrom, if_pos (Nat.sub_eq_zero_iff_le.mp hleft)]
      rfl
  | succ left ih =>
      have hnext : resolveFrom scope (start + 1) = resolveWithin scope left :=
        funext (ih (start + 1) · (by omega))
      rw [resolveFrom, if_neg (by omega), hnext]
      rfl

theorem resolveFrom_zero : t.resolveFrom scope 0 = t.resolve scope := by
  rw [resolveFrom_eq]
  rfl

theorem resolveWithin_mono {depth depth' : Nat} (hdepth : depth ≤ depth')
    (h : t.resolveWithin scope depth = .ok e) : t.resolveWithin scope depth' = .ok e := by
  obtain ⟨hplaced, hheight, himage⟩ := resolveWithin_eq_ok_iff.mp h
  exact resolveWithin_eq_ok_iff.mpr ⟨hplaced, Nat.le_trans hheight hdepth, himage⟩

/-- A tree that is resolved from some level is resolved to the same from every level above. -/
theorem resolveFrom_mono {start start' : Nat} (hstart : start ≤ start')
    (h : t.resolveFrom scope start' = .ok e) : t.resolveFrom scope start = .ok e := by
  rw [resolveFrom_eq] at h ⊢
  exact resolveWithin_mono (Nat.sub_le_sub_left hstart maxDepth) h

/-- The operands of a resolved tree are resolved by themselves. -/
theorem resolve_operand {u : Node} (h : t.resolve scope = .ok e) (hu : u ∈ t.successors) :
    u.resolve scope = .ok (u.image scope) := by
  obtain ⟨hplaced, hheight, -⟩ := resolveWithin_eq_ok_iff.mp h
  have hplaced := (starsPlaced_iff.mp hplaced).2 u hu
  have hheight : u.height ≤ maxDepth - 1 := height_le_succ.mp hheight u hu
  -- in the tree it is met one level down, and by itself at its root
  have hbelow : u.resolveFrom scope 1 = .ok (u.image scope) := by
    rw [resolveFrom_eq]
    exact resolveWithin_eq_ok_iff.mpr ⟨hplaced, hheight, rfl⟩
  rw [← resolveFrom_zero]
  exact resolveFrom_mono (Nat.zero_le 1) hbelow

end Node

/-! ## Maps of resolved arguments -/

namespace KeywordMap

/-- Sets the value of an argument with a name.  Other arguments are passed over. -/
def addArgument (map : KeywordMap) : Expr → KeywordMap
  | .keyword name value => map.insert name (some value)
  | _ => map

/-- The map of the arguments of a resolved call. -/
def ofArguments (arguments : List Expr) : KeywordMap := arguments.foldl addArgument .empty

/-- Whether every name has a value. -/
def Known (map : KeywordMap) : Prop := ∀ entry ∈ map.entries, entry.2.isSome = true

theorem Known.insert {map : KeywordMap} (h : map.Known) (name : String) (value : Expr) :
    (map.insert name (some value)).Known := by
  intro entry hentry
  rw [entries_insert] at hentry
  split at hentry
  · rcases List.mem_or_eq_of_mem_set hentry with hold | rfl
    · exact h entry hold
    · rfl
  · rcases List.mem_append.mp hentry with hold | hnew
    · exact h entry hold
    · rw [List.mem_singleton.mp hnew]
      rfl

theorem Known.addArgument {map : KeywordMap} (h : map.Known) (argument : Expr) :
    (map.addArgument argument).Known := by
  cases argument with
  | keyword name value => exact h.insert name value
  | _ => exact h

theorem known_ofArguments (arguments : List Expr) : (ofArguments arguments).Known := by
  have hfold {map : KeywordMap} (h : map.Known) : (arguments.foldl addArgument map).Known := by
    induction arguments generalizing map with
    | nil => exact h
    | cons argument arguments ih => exact ih (h.addArgument argument)
  exact hfold (List.forall_mem_nil _)

variable {scope : Scope}

/-- The images of positional arguments are passed over. -/
theorem foldl_addArgument_images (map : KeywordMap) (args : List Node) :
    (Node.imageOfEach scope args).foldl addArgument map = map := by
  induction args with
  | nil => rfl
  | cons arg args ih =>
      have harg : addArgument map (arg.image scope) = map := by
        cases arg <;> rfl
      rw [Node.imageOfEach, List.foldl_cons, harg, ih]

end KeywordMap

/-! ## Extraction -/

namespace Call

variable {m : Type → Type} [Monad m] {note : Message → m Unit} {scope : Scope}

/-- A value that is resolved is there, and nothing is said about it. -/
theorem resolve?_of_ok {t : Node} {e : Expr} (h : t.resolve scope = .ok e) :
    Node.resolve? note t scope = pure (some e) := by
  rw [Node.resolve?, h]

/-- When all values are resolved, the named arguments are set one after the other, and only the
    expansions leave a message. -/
theorem foldlM_addKeyword [LawfulMonad m] {keywords : List (Keyword Node)} (map : KeywordMap)
    (h : ∀ k ∈ keywords, k.value.resolve scope = .ok (k.value.image scope)) :
    keywords.foldlM (addKeyword note (Node.resolve? note) scope) map = (do
      forM (keywords.filter Keyword.isUnpacked) fun _ => note (skippedMessage scope)
      return (Node.imageOfKeywords scope keywords).foldl KeywordMap.addArgument map) := by
  -- on the arguments, whatever was set by those in front of them
  induction keywords generalizing map with
  | nil =>
      rw [List.filter_nil, List.forM_nil, pure_bind]
      rfl
  | cons k keywords ih =>
      obtain ⟨hvalue, hmore⟩ := List.forall_mem_cons.mp h
      rw [List.foldlM_cons]
      cases k with
      | named name value =>
          rw [Keyword.value] at hvalue
          have hstep : addKeyword note (Node.resolve? note) scope map (.named name value)
              = pure (map.insert name (some (value.image scope))) := by
            rw [addKeyword, resolve?_of_ok hvalue, pure_bind]
          rw [hstep, pure_bind, ih _ hmore]
          rfl
      | unpacked value =>
          rw [addKeyword, List.filter_cons_of_pos rfl, List.forM_cons]
          simp only [bind_assoc, pure_bind, ih map hmore]
          rfl

/-- The keyword arguments of a call that is resolved are those of the resolved call: its arguments
    with a name are set one after the other, all of them have values, and only the expansions leave
    a message.  For the values are met one level further down in the call, and what is resolved from
    a level is resolved to the same from every level above. -/
theorem keywordMap_of_resolve [LawfulMonad m] (note : Message → m Unit) :
    (∀ (call : Call Node) (scope : Scope) (e : Expr), (Node.call call).resolve scope = .ok e →
      ∃ function arguments, e = .call function arguments
        ∧ (KeywordMap.ofArguments arguments).Known
        ∧ call.keywordMap note scope = (do
          forM (call.keywords.filter Keyword.isUnpacked) fun _ => note (skippedMessage scope)
          return .ofArguments arguments))
    ∧ ∀ (t : Node) (scope : Scope) (start start' : Nat) (e : Expr), start ≤ start' →
      t.resolveFrom scope start' = .ok e → t.resolveFrom scope start = .ok e := by
  refine ⟨?_, fun t scope start start' e => Node.resolveFrom_mono⟩
  intro call scope e h
  obtain ⟨func, args, keywords⟩ := call
  obtain ⟨-, -, himage⟩ := Node.resolveWithin_eq_ok_iff.mp h
  refine ⟨_, _, himage, KeywordMap.known_ofArguments _, ?_⟩
  have hvalues : ∀ k ∈ keywords, k.value.resolve scope = .ok (k.value.image scope) := by
    intro k hk
    refine Node.resolve_operand h (List.mem_append_left _ (List.mem_cons_of_mem _ ?_))
    exact List.mem_map_of_mem hk
  have hargs : KeywordMap.ofArguments
        (Node.imageOfEach scope args ++ Node.imageOfKeywords scope keywords)
      = (Node.imageOfKeywords scope keywords).foldl KeywordMap.addArgument .empty := by
    rw [KeywordMap.ofArguments, List.foldl_append, KeywordMap.foldl_addArgument_images]
  rw [hargs]
  exact foldlM_addKeyword .empty hvalues

/-- Of a name that is given twice the later value stays, and the expansion in between is noted. -/
theorem keywordMap_of_resolve_repeated :
    let call : Call Node := ⟨.name "f", [.constant (.int 1)],
      [.named "k" (.name "a"), .unpacked (.name "d"), .named "k" (.name "b")]⟩
    let note : Message → StateM (List Message) Unit := fun message => modify (· ++ [message])
    (call.keywordMap note (.ofModule "m")).run []
        = (⟨[("k", some (.name "b" "m.b"))]⟩, [skippedMessage (.ofModule "m")])
      ∧ (Node.name "a").resolveFrom (.ofModule "m") 0 = .ok (.name "a" "m.a") := by
  intro call note
  obtain ⟨hmap, hmono⟩ := keywordMap_of_resolve note
  obtain ⟨function, arguments, he, -, hrun⟩ := hmap call (.ofModule "m") _ rfl
  obtain ⟨-, rfl⟩ := Expr.call.inj he
  have hdeepest : (Node.name "a").resolveFrom (.ofModule "m") 199 = .ok (.name "a" "m.a") := by
    rw [Node.resolveFrom_eq]
    rfl
  refine ⟨?_, hmono _ _ 0 199 _ (Nat.zero_le _) hdeepest⟩
  rw [hrun]
  rfl

end Call

end CallSite
