import Mathlib.Data.List.Forall2
import CallSite.Scope

/-!
# Look-up — what a name means in a scope, told from how the scope was built

A scope begins as a module and grows by imports into its innermost frame and by classes that are
opened inside.  Beside it goes a record of everything that was ever imported into each frame
(`Record`), replaced imports included.  The look-up of a name can be read off the record alone
(`Means`), and each frame keeps the last import of each name, in the order in which these last
imports were made (`lasting`).  One step of the building keeps a scope and its record in accord
(`Accords.after`), and so does a whole building (`Scope.resolve_built`).
-/

namespace CallSite

/-! ## Building a scope -/

/-- What a scope grows by. -/
inductive ScopeStep where
  /-- `target` is imported under a name. -/
  | imports (name target : String)
  /-- A class of this name is opened inside. -/
  | opensClass (name : String)

/-- The scope behind a step. -/
def Scope.after (s : Scope) : ScopeStep → Scope
  | .imports name target => s.withImport name target
  | .opensClass name => .ofClass name s

/-- The scope that a module grows into. -/
def Scope.built (module : String) (steps : List ScopeStep) : Scope :=
  steps.foldl after (.ofModule module)

/-- Names and what was imported under them, in the order of the imports. -/
abbrev Imports := List (String × String)

/-- The names under which something was imported. -/
def Imports.names (made : Imports) : List String := made.map Prod.fst

/-- All that was imported into the innermost frame and into the frames around it, the nearest
    first. -/
structure Record where
  inner : Imports
  outer : List Imports

namespace Record

/-- The record behind a step. -/
def after (r : Record) : ScopeStep → Record
  | .imports name target => ⟨r.inner ++ [(name, target)], r.outer⟩
  | .opensClass _ => ⟨[], r.inner :: r.outer⟩

/-- What the steps import. -/
def ofSteps (steps : List ScopeStep) : Record := steps.foldl after ⟨[], []⟩

/-- The imports of all frames, from the inside out. -/
def levels (r : Record) : List Imports := r.inner :: r.outer

end Record

/-! ## What the record says -/

/-- What a name means in a module, by the imports of the frames from the inside out. -/
inductive Means (module name : String) : List Imports → String → Prop where
  /-- The last import of the name counts, in the innermost frame that has one. -/
  | imported {inner outer : List Imports} {before behind : Imports} {target : String}
      (hinner : ∀ made ∈ inner, name ∉ made.names) (hbehind : name ∉ behind.names) :
      Means module name (inner ++ (before ++ (name, target) :: behind) :: outer) target
  /-- Without an import a builtin is itself. -/
  | builtin {levels : List Imports} (hlevels : ∀ made ∈ levels, name ∉ made.names)
      (hname : name ∈ builtins) : Means module name levels name
  /-- Anything else belongs to the module, whatever classes stand in between. -/
  | member {levels : List Imports} (hlevels : ∀ made ∈ levels, name ∉ made.names)
      (hname : name ∉ builtins) : Means module name levels (module ++ "." ++ name)

/-- The imports that are not replaced by a later one of the same name. -/
def lasting : Imports → Imports
  | [] => []
  | entry :: more => if entry.1 ∈ Imports.names more then lasting more else entry :: lasting more

/-! ## The imports of a frame -/

theorem Imports.names_append (made more : Imports) :
    Imports.names (made ++ more) = made.names ++ more.names := List.map_append

/-- One more import replaces those of the same name and is the last. -/
theorem lasting_snoc (made : Imports) (name target : String) :
    lasting (made ++ [(name, target)])
      = (lasting made).filter (·.1 != name) ++ [(name, target)] := by
  induction made with
  | nil => rfl
  | cons entry more ih =>
      rw [List.cons_append, lasting, lasting, ih, Imports.names_append]
      by_cases hlater : entry.1 ∈ Imports.names more
      · rw [if_pos (List.mem_append_left _ hlater), if_pos hlater]
      · rw [if_neg hlater]
        by_cases hname : entry.1 = name
        · -- the new import replaces this one
          have hlast : entry.1 ∈ Imports.names more ++ Imports.names [(name, target)] :=
            List.mem_append_right _ (hname ▸ List.mem_singleton_self _)
          rw [if_pos hlast, List.filter_cons_of_neg (by simpa using hname)]
        · have hlast : entry.1 ∉ Imports.names more ++ Imports.names [(name, target)] := by
            refine List.not_mem_append hlater fun h => hname ?_
            exact List.mem_singleton.mp h
          rw [if_neg hlast, List.filter_cons_of_pos (by simpa using hname), List.cons_append]

theorem names_lasting_subset (made : Imports) : (lasting made).names ⊆ made.names := by
  induction made with
  | nil => exact List.nil_subset _
  | cons entry more ih =>
      rw [lasting]
      split
      · exact fun name hname => List.mem_cons_of_mem _ (ih hname)
      · exact List.cons_subset_cons entry.1 ih

/-- No name is left twice. -/
theorem nodup_lasting (made : Imports) : (lasting made).names.Nodup := by
  induction made with
  | nil => exact List.nodup_nil
  | cons entry more ih =>
      rw [lasting]
      split
      · exact ih
      · rename_i hlater
        exact List.nodup_cons.mpr ⟨fun h => hlater (names_lasting_subset more h), ih⟩

/-- The look-up finds the last import of a name. -/
theorem lookup_lasting {name target : String} {before behind : Imports}
    (hbehind : name ∉ behind.names) :
    (lasting (before ++ (name, target) :: behind)).lookup name = some target := by
  induction before with
  | nil =>
      rw [List.nil_append, lasting, if_neg hbehind, List.lookup_cons_self]
  | cons entry before ih =>
      rw [List.cons_append, lasting]
      split
      · exact ih
      · rename_i hlater
        have hne : name ≠ entry.1 := by
          rintro rfl
          rw [Imports.names_append] at hlater
          exact hlater (List.mem_append_right _ List.mem_cons_self)
        rw [List.lookup_cons, beq_false_of_ne hne]
        exact ih

theorem lookup_lasting_eq_none {name : String} {made : Imports} (h : name ∉ made.names) :
    (lasting made).lookup name = none := by
  refine List.lookup_eq_none_iff.mpr fun entry hentry => ?_
  have hne : name ≠ entry.1 := by
    rintro rfl
    exact h (names_lasting_subset made (List.mem_map_of_mem hentry))
  simpa using hne

/-- A name that was imported was imported for the last time. -/
theorem exists_last {name : String} {made : Imports} (h : name ∈ made.names) :
    ∃ (before : Imports) (target : String) (behind : Imports),
      made = before ++ (name, target) :: behind ∧ name ∉ behind.names := by
  induction made with
  | nil => exact absurd h List.not_mem_nil
  | cons entry more ih =>
      by_cases hlater : name ∈ Imports.names more
      · obtain ⟨before, target, behind, rfl, hbehind⟩ := ih hlater
        exact ⟨entry :: before, target, behind, rfl, hbehind⟩
      · obtain ⟨other, target⟩ := entry
        obtain rfl : name = other := (List.mem_cons.mp h).resolve_right hlater
        exact ⟨[], target, more, rfl, hlater⟩

/-! ## Scopes and their records -/

/-- A frame holds what lasts of its imports, and no name twice. -/
structure Frame.Holds (f : Frame) (made : Imports) : Prop where
  imports : f.imports = lasting made
  nodup : (Imports.names f.imports).Nodup

theorem Frame.holds_iff {f : Frame} {made : Imports} : f.Holds made ↔ f.imports = lasting made :=
  ⟨Frame.Holds.imports, fun h => ⟨h, h ▸ nodup_lasting made⟩⟩

/-- A scope is what a record says, inside a module of this path. -/
structure Accords (module : String) (s : Scope) (r : Record) : Prop where
  frames : s.frames.Forall₂ Frame.Holds r.levels
  enclosing : (s.frames.find? (·.kind = .moduleBody)).map Frame.path = some module

namespace Accords

variable {module : String} {s : Scope} {r : Record}

theorem start (module : String) : Accords module (.ofModule module) ⟨[], []⟩ :=
  ⟨.cons (Frame.holds_iff.mpr rfl) .nil, rfl⟩

/-- A step changes a scope as it changes the record. -/
theorem after (h : Accords module s r) (step : ScopeStep) :
    Accords module (s.after step) (r.after step) := by
  cases step with
  | imports name target =>
      obtain ⟨hinner, houter⟩ := List.forall₂_cons.mp h.frames
      refine ⟨.cons (Frame.holds_iff.mpr ?_) houter, ?_⟩
      · show s.inner.imports.filter (·.1 != name) ++ [(name, target)] = _
        rw [hinner.imports]
        exact (lasting_snoc r.inner name target).symm
      · -- neither the kind nor the path of a frame changes
        have henclosing := h.enclosing
        rw [Scope.frames, List.find?_cons] at henclosing
        show ((⟨s.inner.kind, s.inner.path, _⟩ :: s.outer).find? _).map Frame.path = _
        rw [List.find?_cons]
        cases hkind : decide (s.inner.kind = .moduleBody) with
        | true =>
            rw [hkind] at henclosing
            exact henclosing
        | false =>
            rw [hkind] at henclosing
            exact henclosing
  | opensClass name => exact ⟨.cons (Frame.holds_iff.mpr rfl) h.frames, h.enclosing⟩

/-- Whatever is built accords with what was imported. -/
theorem built (module : String) (steps : List ScopeStep) :
    Accords module (.built module steps) (.ofSteps steps) := by
  have hrun {s : Scope} {r : Record} (h : Accords module s r) :
      Accords module (steps.foldl Scope.after s) (steps.foldl Record.after r) := by
    induction steps generalizing s r with
    | nil => exact h
    | cons step steps ih => exact ih (h.after step)
  exact hrun (start module)

theorem moduleFrame_path (h : Accords module s r) : s.moduleFrame.path = module := by
  obtain ⟨f, hf, hpath⟩ := Option.map_eq_some_iff.mp h.enclosing
  rw [Scope.moduleFrame, hf]
  exact hpath

end Accords

/-- The frames are searched from the inside out: the first that has an import of the name gives its
    last one. -/
theorem findSome?_target {frames : List Frame} {levels : List Imports}
    (h : frames.Forall₂ Frame.Holds levels) (name : String) :
    (∃ (inner : List Imports) (before : Imports) (target : String) (behind : Imports)
      (outer : List Imports), levels = inner ++ (before ++ (name, target) :: behind) :: outer
        ∧ (∀ made ∈ inner, name ∉ made.names) ∧ name ∉ behind.names
        ∧ frames.findSome? (·.target? name) = some target)
    ∨ (∀ made ∈ levels, name ∉ made.names) ∧ frames.findSome? (·.target? name) = none := by
  induction h with
  | nil => exact Or.inr ⟨List.forall_mem_nil _, rfl⟩
  | @cons f made frames levels hf _ ih =>
      by_cases hname : name ∈ made.names
      · obtain ⟨before, target, behind, rfl, hbehind⟩ := exists_last hname
        have hhit : f.target? name = some target := by
          rw [Frame.target?, hf.imports, lookup_lasting hbehind]
        refine Or.inl ⟨[], before, target, behind, levels, rfl, List.forall_mem_nil _, hbehind, ?_⟩
        rw [List.findSome?_cons, hhit]
      · have hmiss : f.target? name = none := by
          rw [Frame.target?, hf.imports, lookup_lasting_eq_none hname]
        rw [List.findSome?_cons, hmiss]
        rcases ih with ⟨inner, before, target, behind, outer, rfl, hinner, hbehind, hfound⟩ | ih
        · exact Or.inl ⟨made :: inner, before, target, behind, outer, rfl,
            List.forall_mem_cons.mpr ⟨hname, hinner⟩, hbehind, hfound⟩
        · exact Or.inr ⟨List.forall_mem_cons.mpr ⟨hname, ih.1⟩, ih.2⟩

/-- In a scope that a module has grown into, a name means its last import in the innermost frame
    that imports it, else itself if it is a builtin, else the member of the module.  Each frame
    holds just the last import of each name, in the order of these imports. -/
theorem Scope.resolve_built (module : String) (steps : List ScopeStep) :
    (∀ name, Means module name (Record.ofSteps steps).levels ((built module steps).resolve name))
      ∧ (built module steps).frames.Forall₂ Frame.Holds (Record.ofSteps steps).levels := by
  have haccords := Accords.built module steps
  refine ⟨fun name => ?_, haccords.frames⟩
  rcases findSome?_target haccords.frames name with
    ⟨inner, before, target, behind, outer, hlevels, hinner, hbehind, hfound⟩ | ⟨hlevels, hnone⟩
  · rw [Scope.resolve, hfound, hlevels]
    exact .imported hinner hbehind
  · rw [Scope.resolve, hnone]
    show Means module name _ (if name ∈ builtins then name else _)
    split
    · rename_i hname
      exact .builtin hlevels hname
    · rename_i hname
      rw [dotted, haccords.moduleFrame_path]
      exact .member hlevels hname

/-- The later of two imports into the class counts, not that of the module around it. -/
example : (Scope.built "pkg" [.imports "x" "a.x", .opensClass "C", .imports "x" "b.x",
    .imports "x" "c.x", .opensClass "D"]).resolve "x" = "c.x" := by
  decide

end CallSite
