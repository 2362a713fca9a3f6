/-!
# Scopes — what a bare name refers to

An expression stands in a class or a module, which may itself stand in others.  A scope is this
chain of frames, innermost first.  A name is looked up among the imports of each frame from the
inside out; a name that nobody imports is a builtin or a member of the enclosing module, since
classes are no namespace for the code inside them.
-/

namespace CallSite

/-- What a frame belongs to. -/
inductive FrameKind where
  | moduleBody | classBody
  deriving DecidableEq, Repr

/-- A module or a class: its dotted path and its imports as pairs of alias and target. -/
structure Frame where
  kind : FrameKind
  path : String
  imports : List (String × String)
  deriving DecidableEq, Repr

/-- A frame and the frames around it, the nearest first. -/
structure Scope where
  inner : Frame
  outer : List Frame
  deriving DecidableEq, Repr

/-- The names that mean the same everywhere. -/
def builtins : List String :=
  ["bool", "bytes", "dict", "float", "frozenset", "int", "list", "object",
   "set", "str", "tuple", "type", "len", "print", "range", "super",
   "property", "classmethod", "staticmethod", "Exception", "ValueError",
   "TypeError", "NotImplemented"]

/-- The target of an alias in one frame: that of its first import. -/
def Frame.target? (f : Frame) (name : String) : Option String := f.imports.lookup name

/-- The path of something inside. -/
def dotted (path name : String) : String := path ++ "." ++ name

namespace Scope

/-- A module without imports. -/
def ofModule (path : String) : Scope := ⟨⟨.moduleBody, path, []⟩, []⟩

/-- A class inside a scope, without imports of its own. -/
def ofClass (name : String) (parent : Scope) : Scope :=
  ⟨⟨.classBody, dotted parent.inner.path name, []⟩, parent.inner :: parent.outer⟩

/-- Imports `target` under a name, in place of what the name meant before. -/
def withImport (s : Scope) (name target : String) : Scope :=
  let imports := s.inner.imports.filter (·.1 != name) ++ [(name, target)]
  ⟨⟨s.inner.kind, s.inner.path, imports⟩, s.outer⟩

/-- All frames, from the inside out. -/
def frames (s : Scope) : List Frame := s.inner :: s.outer

/-- The nearest module, or the outermost frame when there is none. -/
def moduleFrame (s : Scope) : Frame :=
  (s.frames.find? (·.kind = .moduleBody)).getD (s.outer.getLastD s.inner)

/-- The path that a bare name stands for. -/
def resolve (s : Scope) (name : String) : String :=
  match s.frames.findSome? (·.target? name) with
  | some target => target
  | none => if name ∈ builtins then name else dotted s.moduleFrame.path name

end Scope

end CallSite
