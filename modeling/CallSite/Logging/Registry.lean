import CallSite.Logging.Backend
import CallSite.Text.Escaped

/-!
# Registry — named handles and the backends behind them

A registry hands out one handle per name.  Handles are kept in a list and never removed, and an
index tells for each name at which place its handle is.  The backend behind a handle is built by the
factory of the registry, and replacing the factory builds the backends of all handles anew, in the
order in which the handles came.  A factory may fail.  A failure ends the operation where it is:
handles that are bound anew already stay so, and the factory is not replaced.
-/

namespace CallSite

/-- What building a backend comes to: the calls that it makes on the way, and the backend or the
    text of the failure. -/
structure Build (β : Type) where
  calls : List String
  result : Except String β

/-- Builds the backend for a name. -/
abbrev Factory (β : Type) := String → Build β

/-- A name, the backend behind it, and how often that was replaced. -/
structure Handle (β : Type) where
  name : String
  backend : β
  revision : Nat

/-- A backend that is kept while its handle may be bound to another.  The place of the handle and
    its revision tell which one it is. -/
structure Delegate (β : Type) where
  place : Nat
  revision : Nat
  backend : β

/-- Handles in the order of their registration, and the factory for further ones. -/
structure Registry (β : Type) where
  factory : Factory β
  handles : List (Handle β)
  /-- Names with the places of their handles. -/
  index : List (String × Nat)

/-- What an operation comes to: the registry behind it, the calls made on the way, and a value or
    the text of a failure. -/
structure Outcome (β α : Type) where
  registry : Registry β
  calls : List String
  result : Except String α

/-- The handle bound to another backend. -/
def Handle.rebind {β : Type} (h : Handle β) (backend : β) : Handle β :=
  ⟨h.name, backend, h.revision + 1⟩

/-- How a handle shows itself. -/
def Handle.shown {β : Type} (h : Handle β) : String :=
  "Logger \x7b name: " ++ quotedText h.name ++ ", .. \x7d"

/-- Rebinds handles one by one, up to the first failure. -/
def Factory.rebindAll {β : Type} (factory : Factory β) :
    List (Handle β) → List (Handle β) × List String × Except String Unit
  | [] => ([], [], .ok ())
  | h :: hs =>
    match factory h.name with
    | ⟨calls, .error failure⟩ => (h :: hs, calls, .error failure)
    | ⟨calls, .ok backend⟩ =>
      let (rebound, more, result) := rebindAll factory hs
      (h.rebind backend :: rebound, calls ++ more, result)

namespace Registry

variable {β : Type}

/-- A registry without handles. -/
def ofFactory (factory : Factory β) : Registry β := ⟨factory, [], []⟩

/-- The place that the index has for a name. -/
def find? (r : Registry β) (name : String) : Option Nat := r.index.lookup name

/-- The failure when a place that the index has is behind the last handle. -/
def danglingMessage (place length : Nat) : String :=
  "index out of bounds: the len is " ++ toString length ++ " but the index is " ++ toString place

/-- A place that the index has, where there has to be a handle. -/
def lookUp (r : Registry β) (place : Nat) : Except String Nat :=
  if place < r.handles.length then .ok place
  else .error (danglingMessage place r.handles.length)

/-- The registry with one handle more. -/
def register (r : Registry β) (name : String) (backend : β) : Registry β :=
  ⟨r.factory, r.handles ++ [⟨name, backend, 0⟩], (name, r.handles.length) :: r.index⟩

/-- The place of the handle for a name, which is registered if it is not there. -/
def get (r : Registry β) (name : String) : Outcome β Nat :=
  match r.find? name with
  | some place => ⟨r, [], r.lookUp place⟩
  | none =>
    match r.factory name with
    | ⟨calls, .error failure⟩ => ⟨r, calls, .error failure⟩
    | ⟨calls, .ok backend⟩ => ⟨r.register name backend, calls, .ok r.handles.length⟩

/-- Replaces the factory and rebinds all handles. -/
def patch (r : Registry β) (factory : Factory β) : Outcome β Unit :=
  match factory.rebindAll r.handles with
  | (handles, calls, .ok ()) => ⟨⟨factory, handles, r.index⟩, calls, .ok ()⟩
  | (handles, calls, .error failure) => ⟨⟨r.factory, handles, r.index⟩, calls, .error failure⟩

/-- The handle at a place. -/
def handle? (r : Registry β) (place : Nat) : Option (Handle β) := r.handles[place]?

/-- The backend behind the handle at a place. -/
def backend? (r : Registry β) (place : Nat) : Option β := (r.handle? place).map (·.backend)

/-- The backend behind the handle at a place, to be kept. -/
def delegate? (r : Registry β) (place : Nat) : Option (Delegate β) :=
  (r.handle? place).map fun h => ⟨place, h.revision, h.backend⟩

/-- Logs a message through the handle at a place: it is offered to the backend that is behind the
    handle at that moment. -/
def log {δ : Type} (takes : β → Level → Bool) (send : β → Level → String → List δ) (r : Registry β)
    (place : Nat) (level : Level) (text : String) : List δ :=
  match r.backend? place with
  | some b => offer takes send b level text
  | none => []

/-- The names in the order of their registration. -/
def names (r : Registry β) : List String := r.handles.map (·.name)

/-- How many handles there are. -/
def size (r : Registry β) : Nat := r.handles.length

/-- Whether there are no handles. -/
def isEmpty (r : Registry β) : Bool := r.handles.isEmpty

end Registry

end CallSite
