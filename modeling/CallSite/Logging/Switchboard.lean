import CallSite.Logging.Registry

/-!
# Switchboard — loggers at work

A switchboard joins the parts of a running process: the registry with its handles, the process-wide
log, and the hub to which relaying backends turn.  Logging through a handle offers the message to
the backend that is behind the handle at that moment.
-/

namespace CallSite

/-- The factory that leaves all loggers to the process-wide log. -/
def Factory.default : Factory Backend := fun name => ⟨[], .ok (.default name)⟩

/-- A registry of backends, the process-wide log, and the place of the hub. -/
structure Switchboard where
  registry : Registry Backend
  facade : Facade
  hub : Option Nat

namespace Switchboard

/-- A switchboard without handles. -/
def ofFactory (factory : Factory Backend) (facade : Facade) : Switchboard :=
  ⟨.ofFactory factory, facade, none⟩

/-- The switchboard with another registry. -/
def withRegistry (s : Switchboard) (registry : Registry Backend) : Switchboard :=
  ⟨registry, s.facade, s.hub⟩

/-- The switchboard with another maximum of the process-wide log. -/
def withMaximum (s : Switchboard) (maximum : Limit) : Switchboard :=
  ⟨s.registry, ⟨maximum, s.facade.installed⟩, s.hub⟩

/-- Makes the handle at a place the hub, unless there is one, and tells whether it did. -/
def withHub (s : Switchboard) (place : Nat) : Switchboard × Bool :=
  match s.hub with
  | some _ => (s, false)
  | none => (⟨s.registry, s.facade, some place⟩, true)

/-- What the hub does with a message. -/
def toHub (s : Switchboard) (level : Level) (text : String) : List Delivery :=
  Backend.hub s.facade (s.hub.bind s.registry.backend?) level text

/-- Hands a message to a backend without asking whether it is taken. -/
def deliver (s : Switchboard) (b : Backend) (level : Level) (text : String) : List Delivery :=
  b.deliver s.facade s.toHub level text

/-- Logs a message through the handle at a place. -/
def log (s : Switchboard) (place : Nat) (level : Level) (text : String) : List Delivery :=
  s.registry.log (Backend.enabled s.facade) (Backend.deliver s.facade s.toHub) place level text

/-- Whether a message of a level would be taken by the backend behind the handle at a place. -/
def enabled (s : Switchboard) (place : Nat) (level : Level) : Bool :=
  (s.registry.backend? place).any (·.enabled s.facade level)

end Switchboard

end CallSite
