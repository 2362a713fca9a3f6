import CallSite.Logging.Facade

/-!
# Backends — where a logger's messages go

A backend tells for each level whether it takes messages, and delivers them.  Delivering does not
ask; asking is the business of the logger (`offer`).  What a host brings along is any type of
backends.  Labels may be put in front of the messages of any backend (`Labelled`).
-/

namespace CallSite

/-- Hands a message to a backend if it takes messages of the level. -/
def offer {β δ : Type} (takes : β → Level → Bool) (send : β → Level → String → List δ) (b : β)
    (level : Level) (text : String) : List δ :=
  if takes b level then send b level text else []

/-! ## Labels -/

/-- A backend, or another one with a label in front of its messages. -/
inductive Labelled (β : Type) where
  | plain (base : β)
  | labelled (label : String) (inner : Labelled β)
  deriving DecidableEq, Repr

namespace Labelled

variable {β δ : Type}

/-- A backend with labels in front of its messages; the first label stands nearest to the text. -/
def withLabels (b : Labelled β) (labels : List String) : Labelled β :=
  labels.foldl (fun inner label => .labelled label inner) b

/-- Whether messages of a level are taken; a label makes no difference. -/
def enabled (takes : β → Level → Bool) : Labelled β → Level → Bool
  | .plain base, level => takes base level
  | .labelled _ inner, level => inner.enabled takes level

/-- Delivers a message with the labels in front of it. -/
def deliver (send : β → Level → String → List δ) : Labelled β → Level → String → List δ
  | .plain base, level, text => send base level text
  | .labelled label inner, level, text => inner.deliver send level (label ++ ": " ++ text)

end Labelled

/-! ## Backends at work -/

/-- A message that has arrived. -/
inductive Delivery where
  /-- In a named sink of a host. -/
  | sink (name : String) (level : Level) (text : String)
  /-- In the process-wide log. -/
  | facade (record : FacadeRecord)
  deriving DecidableEq, Repr

/-- Where messages go in the end. -/
inductive Endpoint where
  /-- To the process-wide log, under a target. -/
  | facade (target : String)
  /-- To a sink, from a level on. -/
  | recorder (sink : String) (least : Level)
  /-- To the hub, under the name of the logger they came from. -/
  | relay (name : String)
  deriving DecidableEq, Repr

namespace Endpoint

/-- Whether messages of a level are taken. -/
def enabled (facade : Facade) : Endpoint → Level → Bool
  | .facade target, level => facade.enabled target level.severity
  | .recorder _ least, level => least.rank ≤ level.rank
  | .relay _, _ => true

/-- Delivers a message; `hub` is what the hub does with one. -/
def deliver (facade : Facade) (hub : Level → String → List Delivery) :
    Endpoint → Level → String → List Delivery
  | .facade target, level, text => (facade.log target level.severity text).map .facade
  | .recorder sink _, level, text => [.sink sink level text]
  | .relay name, level, text => hub level (name ++ ">" ++ text)

end Endpoint

/-- A place where messages go, under any number of labels. -/
abbrev Backend := Labelled Endpoint

namespace Backend

/-- The process-wide log, under a target. -/
def facade (target : String) : Backend := .plain (.facade target)

/-- A sink, from a level on. -/
def recorder (sink : String) (least : Level) : Backend := .plain (.recorder sink least)

/-- The hub, under the name of the logger that messages came from. -/
def relay (name : String) : Backend := .plain (.relay name)

/-- The backend of a logger that no host has taken over. -/
def default (name : String) : Backend := .facade name

/-- Whether messages of a level are taken. -/
def enabled (facade : Facade) (b : Backend) (level : Level) : Bool :=
  Labelled.enabled (Endpoint.enabled facade) b level

/-- Delivers a message; `hub` is what the hub does with one. -/
def deliver (facade : Facade) (hub : Level → String → List Delivery) (b : Backend) (level : Level)
    (text : String) : List Delivery :=
  Labelled.deliver (Endpoint.deliver facade hub) b level text

/-- Delivers a message if it is taken. -/
def offer (facade : Facade) (hub : Level → String → List Delivery) (b : Backend) (level : Level)
    (text : String) : List Delivery :=
  CallSite.offer (Backend.enabled facade) (Backend.deliver facade hub) b level text

/-- What the hub does with a message: its own backend is offered it.  Without a hub the message is
    lost, and a hub that relays would relay to itself, so its messages end there. -/
def hub (facade : Facade) (current : Option Backend) (level : Level) (text : String) :
    List Delivery :=
  match current with
  | some b => b.offer facade (fun _ _ => []) level text
  | none => [.sink "lost" level text]

end Backend

end CallSite
