import CallSite.Logging.Filter

/-!
# Facade — the process-wide log

Messages that no host takes over go to a process-wide log.  It has a maximum, which is asked first,
and at most one implementation, which may ask a filter.
-/

namespace CallSite

/-- What receives the messages of the process-wide log. -/
inductive Installed where
  | nothing
  /-- Something that takes every message. -/
  | everything
  /-- Something that takes what a filter lets through. -/
  | filtered (filter : Filter)
  deriving DecidableEq, Repr

/-- The process-wide log. -/
structure Facade where
  maximum : Limit
  installed : Installed
  deriving DecidableEq, Repr

/-- A message in the process-wide log. -/
structure FacadeRecord where
  target : String
  severity : Severity
  text : String
  deriving DecidableEq, Repr

/-- Whether the installed implementation takes messages of a target and a severity. -/
def Installed.takes : Installed → String → Severity → Bool
  | .nothing, _, _ => false
  | .everything, _, _ => true
  | .filtered filter, target, severity => (filter.limitFor target).allows severity

/-- Whether the installed implementation takes messages with a text. -/
def Installed.takesText : Installed → String → Bool
  | .filtered filter, text => filter.passes text
  | _, _ => true

namespace Facade

/-- The log before anything is installed. -/
def silent : Facade := ⟨none, .nothing⟩

/-- The log with an implementation that takes everything. -/
def listening : Facade := ⟨some .trace, .everything⟩

/-- Whether a message would be taken. -/
def enabled (f : Facade) (target : String) (severity : Severity) : Bool :=
  f.maximum.allows severity && f.installed.takes target severity

/-- What becomes of a message: a record, or nothing. -/
def log (f : Facade) (target : String) (severity : Severity) (text : String) : List FacadeRecord :=
  if f.enabled target severity && f.installed.takesText text then [⟨target, severity, text⟩] else []

end Facade

namespace FacadeRecord

/-- The severity and the target in front of a written record. -/
def heading (r : FacadeRecord) : String :=
  let severity := r.severity.name
  let padded := severity.pushn ' ' (5 - severity.length)
  "[" ++ padded ++ (if r.target = "" then "" else " " ++ r.target) ++ "]"

/-- The lines of a written record; those behind the first are indented. -/
def lines (r : FacadeRecord) : List String :=
  match r.text.splitOn "\n" with
  | [] => [r.heading]
  | first :: more => (r.heading ++ " " ++ first) :: more.map ("    " ++ ·)

end FacadeRecord

end CallSite
