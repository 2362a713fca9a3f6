import CallSite.Logging.Facade

/-!
# Setup — installing the process-wide log once

The first setup installs a filtered log, unless something is installed already, which then stays.
Further setups change nothing.  The filter is the one asked for, else the one of the environment,
else information and above.
-/

namespace CallSite

/-- What a process knows about its log. -/
structure LogState where
  facade : Facade
  /-- Whether a setup has been run. -/
  done : Bool
  deriving DecidableEq, Repr

namespace LogState

/-- The target of the messages about the setup itself. -/
def setupTarget : String := "scry_engine::logging::init"

/-- The filter that a setup installs. -/
def chosenFilter (asked environment : Option String) : Filter :=
  match asked, environment with
  | some text, _ => .ofText text
  | none, some text => .ofText text
  | none, none => .ofDirectives [⟨none, some .info⟩] none

/-- Runs a setup: the state behind it and the records it makes. -/
def setup (environment : Option String) (s : LogState) (asked : Option String) :
    LogState × List FacadeRecord :=
  if s.done then (s, [])
  else
    match s.facade.installed with
    | .nothing =>
      let filter := chosenFilter asked environment
      let facade : Facade := ⟨filter.maximum, .filtered filter⟩
      (⟨facade, true⟩, facade.log setupTarget .debug "logging initialized")
    | _ =>
      (⟨s.facade, true⟩,
        s.facade.log setupTarget .debug "a global logger is already installed; keeping it")

end LogState

end CallSite
