import CallSite.Text.Escaped

/-!
# Levels — how important a message is

A logger knows seven levels.  The process-wide log knows five severities, so two pairs of levels
share one: a success is an information there, and a critical message an error.  A limit is a
severity or nothing at all, and lets through what is at least as severe.
-/

namespace CallSite

/-- The severities of the process-wide log, most severe first. -/
inductive Severity where
  | error | warn | info | debug | trace
  deriving DecidableEq, Repr

namespace Severity

/-- All severities, most severe first. -/
def all : List Severity := [.error, .warn, .info, .debug, .trace]

/-- The written name. -/
def name : Severity → String
  | .error => "ERROR"
  | .warn => "WARN"
  | .info => "INFO"
  | .debug => "DEBUG"
  | .trace => "TRACE"

/-- How much is let through when this is the limit; the most severe counts one. -/
def rank : Severity → Nat
  | .error => 1
  | .warn => 2
  | .info => 3
  | .debug => 4
  | .trace => 5

end Severity

/-- The least severity that is let through; without one nothing is. -/
abbrev Limit := Option Severity

namespace Limit

/-- How much the limit lets through. -/
def rank (l : Limit) : Nat := (l.map Severity.rank).getD 0

/-- Whether messages of a severity are let through. -/
def allows (l : Limit) (s : Severity) : Bool := s.rank ≤ l.rank

/-- The written name. -/
def name (l : Limit) : String := (l.map Severity.name).getD "OFF"

/-- The limit of this name, in either case. -/
def ofText? (text : String) : Option Limit :=
  (none :: Severity.all.map some).find? fun l => l.name.toLower == text.toLower

end Limit

/-- The levels of a logger, least important first. -/
inductive Level where
  | trace | debug | info | success | warning | error | critical
  deriving DecidableEq, Repr

namespace Level

/-- All levels, least important first. -/
def all : List Level := [.trace, .debug, .info, .success, .warning, .error, .critical]

/-- The written name. -/
def name : Level → String
  | .trace => "trace"
  | .debug => "debug"
  | .info => "info"
  | .success => "success"
  | .warning => "warning"
  | .error => "error"
  | .critical => "critical"

/-- The place of the level in the order of importance, from zero. -/
def rank : Level → Nat
  | .trace => 0
  | .debug => 1
  | .info => 2
  | .success => 3
  | .warning => 4
  | .error => 5
  | .critical => 6

/-- The severity under which the process-wide log files the level. -/
def severity : Level → Severity
  | .trace => .trace
  | .debug => .debug
  | .info | .success => .info
  | .warning => .warn
  | .error | .critical => .error

/-- The level of this name, in either case. -/
def ofText? (text : String) : Option Level := all.find? fun l => l.name == text.toLower

/-- A more important level is filed under a severity that is at least as high. -/
theorem rank_severity_le {l m : Level} (h : l.rank ≤ m.rank) :
    m.severity.rank ≤ l.severity.rank := by
  revert h
  cases l <;> cases m <;> decide

/-- What is said of a text that names no level. -/
def unknownMessage (text : String) : String := "unknown log level " ++ quotedText text

end Level

/-- A message on its way to a logger. -/
structure Message where
  /-- The name of the logger. -/
  logger : String
  level : Level
  text : String
  deriving DecidableEq, Repr

end CallSite
