import EntityFetch.Environment

/-!
# Logging

Three variables of the environment settle what is logged and how: `PRAX_DEBUG`,
`PRAX_LOG_LEVEL` and `PRAX_LOG_FORMAT`. Their values are read without regard to
case. Only words of ASCII are looked for, and no other letter has a lower case
that is part of them.
-/

namespace EntityFetch

/-- The levels, from the most to the least that is logged. -/
inductive LogLevel where
  | trace
  | debug
  | info
  | warn
  | error
deriving DecidableEq, Repr

/-- How an event is written. -/
inductive LogFormat where
  /-- An object of JSON. -/
  | json
  /-- Several lines to be read by people. -/
  | pretty
  /-- One line to be read by people. -/
  | compact
deriving DecidableEq, Repr

namespace LogLevel

/-- The name of a level. -/
def name : LogLevel → String
  | trace => "trace"
  | debug => "debug"
  | info => "info"
  | warn => "warn"
  | error => "error"

/-- The level with a name. -/
def ofName? (s : String) : Option LogLevel :=
  [trace, debug, info, warn, error].find? (·.name == s)

end LogLevel

/-- What is logged and how. -/
structure Logging where
  /-- Whether debugging is asked for. -/
  debug : Bool
  level : LogLevel
  format : LogFormat
deriving DecidableEq, Repr

namespace Logging

/-- Reads the settings off an environment. A level that is given wins over
    debugging, which wins over the default. -/
def ofEnvironment (env : Environment) : Logging :=
  let word (name : String) : String := ((env name).getD "").toLower
  let debug := ["true", "1", "yes"].contains (word "PRAX_DEBUG")
  { debug
    level := (LogLevel.ofName? (word "PRAX_LOG_LEVEL")).getD (if debug then .debug else .warn)
    format :=
      match word "PRAX_LOG_FORMAT" with
      | "pretty" => .pretty
      | "compact" => .compact
      | _ => .json }

end Logging

end EntityFetch
