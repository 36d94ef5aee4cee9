import EntityFetch.Error
import EntityFetch.GlobalFilter.Overrides
import EntityFetch.Plan.Select
import EntityFetch.Sql.Dialect

/-!
# Configuration

What holds for all fetches of a planner: how relations are loaded by default and
within which limits, how SQL is written, which global filters are on, and what is
logged. How a configuration is read from a text is in
`EntityFetch.Config.Decode`.
-/

namespace EntityFetch

/-- Loading of relations. -/
structure LoadingConfig where
  /-- The strategy for eager relations that declare none. -/
  eagerStrategy : Strategy := .joined
  /-- The strategy for relations that are asked for and declare none. -/
  populateStrategy : Strategy := .selectIn
  /-- The greatest number of relations in a row. -/
  maxDepth : Nat := 8
  /-- The greatest number of keys that one statement looks up. -/
  batchSize : Nat := 1000
  /-- The greatest number of statements under way at a time. -/
  maxConcurrency : Nat := 4
deriving DecidableEq, Repr

/-- Writing of SQL. -/
structure SqlConfig where
  database : Dialect := .postgresql
  /-- The greatest number of characters of an alias. -/
  maxIdentifierLength : Nat := 63
  /-- The greatest number that is put after an alias that is taken. -/
  maxAliasSuffix : Nat := 99
deriving DecidableEq, Repr

/-- Logging. -/
structure DebugConfig where
  logPlans : Bool := false
  logStatements : Bool := false
deriving DecidableEq, Repr

/-- A configuration. -/
structure Config where
  loading : LoadingConfig := {}
  sql : SqlConfig := {}
  /-- Which global filters are on or off, by name. -/
  filters : List (String × Bool) := []
  debug : DebugConfig := {}
deriving DecidableEq, Repr

namespace LoadingConfig

/-- The strategies where nothing is declared. -/
def defaults (l : LoadingConfig) : StrategyDefaults :=
  { eager := l.eagerStrategy, populate := l.populateStrategy }

end LoadingConfig

namespace Config

/-- The least limit to the length of aliases. It leaves room for numbers after
    them. -/
def minIdentifierLength : Nat := 8

/-- Checks that no limit is too small. -/
def validate (c : Config) : Except QueryError Unit :=
  if c.loading.maxDepth = 0 then
    .error (Fault.invalidConfiguration "loading.max_depth must be at least 1")
  else if c.loading.batchSize = 0 then
    .error (Fault.invalidConfiguration "loading.batch_size must be at least 1")
  else if c.loading.maxConcurrency = 0 then
    .error (Fault.invalidConfiguration "loading.max_concurrency must be at least 1")
  else if c.sql.maxIdentifierLength < minIdentifierLength then
    .error <| Fault.invalidConfiguration <|
      "sql.max_identifier_length must be at least " ++ minIdentifierLength.repr
  else .ok ()

/-- The lowest layer of overrides. -/
def filterDefaults (c : Config) : Overrides :=
  c.filters.foldl (fun o f => o.set f.1 f.2) Overrides.empty

end Config

end EntityFetch
