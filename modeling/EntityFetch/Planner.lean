import EntityFetch.Json.Printer
import EntityFetch.Statement.Compile

/-!
# Planners

A planner holds what all fetches share: the catalog, the global filters and the
configuration. For a fetch it makes the load plan and compiles it into statements,
without executing any of them.
-/

namespace EntityFetch

/-- What all fetches share. -/
structure Planner where
  catalog : Catalog
  filters : GlobalFilters
  config : Config

namespace Planner

/-- A planner, if the configuration is valid and the filters fit the catalog. -/
def make (catalog : Catalog) (filters : GlobalFilters) (config : Config) :
    Except QueryError Planner := do
  config.validate
  filters.validate catalog
  return { catalog, filters, config }

/-- The load plan for a root and the paths that are asked for. -/
def plan (p : Planner) (root : String) (populate : List RelationPath) :
    Except QueryError LoadPlan := do
  let graph ← Graph.resolve p.catalog p.config.loading.maxDepth root populate
  return p.config.loading.defaults.select graph

/-- The scope with the configured filters below its own. -/
def layered (p : Planner) (scope : QueryScope) : QueryScope :=
  { scope with filters := p.config.filterDefaults.merged scope.filters }

/-- The statements of a plan. -/
def compilePlan (p : Planner) (plan : LoadPlan) (scope : QueryScope) :
    Except QueryError CompiledPlan :=
  Compiler.compile { catalog := p.catalog, filters := p.filters, sql := p.config.sql } plan
    (p.layered scope)

/-- The plan and the statements of a fetch. -/
def compile (p : Planner) (root : String) (populate : List RelationPath) (scope : QueryScope) :
    Except QueryError CompiledPlan := do
  p.compilePlan (← p.plan root populate) scope

/-- A compiled statement in lines, the second of which has the parameters. -/
def explainStatement (d : Dialect) (c : CompiledStatement) : String :=
  let params := c.statement.params
  "[" ++ c.group.repr ++ "] " ++ c.statement.sqlText d ++ "\n" ++
    if params.isEmpty then ""
    else "    params: " ++ (Json.arr (params.map Value.toJson)).text ++ "\n"

/-- The plan of a fetch and its statements as text. -/
def explain (p : Planner) (root : String) (populate : List RelationPath) (scope : QueryScope) :
    Except QueryError String := do
  let compiled ← p.compile root populate scope
  return compiled.plan.text ++
    String.join (compiled.statements.map (explainStatement p.config.sql.database))

end Planner

end EntityFetch
