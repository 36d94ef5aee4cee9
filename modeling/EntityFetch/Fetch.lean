import EntityFetch.FollowUp
import EntityFetch.Planner

/-!
# Fetches

A fetch names an entity as its root, says which rows of it are wanted and which
relations are to be loaded with them (`FetchRequest`). Running it
(`Planner.fetchMany`) compiles all statements before the first is executed, so
that nothing is executed for a request that cannot be planned.
-/

namespace EntityFetch

/-- What a fetch is asked for. -/
structure FetchRequest where
  /-- The entity of the root. -/
  root : String
  /-- The paths of the relations to load. -/
  populate : List String := []
  scope : QueryScope := {}

namespace FetchRequest

/-- The request with a further condition on the root. -/
def restrict (r : FetchRequest) (f : Filter) : FetchRequest :=
  { r with scope := { r.scope with criteria := r.scope.criteria.andThen f } }

/-- The request with a further path to load. -/
def withPath (r : FetchRequest) (path : String) : FetchRequest :=
  { r with populate := r.populate ++ [path] }

/-- The request with further overrides. -/
def withOverrides (r : FetchRequest) (f : Overrides → Overrides) : FetchRequest :=
  { r with scope := { r.scope with filters := f r.scope.filters } }

/-- The request with overrides at a path. -/
def withPathOverrides (r : FetchRequest) (path : String) (o : Overrides) : FetchRequest :=
  { r with scope := { r.scope with
      populateFilters := Assoc.insert path o r.scope.populateFilters } }

/-- The request with a further ordering of the root. -/
def orderedBy (r : FetchRequest) (o : OrderBy) : FetchRequest :=
  { r with scope := { r.scope with orderBy := r.scope.orderBy ++ [o] } }

/-- The request for at most so many roots. -/
def take (r : FetchRequest) (n : Nat) : FetchRequest :=
  { r with scope := { r.scope with take := some n } }

/-- The request without so many roots at the start. -/
def skip (r : FetchRequest) (n : Nat) : FetchRequest :=
  { r with scope := { r.scope with skip := some n } }

end FetchRequest

namespace Planner

/-- The statements of a request. -/
def prepare (p : Planner) (r : FetchRequest) : Except QueryError CompiledPlan := do
  let paths ← r.populate.mapM RelationPath.parse
  p.compile r.root paths r.scope

variable {σ : Type}

/-- The records of a compiled request. -/
def runCompiled (p : Planner) (x : Executor σ) (c : CompiledPlan) (state : σ) :
    Except QueryError (List Record) × σ :=
  match c.primary? with
  | none => (.error (Fault.internal "the plan has no statement"), state)
  | some primary =>
    match x.run primary.statement state with
    | (.error e, state) => (.error e, state)
    | (.ok rows, state) =>
      match primary.assemble rows with
      | .error e => (.error e, state)
      | .ok roots =>
        match c.dispatch x p.config.loading.batchSize roots state with
        | ((_, some e), state) => (.error e, state)
        | ((records, none), state) => (.ok records, state)

/-- All records of a request. -/
def fetchMany (p : Planner) (x : Executor σ) (r : FetchRequest) (state : σ) :
    Except QueryError (List Record) × σ :=
  match p.prepare r with
  | .error e => (.error e, state)
  | .ok c => p.runCompiled x c state

/-- The first record of a request. -/
def fetchOne (p : Planner) (x : Executor σ) (r : FetchRequest) (state : σ) :
    Except QueryError (Option Record) × σ :=
  match p.fetchMany x (r.take 1) state with
  | (.error e, state) => (.error e, state)
  | (.ok records, state) => (.ok records.head?, state)

end Planner

end EntityFetch
