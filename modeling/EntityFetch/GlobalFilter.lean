import EntityFetch.Catalog
import EntityFetch.Filter
import EntityFetch.GlobalFilter.Overrides

/-!
# Global filters

A global filter is a named filter of an entity that applies wherever rows of the
entity are read, unless it is switched off. It is either fixed or built for each
fetch from arguments.

* `GlobalFilters.register`: adds a filter, whose name is to be new for its entity;
* `GlobalFilters.validate`: checks the filters against a catalog, as far as they
  are fixed;
* `GlobalFilters.active`: the filters that apply to an entity under overrides,
  in the order of their registration.
-/

namespace EntityFetch

/-- What a global filter says. -/
inductive GlobalPredicate where
  | fixed (filter : Filter)
  /-- Built from the arguments of a fetch, if they fit. -/
  | built (build : Args → Except QueryError Filter)

/-- A named filter of an entity. -/
structure GlobalFilter where
  name : String
  entity : String
  predicate : GlobalPredicate
  /-- Whether the filter applies if nothing is said of it. -/
  enabledByDefault : Bool := true
  /-- The arguments that are used where none of that name is given. -/
  defaultArgs : Args := []

/-- The filter that a global filter amounts to, given arguments. -/
def GlobalFilter.resolve (g : GlobalFilter) (args : Args) : Except QueryError Filter :=
  match g.predicate with
  | .fixed f => .ok f
  | .built build => (build (Assoc.extend g.defaultArgs args)).mapError (·.withEntity g.entity)

/-- A global filter that applies in a fetch. -/
structure ActiveFilter where
  name : String
  filter : Filter
deriving Repr

/-- The global filters of all entities, in the order of their registration. -/
structure GlobalFilters where
  filters : List GlobalFilter := []

namespace GlobalFilters

/-- The filters of an entity. -/
def of (gs : GlobalFilters) (entity : String) : List GlobalFilter :=
  gs.filters.filter (·.entity == entity)

/-- The filters and one more, unless its entity has one of that name. -/
def register (gs : GlobalFilters) (g : GlobalFilter) : Except QueryError GlobalFilters :=
  if (gs.of g.entity).any (·.name == g.name) then
    .error (Fault.duplicate "Filter" (g.entity ++ "." ++ g.name))
  else .ok { filters := gs.filters ++ [g] }

/-- The global filters of a list, whose names are to be distinct. -/
def ofList (gs : List GlobalFilter) : Except QueryError GlobalFilters :=
  gs.foldlM register {}

/-- The number of filters. -/
def size (gs : GlobalFilters) : Nat :=
  gs.filters.length

/-- Whether there is no filter. -/
def isEmpty (gs : GlobalFilters) : Bool :=
  gs.filters.isEmpty

/-- The entities that have filters, each once. -/
def entityNames (gs : GlobalFilters) : List String :=
  addAllNew [] (gs.filters.map GlobalFilter.entity)

/-- Checks that the columns of a filter are those of an entity. -/
def checkColumns (e : Entity) (what : String) (f : Filter) : Except QueryError Unit :=
  match f.columns.find? (!e.hasColumn ·) with
  | some c =>
    .error (Fault.invalidFilter e.name (what ++ " references unknown column '" ++ c ++ "'"))
  | none => .ok ()

/-- A global filter in an error. -/
def title (name : String) : String :=
  "filter '" ++ name ++ "'"

/-- Checks that a global filter, if it is fixed, is one of an entity. -/
def checkFilter (e : Entity) (g : GlobalFilter) : Except QueryError Unit :=
  match g.predicate with
  | .fixed f => checkColumns e (title g.name) f
  | .built _ => .ok ()

/-- Checks that the filters belong to entities of a catalog and that the fixed
    ones name columns of theirs. -/
def validate (gs : GlobalFilters) (c : Catalog) : Except QueryError Unit :=
  gs.entityNames.forM fun name => do
    let e ← c.entity name
    (gs.of name).forM (checkFilter e)

/-- Whether a global filter applies under overrides. -/
def isEnabled (overrides : Overrides) (g : GlobalFilter) : Bool :=
  ((overrides.get? g.name).map Setting.enabled).getD g.enabledByDefault

/-- A global filter with the arguments that overrides give it. -/
def activate (overrides : Overrides) (g : GlobalFilter) : Except QueryError ActiveFilter := do
  let f ← g.resolve (((overrides.get? g.name).map Setting.args).getD [])
  return { name := g.name, filter := f }

/-- The filters that apply to an entity under overrides. -/
def active (gs : GlobalFilters) (entity : String) (overrides : Overrides) :
    Except QueryError (List ActiveFilter) :=
  ((gs.of entity).filter (isEnabled overrides)).mapM (activate overrides)

end GlobalFilters

end EntityFetch
