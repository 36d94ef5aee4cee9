import EntityFetch.Config
import EntityFetch.Plan
import EntityFetch.Statement
import EntityFetch.Statement.Alias

/-!
# Compiling plans

Every group of a load plan becomes a statement. It reads all columns of the root
of the group and of the relations joined to it. The root of a fetch is read as the
caller says; any other root is looked up by the keys of its owners, which are
bound later, and read in the order of its primary key. The global filters of the
root are conditions of the statement, those of a joined relation are part of its
join.

A join is inner only if nothing can be missing: the relation is eager and not
nullable, no filter applies to it, it is not upgraded, and it starts at the root
or at an inner join. Hence no relation that is asked for keeps a row of the root
from being read.
-/

namespace EntityFetch

/-- What a caller says about one fetch. -/
structure QueryScope where
  /-- A condition on the root. -/
  criteria : Filter := .always
  /-- Overrides for all entities. -/
  filters : Overrides := {}
  /-- Overrides for the entities at single paths, over those for all. -/
  populateFilters : List (String × Overrides) := []
  /-- The order of the rows of the root. -/
  orderBy : List OrderBy := []
  /-- The greatest number of rows of the root. -/
  take : Option Nat := none
  /-- The number of rows of the root to leave out. -/
  skip : Option Nat := none

/-- The overrides at a path, the root being at the empty one. -/
def QueryScope.overridesFor (s : QueryScope) (path : String) : Overrides :=
  match s.populateFilters.lookup path with
  | some specific => s.filters.merged specific
  | none => s.filters

/-- How a joined relation hangs together with its owner. -/
structure SlotLink where
  /-- The name of the relation. -/
  relation : String
  /-- The place of the owner in the list of slots. -/
  parent : Nat
  kind : JoinKind
deriving DecidableEq, Repr

/-- What is read at one alias of a statement. -/
structure Slot where
  aliasName : String
  entity : String
  primaryKey : String
  columns : List String
  /-- The relation, none for the root of a fetch. -/
  node : Option Nat
  /-- The link to the owner, none for the root of the statement. -/
  link : Option SlotLink
deriving DecidableEq, Repr

namespace Slot

/-- Whether every row of the root has a row at the alias: the slot is that of
    the root or inner joined. -/
def isInner (s : Slot) : Bool :=
  (s.link.map fun l => decide (l.kind = .inner)).getD true

/-- The columns with their alias. -/
def columnRefs (s : Slot) : List ColumnRef :=
  s.columns.map fun column => { aliasName := s.aliasName, column }

end Slot

/-- The statement of a group. -/
structure CompiledStatement where
  group : Nat
  statement : Statement
  /-- What is read at the aliases of the statement, that of the root first. -/
  slots : List Slot

/-- A plan with the statements of its groups. -/
structure CompiledPlan where
  plan : LoadPlan
  /-- The statements in the order of the groups. -/
  statements : List CompiledStatement

namespace CompiledPlan

/-- The statement of a group. -/
def statement? (c : CompiledPlan) (group : Nat) : Option CompiledStatement :=
  c.statements[group]?

/-- The statement that reads the root of the fetch. -/
def primary? (c : CompiledPlan) : Option CompiledStatement :=
  c.statement? 0

end CompiledPlan

/-- What compiling depends on besides the plan and the scope. -/
structure Compiler where
  catalog : Catalog
  filters : GlobalFilters
  sql : SqlConfig

namespace Compiler

/-- The part of a statement that is compiled so far. -/
structure Draft where
  pool : AliasPool
  joins : List Join
  slots : List Slot

/-- The global filters that apply to an entity at a path. They have to name
    columns of the entity. -/
def activeAt (k : Compiler) (scope : QueryScope) (e : Entity) (path : String) :
    Except QueryError (List ActiveFilter) := do
  let active ← k.filters.active e.name (scope.overridesFor path)
  active.forM fun a => GlobalFilters.checkColumns e (GlobalFilters.title a.name) a.filter
  return active

/-- The conditions, orderings, limit and offset of the root of a fetch. -/
def rootClauses (scope : QueryScope) (e : Entity) (aliasName : String) :
    Except QueryError (List Predicate × List OrderBy × Option Nat × Option Nat) := do
  let criteria : List Predicate :=
    if scope.criteria.isAlways then []
    else [{ aliasName, filter := scope.criteria, source := .criteria }]
  criteria.forM fun p => GlobalFilters.checkColumns e "criteria" p.filter
  match scope.orderBy.find? (!e.hasColumn ·.column) with
  | some o =>
    .error <|
      QueryError.withOperation (Fault.unknownColumn e.name o.column) "Ordering fetch results"
  | none => return (criteria, scope.orderBy, scope.take, scope.skip)

/-- The conditions, orderings, limit and offset of the root of any other group,
    which is found by the keys of its owners. -/
def followUpClauses (r : Relation) (e : Entity) (aliasName : String) :
    List Predicate × List OrderBy × Option Nat × Option Nat :=
  ([{ aliasName, filter := .member r.targetColumn [], source := .keyLookup }],
    [{ column := e.primaryKey }], none, none)

/-- The place of the slot of a relation's owner. -/
def ownerSlot? (group : LoadGroup) (slots : List Slot) (r : PlannedRelation) : Option Nat :=
  if r.node.parent = group.root then some 0
  else r.node.parent.bind fun p => slots.findIdx? (·.node == some p)

/-- The draft and the join of one more relation. -/
def addJoin (k : Compiler) (scope : QueryScope) (group : LoadGroup) (d : Draft)
    (r : PlannedRelation) : Except QueryError Draft := do
  let relation := r.node.relation
  let target ← k.catalog.entity relation.target
  let some parent := ownerSlot? group d.slots r
    | .error <| Fault.planCompilation <|
        "owner of joined relation '" ++ r.path ++ "' is not in the same statement"
  let some owner := d.slots[parent]?
    | .error <| Fault.planCompilation "the statement has no root"
  let filters ← k.activeAt scope target r.path
  let kind : JoinKind :=
    if !relation.nullable && relation.eager && !r.upgraded && filters.isEmpty && owner.isInner
    then .inner else .left
  let (aliasName, pool) ← d.pool.allocate (pathAlias r.path)
  let join : Join :=
    { kind
      table := { table := target.table, aliasName }
      parentAlias := owner.aliasName
      parentColumn := relation.ownerColumn
      column := relation.targetColumn
      filters
      path := r.path }
  let slot : Slot :=
    { aliasName
      entity := target.name
      primaryKey := target.primaryKey
      columns := target.columns
      node := some r.node.id
      link := some { relation := relation.name, parent, kind } }
  return { pool, joins := d.joins ++ [join], slots := d.slots ++ [slot] }

/-- Checks that all conditions of a statement are on its root. -/
def checkScoping (s : Statement) : Except QueryError Unit :=
  match s.predicates.find? (·.aliasName != s.root.aliasName) with
  | some p =>
    .error <| QueryError.withSql
      (Fault.planCompilation ("WHERE clause references joined alias '" ++ p.aliasName ++ "'"))
      s.text
  | none => .ok ()

/-- The relation of a node that a group names. -/
def planned (plan : LoadPlan) (id : Nat) : Except QueryError PlannedRelation :=
  match plan.relation? id with
  | some r => .ok r
  | none => .error (Fault.planCompilation ("no relation has the number " ++ id.repr))

/-- The statement of a group. -/
def compileGroup (k : Compiler) (plan : LoadPlan) (scope : QueryScope) (group : LoadGroup) :
    Except QueryError CompiledStatement := do
  let root ← group.root.mapM (planned plan)
  let e ← k.catalog.entity ((root.map fun r => r.node.relation.target).getD plan.root)
  let path := (root.map PlannedRelation.path).getD ""
  let base := (root.map fun r => pathAlias r.path).getD (snakeCase plan.root)
  let pool : AliasPool :=
    { maxLength := k.sql.maxIdentifierLength, maxSuffix := k.sql.maxAliasSuffix }
  let (aliasName, pool) ← pool.allocate base
  let (predicates, orderBy, limit, offset) ←
    match root with
    | none => rootClauses scope e aliasName
    | some r => pure (followUpClauses r.node.relation e aliasName)
  let active ← k.activeAt scope e path
  let slot : Slot :=
    { aliasName, entity := e.name, primaryKey := e.primaryKey, columns := e.columns
      node := group.root, link := none }
  let joined ← group.joined.mapM (planned plan)
  let d ← joined.foldlM (k.addJoin scope group) { pool, joins := [], slots := [slot] }
  let statement : Statement :=
    { root := { table := e.table, aliasName }
      columns := d.slots.flatMap Slot.columnRefs
      joins := d.joins
      predicates := predicates ++ active.map fun a =>
        { aliasName, filter := a.filter, source := .globalFilter a.name }
      orderBy, limit, offset }
  checkScoping statement
  return { group := group.index, statement, slots := d.slots }

/-- The statements of all groups of a plan. -/
def compile (k : Compiler) (plan : LoadPlan) (scope : QueryScope) :
    Except QueryError CompiledPlan := do
  return { plan, statements := ← plan.groups.mapM (k.compileGroup plan scope) }

end Compiler

end EntityFetch
