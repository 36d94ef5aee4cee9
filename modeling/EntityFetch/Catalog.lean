import EntityFetch.Catalog.Entity
import EntityFetch.Error

/-!
# Catalogs

A catalog holds the entities that fetches may name. It is built from their
declarations (`Catalog.build`): a catalog has one entity for every declaration,
in the order in which they are declared, and every relation leads from a column
of its owner to a column of an entity in the catalog.

Join columns that are not declared follow from the rest. The owner column of an
owning relation has the name of the relation with `_id` after it, that of any
other is the owner's primary key. The target column is the target's primary key.
-/

namespace EntityFetch

/-- The entities that fetches may name. -/
structure Catalog where
  entities : List Entity := []
deriving DecidableEq, Repr

namespace Catalog

/-! ### Looking up -/

/-- The entity with a name, if there is one. -/
def entity? (c : Catalog) (name : String) : Option Entity :=
  c.entities.find? (·.name == name)

/-- The entity with a name. -/
def entity (c : Catalog) (name : String) : Except QueryError Entity :=
  match c.entity? name with
  | some e => .ok e
  | none => .error (Fault.unknownEntity name)

/-- The relation of an entity with a name. -/
def relation (c : Catalog) (entity name : String) : Except QueryError Relation := do
  let owner ← c.entity entity
  match owner.relation? name with
  | some r => .ok r
  | none => .error (Fault.unknownRelation entity name owner.relationNames)

/-! ### Building -/

/-- Checks that the names are distinct and none of them has been seen. -/
def checkNames (seen : List String) : List EntityDecl → Except QueryError Unit
  | [] => .ok ()
  | e :: es =>
    if seen.contains e.name then .error (Fault.duplicate "Entity" e.name)
    else checkNames (e.name :: seen) es

/-- The owner column of a relation of an entity. -/
def ownerColumn (owner : EntityDecl) (r : RelationDecl) : String :=
  r.ownerColumn.getD (if r.owning then r.name ++ "_id" else owner.primaryKey)

/-- A declared relation with its owner and both columns, in a catalog of the
    given declarations. -/
def resolveRelation (decls : List EntityDecl) (owner : EntityDecl) (r : RelationDecl) :
    Except QueryError Relation :=
  match decls.find? (·.name == r.target) with
  | none =>
    .error <| QueryError.withRelation (Fault.unknownEntity r.target) (owner.name ++ "." ++ r.name)
  | some target =>
    .ok
      { name := r.name
        owner := owner.name
        target := r.target
        cardinality := r.cardinality
        nullable := r.nullable
        eager := r.eager
        strategy := r.strategy
        owning := r.owning
        ownerColumn := ownerColumn owner r
        targetColumn := r.targetColumn.getD target.primaryKey }

/-- A declared entity with all its columns and relations. -/
def resolveEntity (decls : List EntityDecl) (e : EntityDecl) : Except QueryError Entity := do
  let relations ← e.relations.mapM (resolveRelation decls e)
  return { name := e.name, table := e.table, primaryKey := e.primaryKey
           columns := e.allColumns, relations }

/-- Checks that the columns of a relation of an entity are declared. -/
def checkRelation (c : Catalog) (owner : Entity) (r : Relation) : Except QueryError Unit := do
  unless owner.hasColumn r.ownerColumn do
    throw <| QueryError.withRelation (Fault.unknownColumn owner.name r.ownerColumn) r.name
  let target ← c.entity r.target
  unless target.hasColumn r.targetColumn do
    throw <| QueryError.withRelation (Fault.unknownColumn target.name r.targetColumn)
      (owner.name ++ "." ++ r.name)

/-- The catalog of some declarations, if they belong together. -/
def build (decls : List EntityDecl) : Except QueryError Catalog := do
  checkNames [] decls
  let c : Catalog := { entities := ← decls.mapM (resolveEntity decls) }
  c.entities.forM fun e => e.relations.forM (checkRelation c e)
  return c

end Catalog

end EntityFetch
