import EntityFetch.Catalog.Relation
import EntityFetch.Distinct

/-!
# Entities

An entity is a table with its columns, one of them the primary key, and the
relations of which it is the owner, each with a name of its own.
-/

namespace EntityFetch

/-- An entity as it is declared. -/
structure EntityDecl where
  name : String
  table : String
  primaryKey : String := "id"
  columns : List String := []
  relations : List RelationDecl := []
deriving DecidableEq, Repr

namespace EntityDecl

/-- The entity with more columns, those that are new. -/
def addColumns (e : EntityDecl) (columns : List String) : EntityDecl :=
  { e with columns := addAllNew e.columns columns }

/-- Relations with one more, which takes the place of one of the same name. -/
def putRelation (r : RelationDecl) : List RelationDecl → List RelationDecl
  | [] => [r]
  | s :: ss => if s.name = r.name then r :: ss else s :: putRelation r ss

/-- The entity with one more relation. -/
def addRelation (e : EntityDecl) (r : RelationDecl) : EntityDecl :=
  { e with relations := putRelation r e.relations }

/-- The columns, of which the primary key is the first if it is not declared. -/
def allColumns (e : EntityDecl) : List String :=
  if e.columns.contains e.primaryKey then e.columns else e.primaryKey :: e.columns

end EntityDecl

/-- An entity of a catalog. -/
structure Entity where
  name : String
  table : String
  primaryKey : String
  columns : List String
  relations : List Relation
deriving DecidableEq, Repr

namespace Entity

/-- Whether the entity has a column. -/
def hasColumn (e : Entity) (column : String) : Bool :=
  e.columns.contains column

/-- The relation with a name. -/
def relation? (e : Entity) (name : String) : Option Relation :=
  e.relations.find? (·.name == name)

/-- The names of the relations. -/
def relationNames (e : Entity) : List String :=
  e.relations.map Relation.name

/-- The relations that are loaded without being asked for. -/
def eagerRelations (e : Entity) : List Relation :=
  e.relations.filter Relation.eager

end Entity

end EntityFetch
