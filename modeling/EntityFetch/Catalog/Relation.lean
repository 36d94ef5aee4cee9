/-!
# Relations

A relation leads from the rows of one entity, its owner, to rows of another, its
target: those whose target column equals the owner column. In an *owning*
relation the owner column is the foreign key and the target column the target's
primary key; in any other it is the other way round, and the foreign key is on
the target.

A relation is declared (`RelationDecl`) with the columns that are known at that
point. In a catalog (`Relation`) it has both, and its owner.
-/

namespace EntityFetch

/-- How many rows a relation leads to. -/
inductive Cardinality where
  /-- At most one. -/
  | one
  /-- Any number. -/
  | many
deriving DecidableEq, Repr

/-- A way to load a relation. -/
inductive Strategy where
  /-- By a join in the statement that loads the owners. -/
  | joined
  /-- By a statement of its own, for the keys of the owners. -/
  | selectIn
deriving DecidableEq, Repr

/-- The name of a strategy. -/
def Strategy.name : Strategy → String
  | joined => "joined"
  | selectIn => "select_in"

/-- A relation as it is declared. -/
structure RelationDecl where
  name : String
  target : String
  cardinality : Cardinality
  /-- Whether there may be no target row. -/
  nullable : Bool := false
  /-- Whether the relation is loaded without being asked for. -/
  eager : Bool := false
  /-- The strategy to load it with, if that is not left to the defaults. -/
  strategy : Option Strategy := none
  /-- Whether the foreign key is on the owner. -/
  owning : Bool
  ownerColumn : Option String := none
  targetColumn : Option String := none
deriving DecidableEq, Repr

namespace RelationDecl

/-- A relation from many owners to one target, by a foreign key on the owner. -/
def manyToOne (name target foreignKey : String) : RelationDecl :=
  { name, target, cardinality := .one, owning := true, ownerColumn := some foreignKey }

/-- A relation from one owner to one target, by a foreign key on the owner. -/
def oneToOne (name target foreignKey : String) : RelationDecl :=
  manyToOne name target foreignKey

/-- A relation to the one target whose foreign key points back. There need not
    be one. -/
def hasOne (name target foreignKey : String) : RelationDecl :=
  { name, target, cardinality := .one, nullable := true, owning := false
    targetColumn := some foreignKey }

/-- A relation to all targets whose foreign key points back. -/
def hasMany (name target foreignKey : String) : RelationDecl :=
  { name, target, cardinality := .many, nullable := true, owning := false
    targetColumn := some foreignKey }

end RelationDecl

/-- A relation of a catalog. -/
structure Relation where
  name : String
  owner : String
  target : String
  cardinality : Cardinality
  nullable : Bool
  eager : Bool
  strategy : Option Strategy
  owning : Bool
  ownerColumn : String
  targetColumn : String
deriving DecidableEq, Repr

namespace Relation

/-- The name of a relation with its owner's. -/
def qualifiedName (r : Relation) : String :=
  r.owner ++ "." ++ r.name

/-- Whether the relation may be loaded by a join. -/
def isJoinable (r : Relation) : Bool :=
  r.cardinality = .one

end Relation

end EntityFetch
