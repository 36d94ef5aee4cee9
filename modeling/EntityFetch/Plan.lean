import EntityFetch.Graph

/-!
# Load plans

A load plan says how every relation of a fetch is loaded, and in which
statements. A statement loads a *group*: the root of the fetch or a relation with
a statement of its own, and all relations below it that are joined to it.

A group depends on the group that loads the owners of its root. The groups are
executed in waves: the wave of a group is the one after that of the group on
which it depends.
-/

namespace EntityFetch

/-- A relation and how it is loaded. -/
structure PlannedRelation where
  node : Node
  strategy : Strategy
  /-- Whether the relation is joined only because others in its group are. -/
  upgraded : Bool
  /-- The group that loads the relation. -/
  group : Nat
deriving DecidableEq, Repr

namespace PlannedRelation

/-- The dotted path from the root. -/
def path (r : PlannedRelation) : String :=
  r.node.path

/-- Whether the relation is joined. -/
def isJoined (r : PlannedRelation) : Bool :=
  r.strategy = .joined

end PlannedRelation

/-- What one statement loads. -/
structure LoadGroup where
  /-- The place in the list of groups. -/
  index : Nat
  /-- The relation at the root, none for the root of the fetch. -/
  root : Option Nat
  /-- The group that loads the owners of the root. -/
  parentGroup : Option Nat
  /-- The wave in which the group is executed, 0 for the root of the fetch. -/
  wave : Nat
  /-- The joined relations, parents before their children. -/
  joined : List Nat
deriving DecidableEq, Repr

namespace LoadGroup

/-- The group of the root of a fetch, without joined relations. -/
def primary : LoadGroup :=
  { index := 0, root := none, parentGroup := none, wave := 0, joined := [] }

/-- Whether the group is that of the root of the fetch. -/
def isPrimary (g : LoadGroup) : Bool :=
  g.root.isNone

end LoadGroup

/-- How all relations of a fetch are loaded. -/
structure LoadPlan where
  /-- The entity of the root. -/
  root : String
  /-- The paths that are asked for. -/
  requested : List String
  /-- The relations, in the order of their nodes. -/
  relations : List PlannedRelation
  /-- The groups, that of the root being the first. -/
  groups : List LoadGroup
deriving DecidableEq, Repr

namespace LoadPlan

/-- The relation of a node. -/
def relation? (p : LoadPlan) (id : Nat) : Option PlannedRelation :=
  p.relations[id]?

/-- The relation with a path. -/
def byPath? (p : LoadPlan) (path : String) : Option PlannedRelation :=
  p.relations.find? (·.path == path)

/-- The groups of relations with a statement of their own. -/
def followUps (p : LoadPlan) : List LoadGroup :=
  p.groups.drop 1

/-- The number of the last wave. -/
def lastWave (p : LoadPlan) : Nat :=
  p.groups.foldl (fun w g => max w g.wave) 0

/-- The groups of every wave after that of the root. -/
def waves (p : LoadPlan) : List (List Nat) :=
  (List.range p.lastWave).map fun w =>
    (p.groups.filter (·.wave == w + 1)).map LoadGroup.index

/-- The joined relations of a group directly below a relation or the root. -/
def joinedChildren (p : LoadPlan) (group : Nat) (parent : Option Nat) : List PlannedRelation :=
  ((p.groups[group]?.map LoadGroup.joined).getD []).filterMap p.relation?
    |>.filter (·.node.parent == parent)

/-- Whether one statement loads everything. -/
def isSingleStatement (p : LoadPlan) : Bool :=
  p.groups.length = 1

/-! ### Text -/

/-- A line on a relation, indented by its depth. -/
def relationLine (r : PlannedRelation) : String :=
  String.join (List.replicate r.node.depth "  ") ++ r.path ++ " [" ++ r.strategy.name ++
    (if r.upgraded then ", upgraded" else "") ++ "] group=" ++ r.group.repr ++ "\n"

/-- The plan in lines, one for the root and one for every relation. -/
def text (p : LoadPlan) : String :=
  "LoadPlan " ++ p.root ++ " (" ++ p.groups.length.repr ++ " statements)\n" ++
    String.join (p.relations.map relationLine)

end LoadPlan

end EntityFetch
