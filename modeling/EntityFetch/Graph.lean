import EntityFetch.Catalog
import EntityFetch.Graph.Path

/-!
# Relation graphs

The relations that a fetch has to load form a tree below its root: those that
are asked for, with everything on the way to them, and those that are loaded
without being asked for, below the root and below any of the others. Its nodes
are listed with parents before their children.

* `Graph.resolve`: the tree for a root and the paths that are asked for. A path
  that is too deep is an error. Eager relations are followed down to the same
  depth, but never to one that is already on the way from the root.

Nodes are told apart by their paths. The eager relations are added generation by
generation; along one chain they are all different, so that there are no more
generations than eager relations in the catalog.
-/

namespace EntityFetch

/-- A relation at its place in the tree. -/
structure Node where
  /-- The place in the list of nodes. -/
  id : Nat
  /-- The node of the relation before, none for a relation of the root. -/
  parent : Option Nat
  /-- The relations on the way from the root. -/
  ancestors : List Relation
  relation : Relation
  /-- Whether a path that is asked for leads to or through the node. -/
  requested : Bool
deriving DecidableEq, Repr

namespace Node

/-- The relations from the root to the node, the node's own being the last. -/
def chain (n : Node) : List Relation :=
  n.ancestors ++ [n.relation]

/-- The dotted path from the root. -/
def path (n : Node) : String :=
  dotted (n.chain.map Relation.name)

/-- The number of relations from the root. -/
def depth (n : Node) : Nat :=
  n.chain.length

/-- The node of a relation below a parent, or below the root. -/
def below (id : Nat) (parent : Option Node) (relation : Relation) (requested : Bool) : Node :=
  { id
    parent := parent.map Node.id
    ancestors := (parent.map Node.chain).getD []
    relation
    requested }

end Node

/-- The relations that a fetch has to load. -/
structure Graph where
  /-- The entity of the root. -/
  root : String
  /-- The paths that are asked for. -/
  requested : List String
  nodes : List Node
deriving DecidableEq, Repr

namespace Graph

/-- The node with a path. -/
def byPath? (g : Graph) (path : String) : Option Node :=
  g.nodes.find? (·.path == path)

/-- The nodes directly below a node, or below the root. -/
def children (g : Graph) (parent : Option Nat) : List Node :=
  g.nodes.filter (·.parent == parent)

/-! ### Requested paths -/

/-- The nodes of which one is marked as requested. -/
def markRequested (id : Nat) (nodes : List Node) : List Node :=
  nodes.map fun n => if n.id = id then { n with requested := true } else n

/-- The nodes together with those for the rest of a path, which starts at an
    entity below a parent. -/
def follow (c : Catalog) (path : RelationPath) (e : Entity) (parent : Option Node)
    (nodes : List Node) : List String → Except QueryError (List Node)
  | [] => .ok nodes
  | name :: rest => do
    let some r := e.relation? name
      | throw <| QueryError.withOperation (Fault.unknownRelation e.name name e.relationNames)
          ("Resolving populate path '" ++ path.text ++ "'")
    let target ← c.entity r.target
    let node := Node.below nodes.length parent r true
    match nodes.find? (·.path == node.path) with
    | some known => follow c path target (some known) (markRequested known.id nodes) rest
    | none => follow c path target (some node) (nodes ++ [node]) rest

/-- The nodes together with those for a path that is asked for. -/
def request (c : Catalog) (maxDepth : Nat) (root : Entity) (nodes : List Node)
    (path : RelationPath) : Except QueryError (List Node) := do
  if maxDepth < path.depth then
    throw <| QueryError.withEntity (Fault.nestingTooDeep path.text maxDepth) root.name
  follow c path root none nodes path.segments

/-! ### Eager relations -/

/-- Whether two relations are the same one of the same owner. -/
def isSame (r s : Relation) : Bool :=
  r.owner == s.owner && r.name == s.name

/-- The nodes and one for an eager relation below a parent, unless there is a
    node with its path or the relation is on the way to the parent. -/
def addEager (parent : Option Node) (nodes : List Node) (r : Relation) : List Node :=
  let node := Node.below nodes.length parent r false
  if nodes.any (·.path == node.path) || node.ancestors.any (isSame r) then nodes
  else nodes ++ [node]

/-- The nodes and those for the eager relations of an entity below a parent, if
    they are not too deep. -/
def expand (maxDepth : Nat) (e : Entity) (parent : Option Node) (nodes : List Node) : List Node :=
  if maxDepth ≤ (parent.map Node.depth).getD 0 then nodes
  else e.eagerRelations.foldl (addEager parent) nodes

/-- The nodes and those for the eager relations below one of them. -/
def expandNode (c : Catalog) (maxDepth : Nat) (nodes : List Node) (n : Node) :
    Except QueryError (List Node) := do
  let target ← c.entity n.relation.target
  return expand maxDepth target (some n) nodes

/-- The nodes and the generations of eager relations below those from a place on,
    as many generations as are left. -/
def expandFrom (c : Catalog) (maxDepth : Nat) (start : Nat) (nodes : List Node) :
    Nat → Except QueryError (List Node)
  | 0 => .ok nodes
  | left + 1 =>
    match nodes.drop start with
    | [] => .ok nodes
    | generation => do
      let next ← generation.foldlM (expandNode c maxDepth) nodes
      expandFrom c maxDepth nodes.length next left

/-- A bound for the number of generations of eager relations. -/
def generations (c : Catalog) : Nat :=
  (c.entities.flatMap Entity.eagerRelations).length + 1

/-- The relations to load for a root and the paths that are asked for. -/
def resolve (c : Catalog) (maxDepth : Nat) (root : String) (paths : List RelationPath) :
    Except QueryError Graph := do
  let e ← c.entity root
  let requested ← paths.foldlM (request c maxDepth e) []
  let nodes := expand maxDepth e none requested
  return { root
           requested := paths.map RelationPath.text
           nodes := ← expandFrom c maxDepth 0 nodes (generations c) }

end Graph

end EntityFetch
