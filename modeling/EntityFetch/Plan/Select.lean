import EntityFetch.Plan

/-!
# Selecting strategies

1. A relation to many rows has a statement of its own.
2. A relation to one row is joined *by rule* if it is declared so, or if it is
   eager, nothing is declared and eager relations are joined by default.
3. Any other relation that is asked for is joined if its group has a relation
   that is joined by rule. It is then called upgraded. Otherwise it is loaded as
   relations that are asked for are by default.
4. What is left has a statement of its own.

Which groups have a relation that is joined by rule is known before the groups
are made: its group starts at the nearest relation above it that is not joined
by rule.
-/

namespace EntityFetch

/-- The strategies where nothing is declared. -/
structure StrategyDefaults where
  /-- For eager relations. -/
  eager : Strategy := .joined
  /-- For relations that are asked for. -/
  populate : Strategy := .selectIn
deriving DecidableEq, Repr

/-- What is settled about a relation without looking at others. -/
inductive Ruling where
  | joined
  | selectIn
  | undecided (requested : Bool)
deriving DecidableEq, Repr

namespace StrategyDefaults

/-- What is settled about a relation without looking at others. -/
def ruling (d : StrategyDefaults) (n : Node) : Ruling :=
  match n.relation.cardinality, n.relation.strategy with
  | .many, _ => .selectIn
  | .one, some .joined => .joined
  | .one, none =>
    if n.relation.eager && d.eager = .joined then .joined else .undecided n.requested
  | .one, some .selectIn => .undecided n.requested

/-- For every node, parents first, whether it is joined by rule and the nearest
    node above it that is not, none being the root. -/
def anchors (d : StrategyDefaults) (nodes : List Node) : List (Bool × Option Nat) :=
  nodes.foldl (fun known n =>
    let anchor :=
      match n.parent with
      | none => none
      | some p =>
        match known[p]? with
        | some (true, a) => a
        | _ => some p
    known ++ [(decide (d.ruling n = .joined), anchor)]) []

/-- The nodes, or the root, at which the groups start that have a relation joined
    by rule. -/
def joiningRoots (d : StrategyDefaults) (nodes : List Node) : List (Option Nat) :=
  (d.anchors nodes).filterMap fun a => if a.1 then some a.2 else none

/-- The strategy of a relation in a group with a given root, and whether it is
    upgraded. -/
def choose (d : StrategyDefaults) (joining : List (Option Nat)) (groupRoot : Option Nat)
    (n : Node) : Strategy × Bool :=
  match d.ruling n with
  | .joined => (.joined, false)
  | .selectIn => (.selectIn, false)
  | .undecided true =>
    if joining.contains groupRoot then (.joined, true) else (d.populate, false)
  | .undecided false => (.selectIn, false)

/-- The relations and groups of the nodes so far. -/
structure Selection where
  relations : List PlannedRelation := []
  groups : List LoadGroup := [.primary]

/-- The group that loads the owners of a node. -/
def Selection.ownerGroup (s : Selection) (n : Node) : Nat :=
  ((n.parent.bind (s.relations[·]?)).map PlannedRelation.group).getD 0

/-- The selection with one more node, either joined to the group of its owners or
    at the root of a new group. -/
def place (d : StrategyDefaults) (joining : List (Option Nat)) (s : Selection) (n : Node) :
    Selection :=
  let owner := s.ownerGroup n
  let groupRoot := s.groups[owner]?.bind LoadGroup.root
  let (strategy, upgraded) := d.choose joining groupRoot n
  match strategy with
  | .joined =>
    { relations := s.relations ++ [{ node := n, strategy, upgraded, group := owner }]
      groups := s.groups.modify owner fun g => { g with joined := g.joined ++ [n.id] } }
  | .selectIn =>
    let index := s.groups.length
    let wave := (s.groups[owner]?.map LoadGroup.wave).getD 0 + 1
    { relations := s.relations ++ [{ node := n, strategy, upgraded, group := index }]
      groups := s.groups ++
        [{ index, root := some n.id, parentGroup := some owner, wave, joined := [] }] }

/-- The plan that loads the relations of a graph. -/
def select (d : StrategyDefaults) (g : Graph) : LoadPlan :=
  let s := g.nodes.foldl (d.place (d.joiningRoots g.nodes)) {}
  { root := g.root, requested := g.requested, relations := s.relations, groups := s.groups }

end StrategyDefaults

end EntityFetch
