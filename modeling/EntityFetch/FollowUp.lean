import EntityFetch.Execution
import EntityFetch.Record.Assemble

/-!
# Loading what follows

When the root of a fetch is read, the relations with statements of their own
follow, wave by wave. For every group of a wave the keys of the owners are
collected, cut into batches and looked up. What is found is put below the owners,
each record below every owner whose key it has. An owner for which nothing is
found gets the relation too, empty.

A wave is attached only if all its statements were answered. The roots
themselves stay as they are.
-/

namespace EntityFetch

/-- A list cut into pieces of `n` elements, and of one if `n` is zero; the last
    piece may be shorter. There are at most `left` pieces. -/
def piecesOf {α : Type} (n : Nat) : Nat → List α → List (List α)
  | 0, _ => []
  | _ + 1, [] => []
  | left + 1, as => as.take (max n 1) :: piecesOf n left (as.drop (max n 1))

/-- A list cut into pieces of `n` elements, and of one if `n` is zero; the last
    piece may be shorter. -/
def chunks {α : Type} (n : Nat) (as : List α) : List (List α) :=
  piecesOf n as.length as

/-- The values whose key has not been seen, each key once. Null has no key. -/
def distinctKeys (seen : List Key) : List Value → List Value
  | [] => []
  | v :: vs =>
    match v.key? with
    | none => distinctKeys seen vs
    | some k =>
      if seen.contains k then distinctKeys seen vs else v :: distinctKeys (k :: seen) vs

namespace CompiledPlan

/-- The names of the relations from the root of a fetch to the owners of a
    relation. -/
def ownerPath (c : CompiledPlan) (r : PlannedRelation) : List String :=
  match r.node.parent.bind c.plan.relation? with
  | some parent => Text.split '.' parent.path
  | none => []

/-- The relation at the root of a group. -/
def groupRoot? (c : CompiledPlan) (group : Nat) : Option PlannedRelation :=
  (c.plan.groups[group]?.bind LoadGroup.root).bind c.plan.relation?

/-- The keys of the owners of a relation, each once. -/
def ownerKeys (c : CompiledPlan) (r : PlannedRelation) (roots : List Record) : List Value :=
  distinctKeys [] <|
    (Record.reached (c.ownerPath r) roots).filterMap (·.get? r.node.relation.ownerColumn)

/-- The statements by which a group is loaded, one for every batch of keys. -/
def groupStatements (c : CompiledPlan) (batchSize : Nat) (roots : List Record) (group : Nat) :
    List (Nat × Statement) :=
  match c.groupRoot? group, c.statement? group with
  | some r, some template =>
    (chunks batchSize (c.ownerKeys r roots)).map fun keys =>
      (group, template.statement.bindKeys keys)
  | _, _ => []

/-- What an owner gets of the records of a relation: those with its key. -/
def relatedTo (r : Relation) (records : List Record) (owner : Record) : Related Record :=
  let found :=
    match owner.key? r.ownerColumn with
    | some k => records.filter (·.key? r.targetColumn == some k)
    | none => []
  match r.cardinality with
  | .one => .one found.head?
  | .many => .many found

/-- The roots with the rows of a group attached to their owners. -/
def attach (c : CompiledPlan) (roots : List Record) (group : Nat) (rows : List Row) :
    Except QueryError (List Record) :=
  match c.groupRoot? group, c.statement? group with
  | some r, some compiled => do
    let records ← compiled.assemble rows
    let relation := r.node.relation
    let attachTo (owner : Record) : Record :=
      owner.setRelation relation.name (relatedTo relation records owner)
    return roots.map (Record.updateAt (c.ownerPath r) attachTo)
  | _, _ => return roots

/-- The rows of a group among the results of a wave. -/
def rowsOf (group : Nat) (results : List (Nat × List Row)) : List Row :=
  (results.filter (·.1 == group)).flatMap Prod.snd

/-- The roots with the results of a wave attached, group by group, and the error
    that ends it. -/
def attachAll (c : CompiledPlan) (results : List (Nat × List Row)) :
    List Nat → List Record → List Record × Option QueryError
  | [], roots => (roots, none)
  | group :: groups, roots =>
    match c.attach roots group (rowsOf group results) with
    | .ok roots => c.attachAll results groups roots
    | .error e => (roots, some e)

variable {σ : Type}

/-- The roots after one wave, and the error that ends it. -/
def runWave (c : CompiledPlan) (x : Executor σ) (batchSize : Nat) (groups : List Nat)
    (roots : List Record) (state : σ) : (List Record × Option QueryError) × σ :=
  match x.runAll (groups.flatMap (c.groupStatements batchSize roots)) state with
  | (.error e, state) => ((roots, some e), state)
  | (.ok results, state) => (c.attachAll results groups roots, state)

/-- The roots after some waves, and the error that ends them. -/
def runWaves (c : CompiledPlan) (x : Executor σ) (batchSize : Nat) :
    List (List Nat) → List Record → σ → (List Record × Option QueryError) × σ
  | [], roots, state => ((roots, none), state)
  | wave :: waves, roots, state =>
    match c.runWave x batchSize wave roots state with
    | ((roots, some e), state) => ((roots, some e), state)
    | ((roots, none), state) => c.runWaves x batchSize waves roots state

/-- The roots with all that follows, and the error that ends it. -/
def dispatch (c : CompiledPlan) (x : Executor σ) (batchSize : Nat) (roots : List Record)
    (state : σ) : (List Record × Option QueryError) × σ :=
  c.runWaves x batchSize c.plan.waves roots state

end CompiledPlan

end EntityFetch
