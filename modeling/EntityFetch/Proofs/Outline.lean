import EntityFetch.Proofs.Ordered
import EntityFetch.Proofs.SameRoots

/-!
# What a fetch means

A fetch is meant to give the rows of its root that satisfy its conditions, each with
the rows to which its relations lead, and so on below these. This says nothing of
statements, joins or batches: an `Outline` has the conditions of the root and a `Branch`
for every relation, and the records follow from it and the tables
(`Outline.records`).

* `recordOf`: the record of a row with all that is below it; it does not depend on
  relations that are somewhere else (`recordOf_append`, `recordOf_of_ne`);
* `recordOf_eq`: the relations of a record are the branches that start there, as long as
  no branch comes before the one below which it hangs.
-/

namespace EntityFetch

/-- A relation of a fetch. -/
structure Branch where
  node : Node
  owner : Entity
  target : Entity
  /-- The global filters in force at the path of the relation. -/
  filters : List ActiveFilter

/-- The rows of an entity in the order of its primary key. -/
def Entity.sorted (e : Entity) (rows : List TableRow) : List TableRow :=
  rows.mergeSort fun a b => (TableRow.compareBy [{ column := e.primaryKey }] a b).isLE

namespace Branch

/-- The relation of the catalog. -/
def edge (b : Branch) : Relation :=
  b.node.relation

/-- The rows to which the relation leads from a value in the owner's column. -/
def found (store : Store) (b : Branch) (v : Value) : List TableRow :=
  (store.rows b.target.table).filter fun t =>
    v.equal? (t.value b.edge.targetColumn) == some true &&
      b.filters.all fun a => a.filter.holds t.value

/-- What an owner with a value in its column gets of the relation, given the record of
    every row. A relation to many is in the order of the primary key. -/
def related (store : Store) (b : Branch) (give : TableRow → Record) (v : Value) :
    Related Record :=
  match b.edge.cardinality with
  | .one => .one ((b.found store v).head?.map give)
  | .many => .many ((b.target.sorted (b.found store v)).map give)

end Branch

/-- The record of a row of an entity, at the end of some relations, with the records to
    which the branches below lead. The branches are listed with parents before their
    children. -/
def recordOf (store : Store) : List Branch → List Relation → Entity → TableRow → Record
  | [], _, e, r => { entity := e.name, fields := e.fields r }
  | b :: bs, way, e, r =>
    let rest := recordOf store bs way e r
    if b.node.ancestors = way then
      let related := b.related store (recordOf store bs b.node.chain b.target)
        (r.value b.edge.ownerColumn)
      { rest with relations := (b.edge.name, related) :: rest.relations }
    else rest

/-- What a fetch is about: the conditions on the rows of its root, their order, and the
    relations to load. -/
structure Outline where
  root : Entity
  /-- The global filters in force at the root. -/
  filters : List ActiveFilter
  criteria : Filter
  orderBy : List OrderBy
  branches : List Branch

namespace Outline

/-- The rows of the root that satisfy all conditions, in order. -/
def rows (o : Outline) (store : Store) : List TableRow :=
  ((store.rows o.root.table).filter fun r =>
    o.criteria.holds r.value && o.filters.all fun a => a.filter.holds r.value).mergeSort
      fun a b => (TableRow.compareBy o.orderBy a b).isLE

/-- The records that a fetch is meant to give. -/
def records (o : Outline) (store : Store) : List Record :=
  (o.rows store).map (recordOf store o.branches [] o.root)

end Outline

namespace Planner

/-- The branch of a planned relation. -/
def branch (p : Planner) (scope : QueryScope) (r : PlannedRelation) :
    Except QueryError Branch := do
  let owner ← p.catalog.entity r.node.relation.owner
  let target ← p.catalog.entity r.node.relation.target
  let filters ← p.filters.active target.name (scope.overridesFor r.path)
  return { node := r.node, owner, target, filters }

/-- The outline of a request for which some relations are loaded. -/
def outline (p : Planner) (req : FetchRequest) (relations : List PlannedRelation) :
    Except QueryError Outline := do
  let scope := p.layered req.scope
  let root ← p.catalog.entity req.root
  let filters ← p.filters.active root.name (scope.overridesFor "")
  let branches ← relations.mapM (p.branch scope)
  return { root, filters, criteria := scope.criteria, orderBy := scope.orderBy, branches }

end Planner

/-! ### Records of rows -/

variable {store : Store} {bs cs : List Branch} {way : List Relation} {e : Entity} {r : TableRow}

@[simp]
theorem entity_recordOf : (recordOf store bs way e r).entity = e.name := by
  induction bs with
  | nil => rfl
  | cons b bs ih =>
    unfold recordOf
    split
    · exact ih
    · exact ih

@[simp]
theorem fields_recordOf : (recordOf store bs way e r).fields = e.fields r := by
  induction bs with
  | nil => rfl
  | cons b bs ih =>
    unfold recordOf
    split
    · exact ih
    · exact ih

/-- The record has the values of the row. -/
theorem get?_recordOf {c : String} (hc : c ∈ e.columns) :
    (recordOf store bs way e r).get? c = some (r.value c) := by
  rw [Record.get?, fields_recordOf, Entity.fields, Assoc.lookup_ofList_map, if_pos hc]

/-- Branches that start elsewhere and come first make no difference. -/
theorem recordOf_of_ne (h : ∀ b ∈ bs, b.node.ancestors ≠ way) :
    recordOf store (bs ++ cs) way e r = recordOf store cs way e r := by
  induction bs with
  | nil => rfl
  | cons b bs ih =>
    rw [List.cons_append, recordOf, if_neg (h b List.mem_cons_self)]
    exact ih fun b' hb' => h b' (List.mem_cons_of_mem b hb')

/-- Branches that are not below a record and come last make no difference. -/
theorem recordOf_append (h : ∀ c ∈ cs, ¬ way <+: c.node.ancestors) :
    recordOf store (bs ++ cs) way e r = recordOf store bs way e r := by
  induction bs generalizing way e r with
  | nil =>
    have hne : ∀ c ∈ cs, c.node.ancestors ≠ way :=
      fun c hc heq => h c hc (heq ▸ List.prefix_refl _)
    rw [List.nil_append, ← List.append_nil cs]
    exact recordOf_of_ne hne
  | cons b bs ih =>
    rw [List.cons_append, recordOf, recordOf, ih h]
    by_cases hway : b.node.ancestors = way
    · have hbelow : ∀ c ∈ cs, ¬ b.node.chain <+: c.node.ancestors := by
        intro c hc hpre
        refine h c hc ((List.prefix_append way [b.node.relation]).trans ?_)
        rwa [← hway]
      have hgive : recordOf store (bs ++ cs) b.node.chain b.target =
          recordOf store bs b.node.chain b.target := funext fun _ => ih hbelow
      rw [if_pos hway, if_pos hway, hgive]
    · rw [if_neg hway, if_neg hway]

/-- Branches of which none comes before the one below which it hangs. -/
def IsOrdered (bs : List Branch) : Prop :=
  bs.Pairwise fun a b => a.node.ancestors ≠ b.node.chain

theorem ancestors_ne_chain (n : Node) : n.ancestors ≠ n.chain := by
  intro h
  have := congrArg List.length h
  rw [Node.chain, List.length_append, List.length_singleton] at this
  omega

/-- The relations of a record are the branches that start there. -/
theorem relations_recordOf (h : IsOrdered bs) : (recordOf store bs way e r).relations =
    (bs.filter (·.node.ancestors = way)).map fun b =>
      (b.edge.name, b.related store (recordOf store bs b.node.chain b.target)
        (r.value b.edge.ownerColumn)) := by
  induction bs with
  | nil => rfl
  | cons b bs ih =>
    obtain ⟨hb, hbs⟩ := List.pairwise_cons.1 h
    -- Below a record that is reached by a later branch the first one does not start.
    have hrest : ∀ b' : Branch, b.node.ancestors ≠ b'.node.chain →
        recordOf store (b :: bs) b'.node.chain b'.target =
          recordOf store bs b'.node.chain b'.target := by
      intro b' hne
      funext t
      rw [recordOf, if_neg hne]
    have htail : (bs.filter (·.node.ancestors = way)).map (fun b' => (b'.edge.name,
        b'.related store (recordOf store (b :: bs) b'.node.chain b'.target)
          (r.value b'.edge.ownerColumn))) = (recordOf store bs way e r).relations := by
      rw [ih hbs]
      refine List.map_congr_left fun b' hb' => ?_
      rw [hrest b' (hb b' (List.mem_filter.1 hb').1)]
    by_cases hway : b.node.ancestors = way
    · rw [List.filter_cons_of_pos (by simpa using hway), List.map_cons, htail,
        hrest b (ancestors_ne_chain b.node), recordOf, if_pos hway]
    · rw [List.filter_cons_of_neg (by simpa using hway), htail, recordOf, if_neg hway]

/-- A record is the row with the branches that start there. -/
theorem recordOf_eq (h : IsOrdered bs) : recordOf store bs way e r =
    { entity := e.name
      fields := e.fields r
      relations := (bs.filter (·.node.ancestors = way)).map fun b =>
        (b.edge.name, b.related store (recordOf store bs b.node.chain b.target)
          (r.value b.edge.ownerColumn)) } := by
  have hentity : (recordOf store bs way e r).entity = e.name := entity_recordOf
  have hfields : (recordOf store bs way e r).fields = e.fields r := fields_recordOf
  rw [← relations_recordOf (e := e) h, ← hentity, ← hfields]
  cases recordOf store bs way e r
  rfl

end EntityFetch
