import EntityFetch.Proofs.Filter
import EntityFetch.Proofs.Joint

/-!
# Readings

A compiled statement is made from a few decisions (`Reading`): its root with an
alias and the global filters there, and its joints. The statement and its slots
follow from them (`Reading.statement`, `Reading.slots`), and compiling gives no
other statements (`Reading.exists_of_compileGroup`).

* `Reading.IsSound`: the aliases are distinct, every joint starts at an earlier
  slot, and all conditions are on columns of the root;
* `Reading.IsSound.ownerColumn_mem`, `targetColumn_mem`: the columns of a join are
  read at both of its ends, if the plan was selected for a tree of relations.
-/

namespace EntityFetch

/-- The pool from which a statement gets its aliases, before any is in use. -/
def Compiler.pool (k : Compiler) : AliasPool :=
  { maxLength := k.sql.maxIdentifierLength, maxSuffix := k.sql.maxAliasSuffix }

/-- What is left to compile of a group when its root has an alias and clauses. -/
def Compiler.compileBelow (k : Compiler) (plan : LoadPlan) (scope : QueryScope) (group : LoadGroup)
    (e : Entity) (path aliasName : String) (pool : AliasPool) (predicates : List Predicate)
    (orderBy : List OrderBy) (limit offset : Option Nat) : Except QueryError CompiledStatement := do
  let active ← k.activeAt scope e path
  let slot : Slot :=
    { aliasName, entity := e.name, primaryKey := e.primaryKey, columns := e.columns
      node := group.root, link := none }
  let joined ← group.joined.mapM (planned plan)
  let d ← joined.foldlM (k.addJoin scope group) { pool, joins := [], slots := [slot] }
  let statement : Statement :=
    { root := { table := e.table, aliasName }
      columns := d.slots.flatMap Slot.columnRefs
      joins := d.joins
      predicates := predicates ++ active.map fun a =>
        { aliasName, filter := a.filter, source := .globalFilter a.name }
      orderBy, limit, offset }
  checkScoping statement
  return { group := group.index, statement, slots := d.slots }

/-- What compiling a group settles. -/
structure Reading where
  group : LoadGroup
  /-- The relation at the root, none for the root of the fetch. -/
  root : Option PlannedRelation
  entity : Entity
  aliasName : String
  /-- The global filters of the root. -/
  active : List ActiveFilter
  joints : List Joint

namespace Reading

/-- The path of the root. -/
def path (R : Reading) : String :=
  (R.root.map PlannedRelation.path).getD ""

/-- The slot of the root. -/
def rootSlot (R : Reading) : Slot :=
  { aliasName := R.aliasName
    entity := R.entity.name
    primaryKey := R.entity.primaryKey
    columns := R.entity.columns
    node := R.group.root
    link := none }

/-- The slots, that of the root being the first. -/
def slots (R : Reading) : List Slot :=
  R.rootSlot :: R.joints.map Joint.slot

/-- The conditions, orderings, limit and offset besides the global filters. -/
def clauses (R : Reading) (scope : QueryScope) :
    List Predicate × List OrderBy × Option Nat × Option Nat :=
  match R.root with
  | none =>
    (if scope.criteria.isAlways then []
      else [{ aliasName := R.aliasName, filter := scope.criteria, source := .criteria }],
      scope.orderBy, scope.take, scope.skip)
  | some r => Compiler.followUpClauses r.node.relation R.entity R.aliasName

/-- The statement that is compiled. -/
def statement (R : Reading) (scope : QueryScope) : Statement :=
  { root := { table := R.entity.table, aliasName := R.aliasName }
    columns := R.slots.flatMap Slot.columnRefs
    joins := R.joints.map Joint.join
    predicates := (R.clauses scope).1 ++ R.active.map fun a =>
      { aliasName := R.aliasName, filter := a.filter, source := .globalFilter a.name }
    orderBy := (R.clauses scope).2.1
    limit := (R.clauses scope).2.2.1
    offset := (R.clauses scope).2.2.2 }

/-- The statement with its slots. -/
def compiled (R : Reading) (scope : QueryScope) : CompiledStatement :=
  { group := R.group.index, statement := R.statement scope, slots := R.slots }

/-- What holds of a reading for which a statement is compiled. -/
structure IsSound (k : Compiler) (plan : LoadPlan) (scope : QueryScope) (R : Reading) : Prop where
  root_eq : R.root = R.group.root.bind plan.relation?
  root_isSome : R.root.isSome = R.group.root.isSome
  entity : k.catalog.entity ((R.root.map fun r => r.node.relation.target).getD plan.root) =
    .ok R.entity
  active : k.activeAt scope R.entity R.path = .ok R.active
  criteria : R.root = none → ∀ c ∈ scope.criteria.columns, c ∈ R.entity.columns
  orderBy : R.root = none → ∀ o ∈ scope.orderBy, o.column ∈ R.entity.columns
  relations : List.Forall₂ (fun id j => plan.relation? id = some j.relation) R.group.joined R.joints
  aliases_nodup : (R.slots.map Slot.aliasName).Nodup
  parent_le : ∀ (i : Nat) (j : Joint), R.joints[i]? = some j → j.parent ≤ i
  settled : ∀ j ∈ R.joints, j.IsSettled k scope R.slots

/-- The bases of the aliases: that of the root, then those of what is joined. -/
def bases (plan : LoadPlan) (R : Reading) : List String :=
  (R.root.map fun r => pathAlias r.path).getD (snakeCase plan.root) :: R.joints.map Joint.base

/-- The aliases are what an unused pool gives to the bases, one after the other. -/
def IsNamed (k : Compiler) (plan : LoadPlan) (R : Reading) : Prop :=
  (k.pool.serve (R.bases plan)).1 = R.slots.map fun s => .ok s.aliasName

variable {k : Compiler} {plan : LoadPlan} {scope : QueryScope}

/-- After the slot of the root come those of the joints, in their order. -/
theorem getElem?_slots_succ (R : Reading) (i : Nat) :
    R.slots[i + 1]? = R.joints[i]?.map Joint.slot := by
  rw [slots, List.getElem?_cons_succ, List.getElem?_map]

theorem getElem?_joints {R : Reading} {i : Nat} {j : Joint} (hj : R.joints[i]? = some j) :
    R.slots[i + 1]? = some j.slot := by
  rw [getElem?_slots_succ, hj]
  rfl

/-- A slot after that of the root is the one of a joint. -/
theorem exists_joint_of_slot {R : Reading} {i : Nat} {s : Slot} (hs : R.slots[i + 1]? = some s) :
    ∃ j, R.joints[i]? = some j ∧ j.slot = s :=
  Option.map_eq_some_iff.1 (R.getElem?_slots_succ i ▸ hs)

/-- The alias of the root is given first. -/
theorem isNamed_of_allocate {R : Reading} {pool : AliasPool}
    (halloc : k.pool.allocate ((R.root.map fun r => pathAlias r.path).getD (snakeCase plan.root)) =
      .ok (R.aliasName, pool))
    (hserve : (pool.serve (R.joints.map Joint.base)).1 = R.joints.map fun j => .ok j.aliasName) :
    R.IsNamed k plan := by
  rw [IsNamed, bases, AliasPool.serve_cons_of_allocate halloc, hserve, slots, List.map_cons,
    List.map_map]
  rfl

/-- What the clauses of a fetch's root are made of, if they can be compiled. -/
theorem rootClauses_eq_ok {e : Entity} {aliasName : String}
    {cl : List Predicate × List OrderBy × Option Nat × Option Nat}
    (h : Compiler.rootClauses scope e aliasName = .ok cl) :
    cl = (if scope.criteria.isAlways then []
      else [{ aliasName, filter := scope.criteria, source := .criteria }],
      scope.orderBy, scope.take, scope.skip) ∧
      (∀ c ∈ scope.criteria.columns, c ∈ e.columns) ∧
      ∀ o ∈ scope.orderBy, o.column ∈ e.columns := by
  unfold Compiler.rootClauses at h
  simp only at h
  obtain ⟨_, hcheck, h⟩ := bind_eq_ok.1 h
  split at h
  · exact nomatch h
  · next hfind =>
    obtain rfl := pure_eq_ok.1 h
    refine ⟨rfl, ?_, fun o ho => ?_⟩
    · split at hcheck
      · next halways =>
        rw [Filter.eq_always_of_isAlways halways]
        exact fun c hc => nomatch hc
      · exact GlobalFilters.mem_of_checkColumns
          (forM_eq_ok.1 hcheck _ (List.mem_singleton_self _))
    · have := List.find?_eq_none.1 hfind o ho
      simpa [Entity.hasColumn] using this

/-- The clauses of a fetch's root are on its alias. -/
theorem aliasName_of_rootClauses {e : Entity} {aliasName : String} {predicates : List Predicate}
    {orderBy : List OrderBy} {limit offset : Option Nat}
    (h : Compiler.rootClauses scope e aliasName = .ok (predicates, orderBy, limit, offset)) :
    ∀ p ∈ predicates, p.aliasName = aliasName := by
  intro p hp
  rw [(Prod.mk.inj (rootClauses_eq_ok h).1).1] at hp
  split at hp
  · exact absurd hp List.not_mem_nil
  · rw [List.mem_singleton.1 hp]

/-- The joints of a group, if it can be compiled. Their aliases are what the pool gives. -/
theorem exists_joints {group : LoadGroup} {root : Slot} {pool : AliasPool}
    {joined : List PlannedRelation} {d : Compiler.Draft} (hroot : root.node = group.root)
    (hpool : root.aliasName ∈ pool.used)
    (h : joined.foldlM (k.addJoin scope group) { pool, joins := [], slots := [root] } = .ok d) :
    ∃ joints : List Joint, joints.map Joint.relation = joined ∧ d.Joins k scope root joints ∧
      pool.serve (joints.map Joint.base) = (joints.map fun j => .ok j.aliasName, d.pool) := by
  refine foldlM_induct (fun before d => ∃ joints : List Joint,
    joints.map Joint.relation = before ∧ Compiler.Draft.Joins k scope root joints d ∧
      pool.serve (joints.map Joint.base) = (joints.map fun j => .ok j.aliasName, d.pool)) ?_ ?_ h
  · refine ⟨[], rfl, ⟨rfl, rfl, fun s hs => ?_, List.nodup_singleton _,
      fun _ _ h => by simp at h, fun _ h => absurd h List.not_mem_nil⟩, rfl⟩
    rw [List.mem_singleton.1 hs]
    exact hpool
  · rintro before r d d' - ⟨joints, rfl, hjoins, hserve⟩ hadd
    obtain ⟨j, rfl, halloc, hjoins'⟩ := hjoins.addJoin hroot hadd
    refine ⟨joints ++ [j], by rw [List.map_append, List.map_singleton], hjoins', ?_⟩
    rw [List.map_append, AliasPool.serve_append, hserve, List.map_append, List.map_singleton,
      AliasPool.serve_cons_of_allocate halloc, List.map_singleton]
    rfl

/-- The relation at the root of a group. -/
theorem root_of_mapM {group : LoadGroup} {root : Option PlannedRelation}
    (h : group.root.mapM (Compiler.planned plan) = .ok root) :
    root = group.root.bind plan.relation? ∧ root.isSome = group.root.isSome := by
  cases hg : group.root with
  | none =>
    rw [hg] at h
    obtain rfl := pure_eq_ok.1 h
    exact ⟨rfl, rfl⟩
  | some id =>
    rw [hg, Option.mapM_some] at h
    obtain ⟨r, hr, h⟩ := bind_eq_ok.1 h
    obtain rfl := pure_eq_ok.1 h
    exact ⟨(Compiler.planned_eq_ok hr).symm, rfl⟩

/-- The joints of a group make a sound reading of what is known of its root. -/
theorem exists_isSound {R : Reading} {pool : AliasPool} {joined : List PlannedRelation}
    {d : Compiler.Draft} (hroot : R.group.root.mapM (Compiler.planned plan) = .ok R.root)
    (he : k.catalog.entity ((R.root.map fun r => r.node.relation.target).getD plan.root) =
      .ok R.entity)
    (hactive : k.activeAt scope R.entity R.path = .ok R.active)
    (hcriteria : R.root = none → (∀ c ∈ scope.criteria.columns, c ∈ R.entity.columns) ∧
      ∀ o ∈ scope.orderBy, o.column ∈ R.entity.columns)
    (hpool : R.aliasName ∈ pool.used)
    (hjoined : R.group.joined.mapM (Compiler.planned plan) = .ok joined)
    (hd : joined.foldlM (k.addJoin scope R.group) { pool, joins := [], slots := [R.rootSlot] } =
      .ok d) :
    ∃ joints : List Joint, { R with joints }.IsSound k plan scope ∧
      d.joins = joints.map Joint.join ∧ d.slots = { R with joints }.slots ∧
      (pool.serve (joints.map Joint.base)).1 = joints.map fun j => .ok j.aliasName := by
  obtain ⟨joints, rfl, hjoins, hserve⟩ := exists_joints
    (show R.rootSlot.node = R.group.root from rfl) hpool hd
  obtain ⟨hroot_eq, hroot_isSome⟩ := root_of_mapM hroot
  have hslots : d.slots = { R with joints }.slots := hjoins.slots_eq
  refine ⟨joints, ⟨hroot_eq, hroot_isSome, he, hactive, fun h => (hcriteria h).1,
    fun h => (hcriteria h).2, ?_, ?_, hjoins.parent_le, ?_⟩, hjoins.joins_eq, hslots,
    congrArg Prod.fst hserve⟩
  · have hplanned := mapM_eq_ok.1 hjoined
    rw [List.forall₂_map_right_iff] at hplanned
    exact hplanned.imp fun _ _ h => Compiler.planned_eq_ok h
  · exact hslots ▸ hjoins.aliases_nodup
  · exact fun j hj => hslots ▸ hjoins.settled j hj

/-- What is compiled below a root with an alias and clauses is the statement of a sound
    reading. -/
theorem exists_of_compileBelow {group : LoadGroup} {root : Option PlannedRelation} {e : Entity}
    {aliasName : String} {pool : AliasPool} {predicates : List Predicate}
    {orderBy : List OrderBy} {limit offset : Option Nat} {cs : CompiledStatement}
    (hroot : group.root.mapM (Compiler.planned plan) = .ok root)
    (he : k.catalog.entity ((root.map fun r => r.node.relation.target).getD plan.root) = .ok e)
    (halloc : k.pool.allocate ((root.map fun r => pathAlias r.path).getD (snakeCase plan.root)) =
      .ok (aliasName, pool))
    (hcriteria : root = none → (∀ c ∈ scope.criteria.columns, c ∈ e.columns) ∧
      ∀ o ∈ scope.orderBy, o.column ∈ e.columns)
    (hclauses : ∀ active joints, { group, root, entity := e, aliasName, active, joints : Reading
      }.clauses scope = (predicates, orderBy, limit, offset))
    (h : k.compileBelow plan scope group e ((root.map PlannedRelation.path).getD "") aliasName pool
      predicates orderBy limit offset = .ok cs) :
    ∃ R : Reading, R.group = group ∧ R.IsSound k plan scope ∧ R.IsNamed k plan ∧
      cs = R.compiled scope := by
  unfold Compiler.compileBelow at h
  obtain ⟨active, hactive, h⟩ := bind_eq_ok.1 h
  obtain ⟨joined, hjoined, h⟩ := bind_eq_ok.1 h
  obtain ⟨d, hd, h⟩ := bind_eq_ok.1 h
  obtain ⟨_, -, h⟩ := bind_eq_ok.1 h
  obtain rfl := pure_eq_ok.1 h
  obtain ⟨joints, hsound, hjoins, hslots, hserve⟩ := exists_isSound
    (R := { group, root, entity := e, aliasName, active, joints := [] })
    hroot he hactive hcriteria (AliasPool.mem_used_of_allocate halloc) hjoined hd
  refine ⟨_, rfl, hsound, isNamed_of_allocate halloc hserve, ?_⟩
  rw [compiled, statement, hclauses, hjoins, hslots]

/-- A statement that is compiled is that of a sound reading, with aliases from the pool. -/
theorem exists_of_compileGroup {group : LoadGroup} {cs : CompiledStatement}
    (h : k.compileGroup plan scope group = .ok cs) :
    ∃ R : Reading, R.group = group ∧ R.IsSound k plan scope ∧ R.IsNamed k plan ∧
      cs = R.compiled scope := by
  unfold Compiler.compileGroup at h
  obtain ⟨root, hroot, h⟩ := bind_eq_ok.1 h
  obtain ⟨e, he, h⟩ := bind_eq_ok.1 h
  simp only at h
  obtain ⟨⟨aliasName, pool⟩, halloc, h⟩ := bind_eq_ok.1 h
  cases root with
  | none =>
    obtain ⟨⟨predicates, orderBy, limit, offset⟩, hcl, h⟩ := bind_eq_ok.1 h
    obtain ⟨heq, hcolumns⟩ := rootClauses_eq_ok hcl
    exact exists_of_compileBelow hroot he halloc (fun _ => hcolumns) (fun _ _ => heq.symm) h
  | some r => exact exists_of_compileBelow hroot he halloc nofun (fun _ _ => rfl) h

/-- The statements of a compiled plan are those of sound readings of its groups. -/
theorem exists_of_compile {compiled : CompiledPlan} (h : k.compile plan scope = .ok compiled) :
    compiled.plan = plan ∧ compiled.statements.length = plan.groups.length ∧
      ∀ (i : Nat) (cs : CompiledStatement), compiled.statements[i]? = some cs →
        ∃ R : Reading, plan.groups[i]? = some R.group ∧ R.IsSound k plan scope ∧
          cs = R.compiled scope := by
  unfold Compiler.compile at h
  obtain ⟨statements, hstatements, h⟩ := bind_eq_ok.1 h
  obtain rfl := pure_eq_ok.1 h
  refine ⟨rfl, (mapM_eq_ok.1 hstatements).length_eq.symm, fun i cs hcs => ?_⟩
  obtain ⟨group, hgroup, hcompile⟩ := exists_of_mapM_eq_ok hstatements hcs
  obtain ⟨R, rfl, hsound, -, hR⟩ := exists_of_compileGroup hcompile
  exact ⟨R, hgroup, hsound, hR⟩

/-- A statement of a compiled plan is that of a sound reading of one of the groups. -/
theorem exists_of_mem_statements {compiled : CompiledPlan} {cs : CompiledStatement}
    (h : k.compile plan scope = .ok compiled) (hcs : cs ∈ compiled.statements) :
    ∃ R : Reading, R.group ∈ plan.groups ∧ R.IsSound k plan scope ∧ cs = R.compiled scope := by
  obtain ⟨i, hi⟩ := List.mem_iff_getElem?.1 hcs
  obtain ⟨R, hgroup, hsound, heq⟩ := (exists_of_compile h).2.2 i cs hi
  exact ⟨R, List.mem_of_getElem? hgroup, hsound, heq⟩

/-! ### Selected plans -/

variable {root : Entity} {R : Reading}

/-- The relation at the root is one of the plan. -/
theorem IsSound.root_mem (h : R.IsSound k plan scope) {r : PlannedRelation}
    (hr : R.root = some r) : r ∈ plan.relations := by
  have hroot := h.root_eq
  rw [hr] at hroot
  obtain ⟨id, -, hid⟩ := Option.bind_eq_some_iff.1 hroot.symm
  exact List.mem_of_getElem? hid

/-- A joined relation is one of the plan. -/
theorem IsSound.relation_mem (h : R.IsSound k plan scope) {j : Joint} (hj : j ∈ R.joints) :
    j.relation ∈ plan.relations := by
  obtain ⟨i, hi⟩ := List.mem_iff_getElem?.1 hj
  obtain ⟨hlt, rfl⟩ := List.getElem?_eq_some_iff.1 hi
  have hlt' : i < R.group.joined.length := h.relations.length_eq ▸ hlt
  exact List.mem_of_getElem? (h.relations.get hlt' hlt)

/-- What is read at a slot are the columns of the entity there. -/
theorem IsSound.exists_entity (h : R.IsSound k plan scope) (hsel : plan.IsSelected k.catalog root)
    {s : Slot} (hs : s ∈ R.slots) :
    ∃ e ∈ k.catalog.entities, s.entity = e.name ∧ s.primaryKey = e.primaryKey ∧
      s.columns = e.columns ∧ Graph.StartsAt k.catalog root
        ((s.node.bind plan.relation?).map PlannedRelation.node) e := by
  rcases List.mem_cons.1 hs with rfl | hs
  · refine ⟨R.entity, (Catalog.entity_eq_ok h.entity).1, rfl, rfl, rfl, ?_⟩
    rw [show R.rootSlot.node.bind plan.relation? = R.root from h.root_eq.symm]
    have he := h.entity
    cases hroot : R.root with
    | none =>
      rw [hroot] at he
      exact Except.ok.inj (he.symm.trans hsel.entity)
    | some r =>
      rw [hroot] at he
      exact he
  · obtain ⟨j, hj, rfl⟩ := List.mem_map.1 hs
    have htarget := (h.settled j hj).target
    refine ⟨j.target, (Catalog.entity_eq_ok htarget).1, rfl, rfl, rfl, ?_⟩
    rw [show j.slot.node.bind plan.relation? = some j.relation from
      hsel.isGrouped.getElem?_id (h.relation_mem hj)]
    exact htarget

/-- The relation of the plan at a slot, none at the root of the fetch. -/
def relationAt (R : Reading) : Nat → Option PlannedRelation
  | 0 => R.root
  | i + 1 => R.joints[i]?.map Joint.relation

/-- Where there is a relation there is a slot. -/
theorem lt_length_of_relationAt {R : Reading} {i : Nat} {r : PlannedRelation}
    (h : R.relationAt i = some r) : i < R.slots.length := by
  cases i with
  | zero => exact Nat.succ_pos _
  | succ i =>
    obtain ⟨j, hj, -⟩ := Option.map_eq_some_iff.1 h
    exact (List.getElem?_eq_some_iff.1 (getElem?_joints hj)).1

/-- The relations on the way from the root of the fetch to a slot. -/
def chainAt (R : Reading) (i : Nat) : List Relation :=
  ((R.relationAt i).map fun r => r.node.chain).getD []

theorem chainAt_zero (hroot : R.root = none) : R.chainAt 0 = [] := by
  rw [chainAt, relationAt, hroot]
  rfl

theorem chainAt_root {r : PlannedRelation} (hroot : R.root = some r) :
    R.chainAt 0 = r.node.chain := by
  rw [chainAt, relationAt, hroot]
  rfl

/-- The statement for the roots of a fetch has the order and the bounds of the scope. -/
theorem statement_of_root_eq_none (hroot : R.root = none) (scope : QueryScope) :
    (R.statement scope).orderBy = scope.orderBy ∧ (R.statement scope).limit = scope.take ∧
      (R.statement scope).offset = scope.skip := by
  rw [statement, clauses, hroot]
  exact ⟨rfl, rfl, rfl⟩

theorem chainAt_succ {i : Nat} {j : Joint} (hj : R.joints[i]? = some j) :
    R.chainAt (i + 1) = j.relation.node.chain := by
  rw [chainAt, relationAt, hj]
  rfl

/-- The relation of the plan at a slot is the one that the slot names. -/
theorem IsSound.relation_of_slot (h : R.IsSound k plan scope)
    (hsel : plan.IsSelected k.catalog root) {i : Nat} {s : Slot} (hs : R.slots[i]? = some s) :
    s.node.bind plan.relation? = R.relationAt i := by
  cases i with
  | zero =>
    obtain rfl := Option.some.inj hs
    exact h.root_eq.symm
  | succ i =>
    obtain ⟨j, hj, rfl⟩ := exists_joint_of_slot hs
    rw [relationAt, hj]
    exact hsel.isGrouped.getElem?_id (h.relation_mem (List.mem_of_getElem? hj))

/-- The slot of the owner is that of the relation at which a joint starts. -/
theorem IsSound.relation_of_owner (h : R.IsSound k plan scope)
    (hsel : plan.IsSelected k.catalog root) {j : Joint} (hj : j ∈ R.joints) :
    j.owner.node.bind plan.relation? = R.relationAt j.parent :=
  h.relation_of_slot hsel (h.settled j hj).owner

/-- A joint is that of a relation below the one at which it starts. -/
theorem IsSound.isChild (h : R.IsSound k plan scope) (hsel : plan.IsSelected k.catalog root)
    {j : Joint} (hj : j ∈ R.joints) :
    Graph.IsChild Graph.IsOwned k.catalog root (plan.relations.map PlannedRelation.node)
      ((R.relationAt j.parent).map PlannedRelation.node) j.relation.node := by
  obtain ⟨parent, hmem, hchild⟩ := hsel.exists_parent (h.relation_mem hj)
  have hparent : j.owner.node.bind plan.relation? = parent := by
    rw [(h.settled j hj).owner_node, hchild.parent_eq]
    cases parent with
    | none => rfl
    | some q => exact hsel.isGrouped.getElem?_id (hmem q rfl)
  rwa [← h.relation_of_owner hsel hj, hparent]

/-- The relations before that of a joint are those on the way to its owner. -/
theorem IsSound.ancestors_eq (h : R.IsSound k plan scope) (hsel : plan.IsSelected k.catalog root)
    {j : Joint} (hj : j ∈ R.joints) : j.relation.node.ancestors = R.chainAt j.parent := by
  rw [(h.isChild hsel hj).ancestors_eq, chainAt, Option.map_map]
  rfl

/-- The way to a joint is the one to its owner and its own relation. -/
theorem IsSound.chain_eq (h : R.IsSound k plan scope) (hsel : plan.IsSelected k.catalog root)
    {j : Joint} (hj : j ∈ R.joints) :
    j.relation.node.chain = R.chainAt j.parent ++ [j.edge] := by
  rw [Node.chain, h.ancestors_eq hsel hj]
  rfl

/-- The way to the owner of a joint leads through the root of the statement. -/
theorem IsSound.prefix_chainAt (h : R.IsSound k plan scope)
    (hsel : plan.IsSelected k.catalog root) {i : Nat} {j : Joint} (hj : R.joints[i]? = some j) :
    R.chainAt 0 <+: R.chainAt j.parent := by
  induction i using Nat.strongRecOn generalizing j with
  | _ i ih =>
    have hle := h.parent_le i j hj
    cases hp : j.parent with
    | zero => exact List.prefix_refl _
    | succ n =>
      have hlt := (List.getElem?_eq_some_iff.1 hj).1
      obtain ⟨j', hj'⟩ : ∃ j', R.joints[n]? = some j' :=
        ⟨_, List.getElem?_eq_getElem (by omega)⟩
      rw [chainAt_succ hj', h.chain_eq hsel (List.mem_of_getElem? hj')]
      exact (ih n (by omega) hj').trans (List.prefix_append _ _)

/-- The joints are those of the relations that the group names. -/
theorem IsSound.joined_eq (h : R.IsSound k plan scope) (hsel : plan.IsSelected k.catalog root) :
    R.group.joined = R.joints.map fun j => j.relation.node.id := by
  rw [← List.forall₂_eq_eq_eq, List.forall₂_map_right_iff]
  exact h.relations.imp fun id j hj => (hsel.isGrouped.node_id id _ hj).symm

/-- The relations of the joints are the joined ones of the group. -/
theorem IsSound.joined_of_mem (h : R.IsSound k plan scope) (hsel : plan.IsSelected k.catalog root)
    {g : Nat} (hgroup : plan.groups[g]? = some R.group) {j : Joint} (hj : j ∈ R.joints) :
    j.relation.strategy = .joined ∧ j.relation.group = g := by
  have hid : j.relation.node.id ∈ R.group.joined := h.joined_eq hsel ▸ List.mem_map_of_mem hj
  obtain ⟨r, hr, heq, hjoined, hrg⟩ := (hsel.isGrouped.mem_joined g R.group hgroup _).1 hid
  obtain rfl := hsel.isGrouped.eq_of_id hr (h.relation_mem hj) heq
  exact ⟨hjoined, hrg⟩

/-- Every joined relation of the group has a joint. -/
theorem IsSound.exists_joint (h : R.IsSound k plan scope) (hsel : plan.IsSelected k.catalog root)
    {g : Nat} (hgroup : plan.groups[g]? = some R.group) {r : PlannedRelation}
    (hr : r ∈ plan.relations) (hjoined : r.strategy = .joined) (hrg : r.group = g) :
    ∃ j ∈ R.joints, j.relation = r := by
  have hid := (hsel.isGrouped.mem_joined g R.group hgroup _).2 ⟨r, hr, rfl, hjoined, hrg⟩
  rw [h.joined_eq hsel] at hid
  obtain ⟨j, hj, heq⟩ := List.mem_map.1 hid
  exact ⟨j, hj, hsel.isGrouped.eq_of_id (h.relation_mem hj) hr heq⟩

/-- No two joints are of the same relation. -/
theorem IsSound.relation_inj (h : R.IsSound k plan scope) (hsel : plan.IsSelected k.catalog root)
    (hgroup : R.group ∈ plan.groups) {i i' : Nat} {j j' : Joint} (hj : R.joints[i]? = some j)
    (hj' : R.joints[i']? = some j') (heq : j.relation.path = j'.relation.path) : i = i' := by
  have hrel : j.relation = j'.relation := hsel.eq_of_path
    (h.relation_mem (List.mem_of_getElem? hj)) (h.relation_mem (List.mem_of_getElem? hj')) heq
  have hnodup : R.group.joined.Nodup :=
    (hsel.isGrouped.joined_sorted _ hgroup).imp fun hlt => Nat.ne_of_lt hlt
  have hget : ∀ {n : Nat} {u : Joint}, R.joints[n]? = some u →
      R.group.joined[n]? = some u.relation.node.id := by
    intro n u hu
    rw [h.joined_eq hsel, List.getElem?_map, hu]
    rfl
  have hlt := (List.getElem?_eq_some_iff.1 (hget hj)).1
  exact (List.getElem?_inj hlt hnodup).1 (by rw [hget hj, hget hj', hrel])

/-- Slots are told apart by the relations on the way to them. -/
theorem IsSound.chainAt_inj (h : R.IsSound k plan scope) (hsel : plan.IsSelected k.catalog root)
    (hgroup : R.group ∈ plan.groups) {i i' : Nat} (hi : i < R.slots.length)
    (hi' : i' < R.slots.length) (heq : R.chainAt i = R.chainAt i') : i = i' := by
  have hjoint : ∀ {n : Nat}, n + 1 < R.slots.length → ∃ j, R.joints[n]? = some j := by
    intro n hn
    rw [slots, List.length_cons, List.length_map] at hn
    exact ⟨_, List.getElem?_eq_getElem (by omega)⟩
  -- The way to a joint goes on from that to the first slot, so that it is longer.
  have hne : ∀ {n : Nat}, n + 1 < R.slots.length → R.chainAt 0 ≠ R.chainAt (n + 1) := by
    intro n hn hzero
    obtain ⟨j, hj⟩ := hjoint hn
    have hlen := (h.prefix_chainAt hsel hj).length_le
    rw [hzero, chainAt_succ hj, h.chain_eq hsel (List.mem_of_getElem? hj), List.length_append,
      List.length_singleton] at hlen
    omega
  cases i with
  | zero =>
    cases i' with
    | zero => rfl
    | succ n' => exact absurd heq (hne hi')
  | succ n =>
    cases i' with
    | zero => exact absurd heq.symm (hne hi)
    | succ n' =>
      obtain ⟨j, hj⟩ := hjoint hi
      obtain ⟨j', hj'⟩ := hjoint hi'
      rw [chainAt_succ hj, chainAt_succ hj'] at heq
      refine congrArg Nat.succ (h.relation_inj hsel hgroup hj hj' ?_)
      rw [PlannedRelation.path, PlannedRelation.path, Node.path, Node.path, heq]

/-- A joint starts at the entity whose relation it is. -/
theorem IsSound.exists_owner (h : R.IsSound k plan scope) (hsel : plan.IsSelected k.catalog root)
    {j : Joint} (hj : j ∈ R.joints) :
    ∃ e ∈ k.catalog.entities, j.owner.entity = e.name ∧ j.owner.columns = e.columns ∧
      j.edge ∈ e.relations := by
  have hsettled := h.settled j hj
  obtain ⟨e, he, hname, -, hcolumns, hstart⟩ :=
    h.exists_entity hsel (List.mem_of_getElem? hsettled.owner)
  rw [h.relation_of_owner hsel hj] at hstart
  obtain ⟨e', he', hedge⟩ := (h.isChild hsel hj).relation
  exact ⟨e, he, hname, hcolumns, hstart.unique he' ▸ hedge⟩

/-- The entity at a slot. -/
def entityAt (R : Reading) : Nat → Option Entity
  | 0 => some R.entity
  | i + 1 => R.joints[i]?.map Joint.target

/-- The relations below a slot start at the entity there. -/
theorem IsSound.startsAt (h : R.IsSound k plan scope) (hsel : plan.IsSelected k.catalog root)
    {i : Nat} {e : Entity} (he : R.entityAt i = some e) :
    Graph.StartsAt k.catalog root ((R.relationAt i).map PlannedRelation.node) e := by
  cases i with
  | zero =>
    obtain rfl := Option.some.inj he
    have hentity := h.entity
    rw [relationAt]
    cases hroot : R.root with
    | none =>
      rw [hroot] at hentity
      exact Except.ok.inj (hentity.symm.trans hsel.entity)
    | some r =>
      rw [hroot] at hentity
      exact hentity
  | succ i =>
    obtain ⟨j, hj, rfl⟩ := Option.map_eq_some_iff.1 he
    rw [relationAt, hj]
    exact (h.settled j (List.mem_of_getElem? hj)).target

/-- The entity at the slot of the owner is the one whose relation is joined. -/
theorem IsSound.entityAt_parent (h : R.IsSound k plan scope)
    (hsel : plan.IsSelected k.catalog root) (hc : k.catalog.IsSound) {j : Joint}
    (hj : j ∈ R.joints) : ∃ e, R.entityAt j.parent = some e ∧ j.edge ∈ e.relations ∧
      k.catalog.entity j.edge.owner = .ok e := by
  obtain ⟨e, he, hedge⟩ := (h.isChild hsel hj).relation
  obtain ⟨e', he'⟩ : ∃ e', R.entityAt j.parent = some e' := by
    have hlt := (List.getElem?_eq_some_iff.1 (h.settled j hj).owner).1
    cases hp : j.parent with
    | zero => exact ⟨_, rfl⟩
    | succ i =>
      rw [hp, slots, List.length_cons, List.length_map] at hlt
      exact ⟨_, by rw [entityAt, List.getElem?_eq_getElem (Nat.lt_of_succ_lt_succ hlt)]; rfl⟩
  obtain rfl := (h.startsAt hsel he').unique he
  have hmem := hsel.mem_entities he
  refine ⟨e', he', hedge, ?_⟩
  rw [show j.edge.owner = e'.name from hc.owner_eq e' hmem _ hedge]
  exact hc.entity_name e' hmem

/-- The column at which a join starts is read there. -/
theorem IsSound.ownerColumn_mem (h : R.IsSound k plan scope)
    (hsel : plan.IsSelected k.catalog root) (hc : k.catalog.IsSound) {j : Joint}
    (hj : j ∈ R.joints) : j.edge.ownerColumn ∈ j.owner.columns := by
  obtain ⟨e, he, -, hcolumns, hedge⟩ := h.exists_owner hsel hj
  exact hcolumns ▸ hc.ownerColumn_mem e he _ hedge

/-- The column at which a join ends is read there. -/
theorem IsSound.targetColumn_mem (h : R.IsSound k plan scope)
    (hsel : plan.IsSelected k.catalog root) (hc : k.catalog.IsSound) {j : Joint}
    (hj : j ∈ R.joints) : j.edge.targetColumn ∈ j.target.columns := by
  obtain ⟨e, he, -, -, hedge⟩ := h.exists_owner hsel hj
  exact hc.targetColumn_mem e he _ hedge _ (h.settled j hj).target

/-- The column by which the root of a group is looked up is read there. -/
theorem IsSound.rootColumn_mem (h : R.IsSound k plan scope)
    (hsel : plan.IsSelected k.catalog root) (hc : k.catalog.IsSound) {r : PlannedRelation}
    (hr : R.root = some r) : r.node.relation.targetColumn ∈ R.entity.columns := by
  obtain ⟨e, -, hedge, he, -⟩ := hsel.exists_owner hc (h.root_mem hr)
  have hentity := h.entity
  rw [hr] at hentity
  exact hc.targetColumn_mem e he _ hedge _ hentity

/-- All conditions of a statement are on columns of its root. -/
theorem IsSound.columns_subset (h : R.IsSound k plan scope)
    (hsel : plan.IsSelected k.catalog root) (hc : k.catalog.IsSound) :
    ∀ p ∈ (R.statement scope).predicates, ∀ c ∈ p.filter.columns, c ∈ R.entity.columns := by
  intro p hp
  rcases List.mem_append.1 hp with hp | hp
  · unfold clauses at hp
    split at hp
    · next hroot =>
      split at hp
      · exact absurd hp List.not_mem_nil
      · rw [List.mem_singleton.1 hp]
        exact h.criteria hroot
    · next r hroot =>
      rw [List.mem_singleton.1 hp]
      intro c hcol
      have hcol : c = r.node.relation.targetColumn := by
        simpa [Filter.columns, Filter.collect, addNew] using hcol
      exact hcol ▸ h.rootColumn_mem hsel hc hroot
  · obtain ⟨a, ha, rfl⟩ := List.mem_map.1 hp
    exact (Compiler.activeAt_eq_ok h.active).2 a ha

end Reading

end EntityFetch
