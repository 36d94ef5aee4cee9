import EntityFetch.Proofs.Partition
import EntityFetch.Proofs.Reading

/-!
# Statements in scope

A compiled statement names an alias only after the alias is declared, and at every alias
only columns of the entity that is read there (`CompiledStatement.IsScoped`): it starts at
its root, each join starts at the root or at an earlier join, and all conditions and
orderings are on the root. The slots say the same of what is read.

* `Reading.IsSound.isScoped`: the statement of a sound reading is in scope, if the plan was
  selected for a tree of relations of a sound catalog.
-/

namespace EntityFetch

/-- A statement that names only what it has declared, given the entities that are read at
    its aliases. -/
structure CompiledStatement.IsScoped (c : Catalog) (plan : LoadPlan) (entities : List Entity)
    (cs : CompiledStatement) : Prop where
  declared : ∀ e ∈ entities, c.entity e.name = .ok e
  tables_eq : cs.statement.tables = entities.map Entity.table
  aliases_nodup : cs.statement.aliases.Nodup
  /-- There is a slot for the root and for every join, at the same alias. -/
  aliases_eq : cs.slots.map Slot.aliasName = cs.statement.aliases
  /-- What is read at a slot are the columns of the entity there. -/
  slots : List.Forall₂ (fun (s : Slot) e => s.entity = e.name ∧ s.primaryKey = e.primaryKey ∧
    s.columns = e.columns) cs.slots entities
  columns_eq : cs.statement.columns = cs.slots.flatMap Slot.columnRefs
  /-- The first slot is that of the root of the group. -/
  root : ∃ s, cs.slots[0]? = some s ∧ s.link = none ∧
    plan.groups[cs.group]?.map LoadGroup.root = some s.node
  /-- A join starts at the root or at an earlier join, by a column of the entity there; its
      other column and those of its filters are columns of its own target. -/
  join : ∀ (i : Nat) (j : Join), cs.statement.joins[i]? = some j →
    ∃ parent ≤ i, ∃ owner target, cs.statement.aliases[parent]? = some j.parentAlias ∧
      entities[parent]? = some owner ∧ j.parentColumn ∈ owner.columns ∧
      entities[i + 1]? = some target ∧ j.column ∈ target.columns ∧
      ∀ a ∈ j.filters, ∀ column ∈ a.filter.columns, column ∈ target.columns
  /-- The slot of a join is that of its relation, and the parent of the slot is an earlier
      one, at the alias where the join starts and of the node that owns the relation. -/
  joinSlot : ∀ (i : Nat) (j : Join), cs.statement.joins[i]? = some j →
    ∃ r ∈ plan.relations, ∃ (s owner : Slot) (link : SlotLink), cs.slots[i + 1]? = some s ∧
      s.node = some r.node.id ∧ c.entity r.node.relation.target = c.entity s.entity ∧
      s.link = some link ∧ link.relation = r.node.relation.name ∧ link.kind = j.kind ∧
      link.parent < i + 1 ∧ cs.slots[link.parent]? = some owner ∧
      owner.aliasName = j.parentAlias ∧ owner.node = r.node.parent
  /-- All conditions are on the root. -/
  predicate : ∀ p ∈ cs.statement.predicates, p.aliasName = cs.statement.root.aliasName ∧
    ∀ e, entities[0]? = some e → ∀ column ∈ p.filter.columns, column ∈ e.columns
  /-- The rows are in the order of columns of the root. -/
  orderBy : ∀ o ∈ cs.statement.orderBy, ∀ e, entities[0]? = some e → o.column ∈ e.columns

namespace Reading

variable {k : Compiler} {plan : LoadPlan} {scope : QueryScope} {root : Entity} {R : Reading}

/-- The entities that are read, that of the root first. -/
def entities (R : Reading) : List Entity :=
  R.entity :: R.joints.map Joint.target

theorem map_aliasName_slots (R : Reading) (scope : QueryScope) :
    R.slots.map Slot.aliasName = (R.statement scope).aliases := by
  rw [slots, List.map_cons, List.map_map, Statement.aliases, statement, List.map_map]
  rfl

/-- The entity at a slot is the one of which the columns are read there. -/
theorem forall₂_slots_entities (R : Reading) : List.Forall₂ (fun (s : Slot) e =>
    s.entity = e.name ∧ s.primaryKey = e.primaryKey ∧ s.columns = e.columns)
      R.slots R.entities := by
  refine .cons ⟨rfl, rfl, rfl⟩ ?_
  rw [List.forall₂_map_left_iff, List.forall₂_map_right_iff, List.forall₂_same]
  exact fun _ _ => ⟨rfl, rfl, rfl⟩

/-- Every entity that is read is one of the catalog. -/
theorem IsSound.entity_of_mem (h : R.IsSound k plan scope) (hc : k.catalog.IsSound) :
    ∀ e ∈ R.entities, k.catalog.entity e.name = .ok e := by
  intro e he
  have hmem : e ∈ k.catalog.entities := by
    rcases List.mem_cons.1 he with rfl | he
    · exact (Catalog.entity_eq_ok h.entity).1
    · obtain ⟨j, hj, rfl⟩ := List.mem_map.1 he
      exact (Catalog.entity_eq_ok (h.settled j hj).target).1
  exact hc.entity_name e hmem

/-- The slot of an owner and the entity there. -/
theorem IsSound.exists_owner_at (h : R.IsSound k plan scope) {j : Joint} (hj : j ∈ R.joints) :
    ∃ owner, R.entities[j.parent]? = some owner ∧ j.owner.columns = owner.columns := by
  have hslot := (h.settled j hj).owner
  have hforall := R.forall₂_slots_entities
  obtain ⟨hlt, heq⟩ := List.getElem?_eq_some_iff.1 hslot
  have hlt' : j.parent < R.entities.length := hforall.length_eq ▸ hlt
  refine ⟨R.entities[j.parent], List.getElem?_eq_getElem hlt', ?_⟩
  rw [← heq]
  exact (hforall.get hlt hlt').2.2

/-- A condition of a statement is on its root. -/
theorem aliasName_of_mem_predicates {p : Predicate} (hp : p ∈ (R.statement scope).predicates) :
    p.aliasName = R.aliasName := by
  rcases List.mem_append.1 hp with hp | hp
  · unfold clauses at hp
    split at hp
    · split at hp
      · exact absurd hp List.not_mem_nil
      · rw [List.mem_singleton.1 hp]
    · rw [List.mem_singleton.1 hp]
  · obtain ⟨a, -, rfl⟩ := List.mem_map.1 hp
    rfl

/-- A statement is in the order of columns of its root. -/
theorem IsSound.column_of_mem_orderBy (h : R.IsSound k plan scope) (hc : k.catalog.IsSound)
    {o : OrderBy} (ho : o ∈ (R.statement scope).orderBy) : o.column ∈ R.entity.columns := by
  cases hroot : R.root with
  | none =>
    rw [statement, clauses, hroot] at ho
    exact h.orderBy hroot o ho
  | some r =>
    rw [statement, clauses, hroot] at ho
    rw [List.mem_singleton.1 ho]
    exact hc.primaryKey_mem _ (Catalog.entity_eq_ok h.entity).1

/-- The joins of the statement are those of the joints, in order. -/
theorem exists_joint_of_join {scope : QueryScope} {i : Nat} {j : Join}
    (hj : (R.statement scope).joins[i]? = some j) : ∃ J, R.joints[i]? = some J ∧ J.join = j := by
  rw [statement, List.getElem?_map] at hj
  exact Option.map_eq_some_iff.1 hj

/-- A joint starts at the alias of its owner, by a column of the entity there, and ends at
    columns of its target. -/
theorem IsSound.exists_columns (h : R.IsSound k plan scope)
    (hsel : plan.IsSelected k.catalog root) (hc : k.catalog.IsSound) {i : Nat} {J : Joint}
    (hJ : R.joints[i]? = some J) :
    ∃ parent ≤ i, ∃ owner target,
      (R.statement scope).aliases[parent]? = some J.join.parentAlias ∧
        R.entities[parent]? = some owner ∧ J.join.parentColumn ∈ owner.columns ∧
          R.entities[i + 1]? = some target ∧ J.join.column ∈ target.columns ∧
            ∀ a ∈ J.join.filters, ∀ column ∈ a.filter.columns, column ∈ target.columns := by
  have hmem := List.mem_of_getElem? hJ
  have hsettled := h.settled J hmem
  obtain ⟨owner, howner, hcolumns⟩ := h.exists_owner_at hmem
  refine ⟨J.parent, h.parent_le i J hJ, owner, J.target, ?_, howner,
    hcolumns ▸ h.ownerColumn_mem hsel hc hmem, ?_, h.targetColumn_mem hsel hc hmem,
    (Compiler.activeAt_eq_ok hsettled.filters).2⟩
  · rw [← R.map_aliasName_slots, List.getElem?_map, hsettled.owner]
    rfl
  · rw [entities, List.getElem?_cons_succ, List.getElem?_map, hJ]
    rfl

/-- The slot of a joint is that of its relation, below the slot of the owner. -/
theorem IsSound.exists_slot (h : R.IsSound k plan scope) (hc : k.catalog.IsSound) {i : Nat}
    {J : Joint} (hJ : R.joints[i]? = some J) :
    ∃ r ∈ plan.relations, ∃ (s owner : Slot) (link : SlotLink), R.slots[i + 1]? = some s ∧
      s.node = some r.node.id ∧
      k.catalog.entity r.node.relation.target = k.catalog.entity s.entity ∧
      s.link = some link ∧ link.relation = r.node.relation.name ∧ link.kind = J.join.kind ∧
      link.parent < i + 1 ∧ R.slots[link.parent]? = some owner ∧
      owner.aliasName = J.join.parentAlias ∧ owner.node = r.node.parent := by
  have hmem := List.mem_of_getElem? hJ
  have hsettled := h.settled J hmem
  have htarget : J.target ∈ R.entities := List.mem_cons_of_mem _ (List.mem_map_of_mem hmem)
  exact ⟨J.relation, h.relation_mem hmem, J.slot, J.owner, _, getElem?_joints hJ, rfl,
    hsettled.target.trans (h.entity_of_mem hc J.target htarget).symm, rfl, rfl, rfl,
    Nat.lt_succ_of_le (h.parent_le i J hJ), hsettled.owner, rfl, hsettled.owner_node⟩

/-- The statement of a sound reading is in scope. -/
theorem IsSound.isScoped (h : R.IsSound k plan scope) (hsel : plan.IsSelected k.catalog root)
    (hc : k.catalog.IsSound) (hgroup : R.group ∈ plan.groups) :
    (R.compiled scope).IsScoped k.catalog plan R.entities := by
  have haliases := R.map_aliasName_slots scope
  constructor
  case declared => exact h.entity_of_mem hc
  case tables_eq =>
    rw [Statement.tables, compiled, statement, List.map_map, entities, List.map_cons, List.map_map]
    rfl
  case aliases_nodup => exact haliases ▸ h.aliases_nodup
  case aliases_eq => exact haliases
  case slots => exact R.forall₂_slots_entities
  case columns_eq => rfl
  case root =>
    obtain ⟨n, hn⟩ := List.mem_iff_getElem?.1 hgroup
    have hindex : R.group.index = n := hsel.isGrouped.index_eq n _ hn
    exact ⟨R.rootSlot, rfl, rfl, by rw [compiled, hindex, hn]; rfl⟩
  case join =>
    intro i j hj
    obtain ⟨J, hJ, rfl⟩ := exists_joint_of_join hj
    exact h.exists_columns hsel hc hJ
  case joinSlot =>
    intro i j hj
    obtain ⟨J, hJ, rfl⟩ := exists_joint_of_join hj
    exact h.exists_slot hc hJ
  -- Conditions and orderings are on the root, which is the first of the entities.
  case predicate =>
    intro p hp
    refine ⟨aliasName_of_mem_predicates hp, fun e he => ?_⟩
    obtain rfl := Option.some.inj he
    exact h.columns_subset hsel hc p hp
  case orderBy =>
    intro o ho e he
    obtain rfl := Option.some.inj he
    exact h.column_of_mem_orderBy hc ho

end Reading

end EntityFetch
