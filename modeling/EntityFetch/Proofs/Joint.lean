import EntityFetch.Statement.Compile
import EntityFetch.Proofs.Alias
import EntityFetch.Proofs.Plan

/-!
# Joints

A relation that is joined in a compiled statement has the slot of its owner, its
filters, its kind and its alias. All this is settled when the relation is added to
a draft, and kept together it is a `Joint`: the join and the slot of the relation
follow from it.

* `Joint.IsSettled`: a joint starts at the slot of its owner and is inner exactly
  if nothing can be missing;
* `Compiler.Draft.Joins`: a draft is a root slot and joints with distinct aliases,
  each of them starting at an earlier slot.
-/

namespace EntityFetch

/-! ### Checks -/

/-- A filter that passes the check is on columns of the entity. -/
theorem GlobalFilters.mem_of_checkColumns {e : Entity} {what : String} {f : Filter}
    (h : checkColumns e what f = .ok ()) : ∀ c ∈ f.columns, c ∈ e.columns := by
  unfold checkColumns at h
  split at h
  · exact nomatch h
  · next hfind =>
    intro c hc
    have := List.find?_eq_none.1 hfind c hc
    simpa [Entity.hasColumn] using this

namespace Compiler

variable {k : Compiler} {plan : LoadPlan} {scope : QueryScope}

/-- The filters at a path are those that apply there, on columns of the entity. -/
theorem activeAt_eq_ok {e : Entity} {path : String} {active : List ActiveFilter}
    (h : k.activeAt scope e path = .ok active) :
    k.filters.active e.name (scope.overridesFor path) = .ok active ∧
      ∀ a ∈ active, ∀ c ∈ a.filter.columns, c ∈ e.columns := by
  unfold activeAt at h
  obtain ⟨active', hactive, h⟩ := bind_eq_ok.1 h
  obtain ⟨_, hcheck, h⟩ := bind_eq_ok.1 h
  obtain rfl := pure_eq_ok.1 h
  exact ⟨hactive, fun a ha => GlobalFilters.mem_of_checkColumns (forM_eq_ok.1 hcheck a ha)⟩

theorem planned_eq_ok {id : Nat} {r : PlannedRelation} (h : planned plan id = .ok r) :
    plan.relation? id = some r := by
  unfold planned at h
  split at h
  · next hr => exact Except.ok.inj h ▸ hr
  · exact nomatch h

/-- The slot of the owner is that of the relation's parent. -/
theorem node_of_ownerSlot? {group : LoadGroup} {slots : List Slot} {r : PlannedRelation}
    {parent : Nat} {owner : Slot} (hroot : slots[0]?.bind Slot.node = group.root)
    (h : ownerSlot? group slots r = some parent) (howner : slots[parent]? = some owner) :
    owner.node = r.node.parent := by
  unfold ownerSlot? at h
  split at h
  · next hr =>
    obtain rfl := Option.some.inj h
    rw [howner, Option.bind_some] at hroot
    exact hroot.trans hr.symm
  · obtain ⟨p, hp, hfind⟩ := Option.bind_eq_some_iff.1 h
    obtain ⟨hlt, hnode, -⟩ := List.findIdx?_eq_some_iff_getElem.1 hfind
    rw [List.getElem?_eq_getElem hlt, Option.some.injEq] at howner
    rw [hp, ← howner]
    exact beq_iff_eq.1 hnode

end Compiler

/-! ### Joints -/

/-- A joined relation with what compiling settles about it. -/
structure Joint where
  relation : PlannedRelation
  target : Entity
  /-- The place of the owner in the list of slots. -/
  parent : Nat
  owner : Slot
  filters : List ActiveFilter
  kind : JoinKind
  aliasName : String

namespace Joint

/-- The relation of the catalog. -/
def edge (j : Joint) : Relation :=
  j.relation.node.relation

/-- The join of a joint. -/
def join (j : Joint) : Join :=
  { kind := j.kind
    table := { table := j.target.table, aliasName := j.aliasName }
    parentAlias := j.owner.aliasName
    parentColumn := j.edge.ownerColumn
    column := j.edge.targetColumn
    filters := j.filters
    path := j.relation.path }

/-- The slot of a joint. -/
def slot (j : Joint) : Slot :=
  { aliasName := j.aliasName
    entity := j.target.name
    primaryKey := j.target.primaryKey
    columns := j.target.columns
    node := some j.relation.node.id
    link := some { relation := j.edge.name, parent := j.parent, kind := j.kind } }

/-- What its alias is made from. -/
def base (j : Joint) : String :=
  pathAlias j.relation.path

/-- The kind of join for a relation, given its filters and the slot of its owner. -/
def kindOf (r : PlannedRelation) (filters : List ActiveFilter) (owner : Slot) : JoinKind :=
  if !r.node.relation.nullable && r.node.relation.eager && !r.upgraded && filters.isEmpty &&
    owner.isInner then .inner else .left

theorem kindOf_eq_inner {r : PlannedRelation} {filters : List ActiveFilter} {owner : Slot} :
    kindOf r filters owner = .inner ↔ r.node.relation.nullable = false ∧
      r.node.relation.eager = true ∧ r.upgraded = false ∧ filters = [] ∧
      owner.isInner = true := by
  unfold kindOf
  split
  · next hkind =>
    simp only [Bool.and_eq_true, Bool.not_eq_true', List.isEmpty_iff] at hkind
    obtain ⟨⟨⟨⟨hnull, heager⟩, hup⟩, hnone⟩, hinner⟩ := hkind
    exact ⟨fun _ => ⟨hnull, heager, hup, hnone, hinner⟩, fun _ => rfl⟩
  · next hkind =>
    refine ⟨nofun, fun ⟨hnull, heager, hup, hnone, hinner⟩ => absurd ?_ hkind⟩
    simp [hnull, heager, hup, hnone, hinner]

/-- What is settled about a joint whose owner has one of some slots. -/
structure IsSettled (k : Compiler) (scope : QueryScope) (slots : List Slot) (j : Joint) :
    Prop where
  target : k.catalog.entity j.edge.target = .ok j.target
  owner : slots[j.parent]? = some j.owner
  owner_node : j.owner.node = j.relation.node.parent
  filters : k.activeAt scope j.target j.relation.path = .ok j.filters
  kind : j.kind = kindOf j.relation j.filters j.owner

/-- More slots change nothing. -/
theorem IsSettled.append {k : Compiler} {scope : QueryScope} {slots : List Slot} {j : Joint}
    (h : j.IsSettled k scope slots) (more : List Slot) : j.IsSettled k scope (slots ++ more) :=
  { h with
    owner := by
      rw [List.getElem?_append_left (List.getElem?_eq_some_iff.1 h.owner).1]
      exact h.owner }

/-- One more relation is one more joint. -/
theorem exists_of_addJoin {k : Compiler} {scope : QueryScope} {group : LoadGroup}
    {d d' : Compiler.Draft} {r : PlannedRelation}
    (hroot : d.slots[0]?.bind Slot.node = group.root) (h : k.addJoin scope group d r = .ok d') :
    ∃ j : Joint, j.relation = r ∧ j.IsSettled k scope d.slots ∧
      d.pool.allocate (pathAlias r.path) = .ok (j.aliasName, d'.pool) ∧
      d'.joins = d.joins ++ [j.join] ∧ d'.slots = d.slots ++ [j.slot] := by
  unfold Compiler.addJoin at h
  obtain ⟨target, htarget, h⟩ := bind_eq_ok.1 h
  simp only at h
  split at h
  case h_2 => exact nomatch h
  case h_1 parent hparent =>
  split at h
  case h_2 => exact nomatch h
  case h_1 owner howner =>
  obtain ⟨filters, hfilters, h⟩ := bind_eq_ok.1 h
  obtain ⟨⟨aliasName, pool⟩, halloc, h⟩ := bind_eq_ok.1 h
  obtain rfl := pure_eq_ok.1 h
  exact ⟨{ relation := r, target, parent, owner, filters, aliasName
           kind := kindOf r filters owner },
    rfl, ⟨htarget, howner, Compiler.node_of_ownerSlot? hroot hparent howner, hfilters, rfl⟩,
    halloc, rfl, rfl⟩

end Joint

/-- A draft that consists of a root slot and some joints. -/
structure Compiler.Draft.Joins (k : Compiler) (scope : QueryScope) (root : Slot)
    (joints : List Joint) (d : Draft) : Prop where
  joins_eq : d.joins = joints.map Joint.join
  slots_eq : d.slots = root :: joints.map Joint.slot
  used : ∀ s ∈ d.slots, s.aliasName ∈ d.pool.used
  aliases_nodup : (d.slots.map Slot.aliasName).Nodup
  parent_le : ∀ (i : Nat) (j : Joint), joints[i]? = some j → j.parent ≤ i
  settled : ∀ j ∈ joints, j.IsSettled k scope d.slots

/-- One more relation is one more joint of the draft. -/
theorem Compiler.Draft.Joins.addJoin {k : Compiler} {scope : QueryScope} {group : LoadGroup}
    {root : Slot} {joints : List Joint} {d d' : Draft} {r : PlannedRelation}
    (h : d.Joins k scope root joints) (hroot : root.node = group.root)
    (hadd : k.addJoin scope group d r = .ok d') :
    ∃ j : Joint, j.relation = r ∧
      d.pool.allocate j.base = .ok (j.aliasName, d'.pool) ∧
      d'.Joins k scope root (joints ++ [j]) := by
  have hhead : d.slots[0]?.bind Slot.node = group.root := by rw [h.slots_eq, ← hroot]; rfl
  obtain ⟨j, hj, hsettled, halloc, hjoins, hslots⟩ := Joint.exists_of_addJoin hhead hadd
  obtain ⟨hfirst, hpool⟩ := AliasPool.allocate_eq_ok halloc
  refine ⟨j, hj, ?_, ?_⟩
  · rwa [Joint.base, hj]
  constructor
  case joins_eq => rw [hjoins, h.joins_eq, List.map_append, List.map_singleton]
  case slots_eq =>
    rw [hslots, h.slots_eq, List.map_append, List.map_singleton, List.cons_append]
  case used =>
    intro s hs
    rw [hslots, List.mem_append, List.mem_singleton] at hs
    rw [hpool, List.mem_cons]
    rcases hs with hs | rfl
    · exact Or.inr (h.used s hs)
    · exact Or.inl rfl
  case aliases_nodup =>
    rw [hslots, List.map_append, List.map_singleton, List.nodup_append]
    refine ⟨h.aliases_nodup, List.nodup_singleton _, fun a ha b hb => ?_⟩
    obtain ⟨s, hs, rfl⟩ := List.mem_map.1 ha
    rw [List.mem_singleton.1 hb]
    -- The pool gives no alias that is in use, and those of all slots are.
    exact fun heq =>
      hfirst.notMem_used (show j.slot.aliasName ∈ d.pool.used from heq ▸ h.used s hs)
  case parent_le =>
    have hlt := (List.getElem?_eq_some_iff.1 hsettled.owner).1
    rw [h.slots_eq, List.length_cons, List.length_map] at hlt
    exact forall_getElem?_concat.2 ⟨h.parent_le, Nat.le_of_lt_succ hlt⟩
  case settled =>
    rw [hslots]
    exact List.forall_mem_append.2 ⟨fun j' hj' => (h.settled j' hj').append _,
      List.forall_mem_singleton.2 (hsettled.append _)⟩

end EntityFetch
