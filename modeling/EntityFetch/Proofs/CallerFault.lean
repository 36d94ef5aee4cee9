import EntityFetch.Proofs.Failure
import EntityFetch.Proofs.Prepare
import EntityFetch.Proofs.Scoped

/-!
# What a caller can do wrong

A plan that was selected for a tree of relations of a sound catalog compiles unless the
caller is at fault (`Compiler.CallerFault`): the criteria or the orderings name a column
that the root does not have, a filter that is built for the fetch cannot be built or names a
column that its entity does not have, or no alias is left for a joined relation. Nothing that
compiling takes for granted is ever missing:

* a group names relations of the plan, which lead to entities of the catalog;
* the slot of a relation's owner is there when the relation is joined
  (`Compiler.exists_ownerSlot?`), since the owner comes first in the group;
* fixed filters have been checked with the catalog (`GlobalFilters.mem_of_validate`);
* all conditions are on the root (`Compiler.checkScoping_eq_ok`).

With `Reading.IsSound.isScoped` this settles how compiling can end
(`Planner.isScoped_or_callerFault`).
-/

namespace EntityFetch

/-! ### Filters -/

namespace GlobalFilters

/-- A filter that fails the check is on a column that the entity does not have. -/
theorem checkColumns_eq_error {e : Entity} {what : String} {f : Filter} {err : QueryError}
    (h : checkColumns e what f = .error err) : ∃ column ∈ f.columns, column ∉ e.columns ∧
      err = Fault.invalidFilter e.name (what ++ " references unknown column '" ++ column ++ "'") := by
  unfold checkColumns at h
  split at h
  · next column hfind =>
    have hunknown : (!e.hasColumn column) = true :=
      List.find?_some (p := fun column => !e.hasColumn column) hfind
    refine ⟨column, List.mem_of_find?_eq_some hfind, ?_, (Except.error.inj h).symm⟩
    simpa [Entity.hasColumn] using hunknown
  · cases h

/-- The fixed filters of a valid registry are on columns of their entity. -/
theorem mem_of_validate {gs : GlobalFilters} {c : Catalog} (h : gs.validate c = .ok ())
    {e : Entity} (he : c.entity e.name = .ok e) {g : GlobalFilter} (hg : g ∈ gs.of e.name)
    {f : Filter} (hf : g.predicate = .fixed f) : ∀ column ∈ f.columns, column ∈ e.columns := by
  obtain ⟨hmem, hname⟩ := List.mem_filter.1 hg
  have hentity : e.name ∈ gs.entityNames := by
    rw [entityNames, mem_addAllNew]
    exact Or.inr (List.mem_map.2 ⟨g, hmem, eq_of_beq hname⟩)
  obtain ⟨e', he', hchecks⟩ := bind_eq_ok.1 (forM_eq_ok.1 h e.name hentity)
  obtain rfl := Except.ok.inj (he.symm.trans he')
  have hcheck := forM_eq_ok.1 hchecks g hg
  rw [checkFilter, hf] at hcheck
  exact mem_of_checkColumns hcheck

end GlobalFilters

namespace GlobalFilter

variable {g : GlobalFilter} {args : Args}

/-- A filter that does not resolve is one that cannot be built. -/
theorem resolve_eq_error {err : QueryError} (h : g.resolve args = .error err) :
    ∃ build cause, g.predicate = .built build ∧
      build (Assoc.extend g.defaultArgs args) = .error cause ∧ err = cause.withEntity g.entity := by
  cases hpredicate : g.predicate with
  | fixed f =>
    rw [resolve, hpredicate] at h
    cases h
  | built build =>
    rw [resolve, hpredicate] at h
    cases hbuild : build (Assoc.extend g.defaultArgs args) with
    | ok f =>
      simp only [hbuild] at h
      cases h
    | error cause =>
      simp only [hbuild] at h
      exact ⟨build, cause, rfl, hbuild, (Except.error.inj h).symm⟩

/-- A filter that resolves is fixed or can be built. -/
theorem resolve_eq_ok {f : Filter} (h : g.resolve args = .ok f) : g.predicate = .fixed f ∨
    ∃ build, g.predicate = .built build ∧ build (Assoc.extend g.defaultArgs args) = .ok f := by
  cases hpredicate : g.predicate with
  | fixed f' =>
    rw [resolve, hpredicate] at h
    exact Or.inl (congrArg _ (Except.ok.inj h))
  | built build =>
    rw [resolve, hpredicate] at h
    cases hbuild : build (Assoc.extend g.defaultArgs args) with
    | ok f' =>
      simp only [hbuild] at h
      exact Or.inr ⟨build, rfl, hbuild.trans h⟩
    | error cause =>
      simp only [hbuild] at h
      cases h

end GlobalFilter

/-- The arguments that a filter gets at a path: its own and over them those of the fetch. -/
def QueryScope.argsAt (s : QueryScope) (path : String) (g : GlobalFilter) : Args :=
  Assoc.extend g.defaultArgs ((((s.overridesFor path).get? g.name).map Setting.args).getD [])

/-- An entity is read at a path of a plan; that of the root is empty. -/
def LoadPlan.Reads (c : Catalog) (p : LoadPlan) (path : String) (e : Entity) : Prop :=
  (path = "" ∧ c.entity p.root = .ok e) ∨
    ∃ r ∈ p.relations, path = r.path ∧ c.entity r.node.relation.target = .ok e

namespace Compiler

/-- A filter of an entity that is read at a path is in force there, and is built from
    arguments. -/
structure BuildsAt (k : Compiler) (plan : LoadPlan) (scope : QueryScope) (path : String)
    (e : Entity) (g : GlobalFilter) (build : Args → Except QueryError Filter) : Prop where
  reads : plan.Reads k.catalog path e
  mem : g ∈ k.filters.of e.name
  predicate : g.predicate = .built build
  enabled : GlobalFilters.isEnabled (scope.overridesFor path) g

/-- The errors to which a caller can lead when a plan is compiled. -/
inductive CallerFault (k : Compiler) (plan : LoadPlan) (scope : QueryScope) : QueryError → Prop
  /-- The criteria name a column that the root does not have. -/
  | criteria {e : Entity} {column : String} : k.catalog.entity plan.root = .ok e →
      column ∈ scope.criteria.columns → column ∉ e.columns →
      CallerFault k plan scope (Fault.invalidFilter e.name
        ("criteria references unknown column '" ++ column ++ "'"))
  /-- An ordering names a column that the root does not have. -/
  | ordering {e : Entity} {o : OrderBy} : k.catalog.entity plan.root = .ok e →
      o ∈ scope.orderBy → o.column ∉ e.columns →
      CallerFault k plan scope
        (QueryError.withOperation (Fault.unknownColumn e.name o.column) "Ordering fetch results")
  /-- A filter cannot be built from its arguments. -/
  | builder {path : String} {e : Entity} {g : GlobalFilter}
      {build : Args → Except QueryError Filter} {cause : QueryError} :
      k.BuildsAt plan scope path e g build → build (scope.argsAt path g) = .error cause →
      CallerFault k plan scope (cause.withEntity e.name)
  /-- A filter that is built names a column that its entity does not have. -/
  | built {path : String} {e : Entity} {g : GlobalFilter}
      {build : Args → Except QueryError Filter} {f : Filter} {column : String} :
      k.BuildsAt plan scope path e g build → build (scope.argsAt path g) = .ok f →
      column ∈ f.columns → column ∉ e.columns →
      CallerFault k plan scope (Fault.invalidFilter e.name
        (GlobalFilters.title g.name ++ " references unknown column '" ++ column ++ "'"))
  /-- No alias is left for a joined relation. -/
  | aliasCollision {r : PlannedRelation} : r ∈ plan.relations → r.strategy = .joined →
      CallerFault k plan scope (Fault.aliasCollision
        (Text.truncate k.sql.maxIdentifierLength (pathAlias r.path)) k.sql.maxAliasSuffix)

variable {k : Compiler} {plan : LoadPlan} {scope : QueryScope} {root : Entity}
  {err : QueryError}

/-- If compiling a filter fails at all, a filter that is built is at fault. -/
theorem callerFault_of_activeAt (hvalid : k.filters.validate k.catalog = .ok ()) {e : Entity}
    {path : String} (hreads : plan.Reads k.catalog path e)
    (he : k.catalog.entity e.name = .ok e) (h : k.activeAt scope e path = .error err) :
    k.CallerFault plan scope err := by
  unfold activeAt at h
  rcases bind_eq_error.1 h with h | ⟨active, hactive, h⟩
  · obtain ⟨g, hg, h⟩ := mapM_eq_error h
    obtain ⟨hmem, henabled⟩ := List.mem_filter.1 hg
    rcases bind_eq_error.1 h with h | ⟨f, -, h⟩
    · obtain ⟨build, cause, hpredicate, hbuild, rfl⟩ := GlobalFilter.resolve_eq_error h
      rw [eq_of_beq (List.mem_filter.1 hmem).2]
      exact .builder ⟨hreads, hmem, hpredicate, henabled⟩ hbuild
    · cases h
  · rcases bind_eq_error.1 h with h | ⟨_, -, h⟩
    · -- A fixed filter has passed the same check when the planner was made.
      obtain ⟨a, ha, h⟩ := forM_eq_error h
      obtain ⟨column, hcolumn, hunknown, rfl⟩ := GlobalFilters.checkColumns_eq_error h
      obtain ⟨g, hg, hactivate⟩ := exists_mem_of_mapM_eq_ok hactive ha
      obtain ⟨hmem, henabled⟩ := List.mem_filter.1 hg
      obtain ⟨f, hf, hactivate⟩ := bind_eq_ok.1 hactivate
      obtain rfl := pure_eq_ok.1 hactivate
      rcases GlobalFilter.resolve_eq_ok hf with hpredicate | ⟨build, hpredicate, hbuild⟩
      · exact absurd (GlobalFilters.mem_of_validate hvalid he hmem hpredicate column hcolumn)
          hunknown
      · exact .built ⟨hreads, hmem, hpredicate, henabled⟩ hbuild hcolumn hunknown
    · cases h

/-- If the clauses of the root cannot be compiled, they name a column that it does not have. -/
theorem callerFault_of_rootClauses {e : Entity} {aliasName : String}
    (he : k.catalog.entity plan.root = .ok e) (h : rootClauses scope e aliasName = .error err) :
    k.CallerFault plan scope err := by
  unfold rootClauses at h
  simp only at h
  rcases bind_eq_error.1 h with h | ⟨_, -, h⟩
  · -- The criteria are checked before the orderings.
    obtain ⟨p, hp, h⟩ := forM_eq_error h
    obtain ⟨column, hcolumn, hunknown, rfl⟩ := GlobalFilters.checkColumns_eq_error h
    split at hp
    · exact absurd hp List.not_mem_nil
    · rw [List.mem_singleton.1 hp] at hcolumn
      exact .criteria he hcolumn hunknown
  · split at h
    · next o hfind =>
      have hunknown : (!e.hasColumn o.column) = true :=
        List.find?_some (p := fun o : OrderBy => !e.hasColumn o.column) hfind
      obtain rfl := Except.error.inj h
      refine .ordering he (List.mem_of_find?_eq_some hfind) ?_
      simpa [Entity.hasColumn] using hunknown
    · cases h

end Compiler

/-! ### Groups -/

namespace Compiler

variable {k : Compiler} {plan : LoadPlan} {scope : QueryScope} {root : Entity}
  {group : LoadGroup} {err : QueryError}

/-- A relation that the group names is one of the plan. -/
theorem exists_planned (hpart : plan.IsPartition) (hgroup : group ∈ plan.groups) {id : Nat}
    (hid : group.root = some id ∨ id ∈ group.joined) : ∃ r, planned plan id = .ok r := by
  obtain ⟨r, hr⟩ : ∃ r, plan.relation? id = some r :=
    ⟨_, List.getElem?_eq_getElem (hpart.listed group hgroup id hid)⟩
  exact ⟨r, by rw [planned, hr]⟩

/-- A relation of a plan leads to an entity of the catalog. -/
theorem exists_target (hsel : plan.IsSelected k.catalog root) (hc : k.catalog.IsSound)
    {r : PlannedRelation} (hr : r ∈ plan.relations) :
    ∃ t, k.catalog.entity r.node.relation.target = .ok t := by
  obtain ⟨e, -, hedge, he, -⟩ := hsel.exists_owner hc hr
  exact hc.target e he _ hedge

/-- The slot of the owner is found if the owner is at the root or joined before. -/
theorem exists_ownerSlot? {slots : List Slot} {r : PlannedRelation} (hne : slots ≠ [])
    (h : r.node.parent = group.root ∨ ∃ s ∈ slots, s.node = r.node.parent ∧ s.node ≠ none) :
    ∃ n s, ownerSlot? group slots r = some n ∧ slots[n]? = some s := by
  unfold ownerSlot?
  split
  · exact ⟨0, _, rfl, List.getElem?_eq_getElem (List.length_pos_of_ne_nil hne)⟩
  · next hroot =>
    obtain ⟨s, hs, hparent, hsome⟩ := h.resolve_left hroot
    obtain ⟨id, hid⟩ := Option.ne_none_iff_exists'.1 hsome
    rw [← hparent, hid, Option.bind_some]
    have hfound : (slots.findIdx? (·.node == some id)).isSome := by
      rw [List.findIdx?_isSome, List.any_eq_true]
      exact ⟨s, hs, beq_iff_eq.2 hid⟩
    obtain ⟨n, hn⟩ := Option.isSome_iff_exists.1 hfound
    obtain ⟨hlt, -⟩ := List.findIdx?_eq_some_iff_getElem.1 hn
    exact ⟨n, slots[n], hn, List.getElem?_eq_getElem hlt⟩

/-- A draft of some joined relations, with the bounds of aliases that are configured. -/
structure Draft.Follows (k : Compiler) (scope : QueryScope) (root : Slot)
    (before : List PlannedRelation) (d : Draft) : Prop where
  joins : ∃ joints : List Joint, joints.map Joint.relation = before ∧ d.Joins k scope root joints
  maxLength : d.pool.maxLength = k.sql.maxIdentifierLength
  maxSuffix : d.pool.maxSuffix = k.sql.maxAliasSuffix

/-- One more relation follows the others. -/
theorem Draft.Follows.addJoin {slot : Slot} {before : List PlannedRelation} {d d' : Draft}
    {r : PlannedRelation} (h : d.Follows k scope slot before) (hslot : slot.node = group.root)
    (hadd : k.addJoin scope group d r = .ok d') : d'.Follows k scope slot (before ++ [r]) := by
  obtain ⟨joints, rfl, hjoins⟩ := h.joins
  obtain ⟨j, rfl, halloc, hjoins'⟩ := hjoins.addJoin hslot hadd
  have hpool := (AliasPool.allocate_eq_ok halloc).2
  exact ⟨⟨joints ++ [j], List.map_append, hjoins'⟩, hpool ▸ h.maxLength, hpool ▸ h.maxSuffix⟩

/-- If a relation cannot be joined, a filter or an alias is at fault: its owner is there. -/
theorem callerFault_of_addJoin (hvalid : k.filters.validate k.catalog = .ok ())
    (hsel : plan.IsSelected k.catalog root) (hc : k.catalog.IsSound) {slot : Slot}
    {before : List PlannedRelation} {d : Draft} {r : PlannedRelation}
    (hd : d.Follows k scope slot before) (hr : r ∈ plan.relations) (hjoined : r.strategy = .joined)
    (howner : r.node.parent = group.root ∨ ∃ o ∈ before, r.node.parent = some o.node.id)
    (h : k.addJoin scope group d r = .error err) : k.CallerFault plan scope err := by
  obtain ⟨joints, rfl, hjoins⟩ := hd.joins
  obtain ⟨target, htarget⟩ := exists_target hsel hc hr
  have hslots := hjoins.slots_eq
  -- Every relation that was joined has left its slot, so that the one of the owner is found.
  obtain ⟨n, s, hn, hs⟩ : ∃ n s, ownerSlot? group d.slots r = some n ∧ d.slots[n]? = some s := by
    refine exists_ownerSlot? (hslots ▸ List.cons_ne_nil _ _) (howner.imp_right ?_)
    rintro ⟨o, ho, hparent⟩
    obtain ⟨j, hj, rfl⟩ := List.mem_map.1 ho
    refine ⟨j.slot, ?_, hparent.symm, Option.some_ne_none _⟩
    rw [hslots]
    exact List.mem_cons_of_mem _ (List.mem_map_of_mem hj)
  unfold addJoin at h
  rcases bind_eq_error.1 h with h | ⟨_, htarget', h⟩
  · cases htarget.symm.trans h
  obtain rfl := Except.ok.inj (htarget.symm.trans htarget')
  simp only [hn, hs] at h
  rcases bind_eq_error.1 h with h | ⟨filters, -, h⟩
  · have hentity := hc.entity_name target (Catalog.entity_eq_ok htarget).1
    exact callerFault_of_activeAt hvalid (Or.inr ⟨r, hr, rfl, htarget⟩) hentity h
  · rcases bind_eq_error.1 h with h | ⟨_, -, h⟩
    · rw [(AliasPool.allocate_eq_error h).2, hd.maxLength, hd.maxSuffix]
      exact .aliasCollision hr hjoined
    · cases h

/-- The conditions of a statement that are all on its root pass the check. -/
theorem checkScoping_eq_ok {s : Statement}
    (h : ∀ p ∈ s.predicates, p.aliasName = s.root.aliasName) : checkScoping s = .ok () := by
  have hnone : s.predicates.find? (·.aliasName != s.root.aliasName) = none := by
    refine List.find?_eq_none.2 fun p hp => ?_
    rw [h p hp, bne_self_eq_false]
    exact Bool.false_ne_true
  rw [checkScoping, hnone]

/-- If the joins of a group cannot be compiled, a filter or an alias is at fault. -/
theorem callerFault_of_joins (hvalid : k.filters.validate k.catalog = .ok ())
    (hsel : plan.IsSelected k.catalog root) (hc : k.catalog.IsSound)
    (hgroup : group ∈ plan.groups) {slot : Slot} (hslot : slot.node = group.root)
    {pool : AliasPool} (hused : slot.aliasName ∈ pool.used)
    (hlength : pool.maxLength = k.sql.maxIdentifierLength)
    (hsuffix : pool.maxSuffix = k.sql.maxAliasSuffix) {joined : List PlannedRelation}
    (hjoined : group.joined.mapM (planned plan) = .ok joined)
    (h : joined.foldlM (k.addJoin scope group) { pool, joins := [], slots := [slot] } =
      .error err) : k.CallerFault plan scope err := by
  have hstart : Draft.Follows k scope slot [] { pool, joins := [], slots := [slot] } := by
    have hnone : ([] : List PlannedRelation).foldlM (k.addJoin scope group)
        { pool, joins := [], slots := [slot] } = .ok { pool, joins := [], slots := [slot] } := rfl
    obtain ⟨joints, hjoints, hjoins, -⟩ := Reading.exists_joints hslot hused hnone
    exact ⟨⟨joints, hjoints, hjoins⟩, hlength, hsuffix⟩
  -- All relations before the one that fails have been joined.
  obtain ⟨before, r, after, d, hsplit, hd, h⟩ := foldlM_eq_error
    (Draft.Follows k scope slot) hstart (fun _ _ _ _ _ hs hadd => hs.addJoin hslot hadd) h
  -- The relations have the numbers that the group lists.
  have hids : group.joined = joined.map fun r => r.node.id := by
    rw [← List.forall₂_eq_eq_eq, List.forall₂_map_right_iff]
    exact (mapM_eq_ok.1 hjoined).imp fun id r hr =>
      (hsel.isGrouped.node_id id r (planned_eq_ok hr)).symm
  rw [hsplit, List.map_append, List.map_cons] at hids
  have hplace : plan.relation? r.node.id = some r := by
    obtain ⟨id, -, hid⟩ := exists_mem_of_mapM_eq_ok hjoined
      (hsplit ▸ List.mem_append_right before List.mem_cons_self)
    have hr := planned_eq_ok hid
    rwa [hsel.isGrouped.node_id id r hr]
  obtain ⟨n, hn⟩ := List.mem_iff_getElem?.1 hgroup
  have hstrategy := (hsel.joined_of_mem hn
    (hids ▸ List.mem_append_right _ List.mem_cons_self) hplace).1
  refine callerFault_of_addJoin hvalid hsel hc hd (List.mem_of_getElem? hplace) hstrategy ?_ h
  rcases hsel.owner_before hn hids hplace with hroot | ⟨o, ho, hparent⟩
  · exact Or.inl hroot
  · obtain ⟨q, hq, rfl⟩ := List.mem_map.1 ho
    exact Or.inr ⟨q, hq, hparent⟩

/-- The root of a group is one of the plan, or that of the fetch. -/
theorem exists_root_of_mem (hsel : plan.IsSelected k.catalog root)
    (hc : k.catalog.IsSound) (hgroup : group ∈ plan.groups) :
    ∃ r : Option PlannedRelation, group.root.mapM (planned plan) = .ok r ∧
      ∃ e, k.catalog.entity ((r.map fun r => r.node.relation.target).getD plan.root) = .ok e ∧
        k.catalog.entity e.name = .ok e ∧
        plan.Reads k.catalog ((r.map PlannedRelation.path).getD "") e := by
  cases hroot : group.root with
  | none =>
    refine ⟨none, rfl, root, hsel.entity, ?_, Or.inl ⟨rfl, hsel.entity⟩⟩
    exact hc.entity_name root (Catalog.entity_eq_ok hsel.entity).1
  | some id =>
    obtain ⟨r, hr⟩ := exists_planned hsel.isPartition hgroup (Or.inl hroot)
    have hmem : r ∈ plan.relations := List.mem_of_getElem? (planned_eq_ok hr)
    obtain ⟨e, he⟩ := exists_target hsel hc hmem
    refine ⟨some r, ?_, e, he, hc.entity_name e (Catalog.entity_eq_ok he).1,
      Or.inr ⟨r, hmem, rfl, he⟩⟩
    rw [Option.mapM_some, hr]
    rfl

/-- If what is left cannot be compiled, a filter or an alias is at fault. -/
theorem callerFault_of_compileBelow (hvalid : k.filters.validate k.catalog = .ok ())
    (hsel : plan.IsSelected k.catalog root) (hc : k.catalog.IsSound)
    (hgroup : group ∈ plan.groups) {e : Entity} (hentity : k.catalog.entity e.name = .ok e)
    {path aliasName : String} (hreads : plan.Reads k.catalog path e) {pool : AliasPool}
    (hused : aliasName ∈ pool.used) (hlength : pool.maxLength = k.sql.maxIdentifierLength)
    (hsuffix : pool.maxSuffix = k.sql.maxAliasSuffix) {predicates : List Predicate}
    (hpredicates : ∀ p ∈ predicates, p.aliasName = aliasName) {orderBy : List OrderBy}
    {limit offset : Option Nat} (h : k.compileBelow plan scope group e path aliasName pool
      predicates orderBy limit offset = .error err) : k.CallerFault plan scope err := by
  unfold compileBelow at h
  rcases bind_eq_error.1 h with h | ⟨active, -, h⟩
  · exact callerFault_of_activeAt hvalid hreads hentity h
  rcases bind_eq_error.1 h with h | ⟨joined, hjoined, h⟩
  · obtain ⟨id, hid, h⟩ := mapM_eq_error h
    obtain ⟨q, hq⟩ := exists_planned hsel.isPartition hgroup (Or.inr hid)
    cases hq.symm.trans h
  rcases bind_eq_error.1 h with h | ⟨d, -, h⟩
  · exact callerFault_of_joins hvalid hsel hc hgroup rfl hused hlength hsuffix hjoined h
  rcases bind_eq_error.1 h with h | ⟨_, -, h⟩
  -- Conditions are made for the root only, and the last check finds no other.
  · rw [checkScoping_eq_ok] at h
    · cases h
    · intro p hp
      rcases List.mem_append.1 hp with hp | hp
      · exact hpredicates p hp
      · obtain ⟨a, -, rfl⟩ := List.mem_map.1 hp
        rfl
  · cases h

/-- If a group cannot be compiled, the caller is at fault. -/
theorem callerFault_of_compileGroup (hvalid : k.filters.validate k.catalog = .ok ())
    (hsel : plan.IsSelected k.catalog root) (hc : k.catalog.IsSound)
    (hgroup : group ∈ plan.groups) (h : k.compileGroup plan scope group = .error err) :
    k.CallerFault plan scope err := by
  obtain ⟨r, hr, e, he, hentity, hreads⟩ := exists_root_of_mem hsel hc hgroup
  unfold compileGroup at h
  rcases bind_eq_error.1 h with h | ⟨_, hr', h⟩
  · cases hr.symm.trans h
  obtain rfl := Except.ok.inj (hr.symm.trans hr')
  rcases bind_eq_error.1 h with h | ⟨_, he', h⟩
  · cases he.symm.trans h
  obtain rfl := Except.ok.inj (he.symm.trans he')
  -- The first alias is always free.
  rcases bind_eq_error.1 h with h | ⟨⟨aliasName, pool⟩, halloc, h⟩
  · exact absurd ((AliasPool.allocate_eq_error h).1 _ List.mem_cons_self) List.not_mem_nil
  have hused := AliasPool.mem_used_of_allocate halloc
  have hpool := (AliasPool.allocate_eq_ok halloc).2
  have hlength : pool.maxLength = k.sql.maxIdentifierLength := hpool ▸ rfl
  have hsuffix : pool.maxSuffix = k.sql.maxAliasSuffix := hpool ▸ rfl
  cases r with
  | none =>
    rcases bind_eq_error.1 h with h | ⟨⟨predicates, orderBy, limit, offset⟩, hcl, h⟩
    · exact callerFault_of_rootClauses he h
    exact callerFault_of_compileBelow hvalid hsel hc hgroup hentity hreads hused hlength hsuffix
      (Reading.aliasName_of_rootClauses hcl) h
  | some r =>
    exact callerFault_of_compileBelow hvalid hsel hc hgroup hentity hreads hused hlength hsuffix
      (List.forall_mem_singleton.2 rfl) h

end Compiler

namespace Planner

/-- A planner that was made has filters that fit its catalog. -/
theorem validate_of_make {catalog : Catalog} {filters : GlobalFilters} {config : Config}
    {p : Planner} (h : make catalog filters config = .ok p) :
    p.catalog = catalog ∧ p.filters.validate p.catalog = .ok () := by
  obtain ⟨_, -, h⟩ := bind_eq_ok.1 h
  obtain ⟨_, hvalid, h⟩ := bind_eq_ok.1 h
  obtain rfl := pure_eq_ok.1 h
  exact ⟨rfl, hvalid⟩

/-- How compiling a plan ends. If it succeeds, there is a statement for every group, which
    is in scope. If it fails, the caller is at fault; that the plan itself cannot be compiled
    is never the reason, unless the builder of a filter says so. -/
theorem isScoped_or_callerFault {decls : List EntityDecl} {catalog : Catalog}
    {filters : GlobalFilters} {config : Config} {p : Planner} {root : String}
    {texts : List String} {paths : List RelationPath} {plan : LoadPlan}
    (hbuild : Catalog.build decls = .ok catalog)
    (hmake : make catalog filters config = .ok p)
    (hparse : texts.mapM RelationPath.parse = .ok paths) (hplan : p.plan root paths = .ok plan)
    (scope : QueryScope) :
    (∀ c, p.compilePlan plan scope = .ok c → c.plan = plan ∧
      c.statements.length = plan.groups.length ∧
      ∀ (i : Nat) (cs : CompiledStatement), c.statement? i = some cs → cs.group = i ∧
        ∃ entities, cs.IsScoped p.catalog plan entities) ∧
    ∀ err, p.compilePlan plan scope = .error err →
      p.compiler.CallerFault plan (p.layered scope) err ∧
      (err.code = .planCompilation → ∃ path e g build cause,
        p.compiler.BuildsAt plan (p.layered scope) path e g build ∧
        build ((p.layered scope).argsAt path g) = .error cause ∧ err = cause.withEntity e.name) := by
  obtain ⟨rfl, hvalid⟩ := validate_of_make hmake
  have hc := Catalog.isSound_of_build hbuild
  obtain ⟨g, hresolve, hplan⟩ := bind_eq_ok.1 hplan
  obtain rfl := pure_eq_ok.1 hplan
  have hdot := RelationPath.isDotFree_of_mapM_parse hparse
  obtain ⟨e, hsel⟩ := LoadPlan.isSelected_of_resolve p.config.loading.defaults hdot hresolve
  constructor
  · intro c h
    obtain ⟨hplan, hlength, hreading⟩ := Reading.exists_of_compile (k := p.compiler) h
    refine ⟨hplan, hlength, fun i cs hcs => ?_⟩
    obtain ⟨R, hgroup, hsound, rfl⟩ := hreading i cs hcs
    exact ⟨hsel.isGrouped.index_eq i _ hgroup, R.entities,
      hsound.isScoped hsel hc (List.mem_of_getElem? hgroup)⟩
  · intro err h
    rcases bind_eq_error.1 (show p.compiler.compile _ _ = .error err from h) with h | ⟨_, -, h⟩
    · obtain ⟨group, hgroup, h⟩ := mapM_eq_error h
      have hfault := Compiler.callerFault_of_compileGroup (k := p.compiler) hvalid hsel hc hgroup h
      refine ⟨hfault, fun hcode => ?_⟩
      -- All other faults have codes of their own.
      cases hfault with
      | criteria => cases hcode
      | ordering => cases hcode
      | builder hbuilds hcause => exact ⟨_, _, _, _, _, hbuilds, hcause, rfl⟩
      | built => cases hcode
      | aliasCollision => cases hcode
    · cases h

end Planner

/-! ### Tasks of teams -/

/-- Users of one team, which each fetch has to name. -/
def teamUsers : GlobalFilters :=
  { filters :=
      [{ name := "team", entity := "User"
         predicate := .built fun args =>
           (args.lookup "team").elim
             (.error (Fault.invalidFilter "User" "no team is given"))
             fun team => .ok (.compare .eq "team_id" team) }] }

/-- Tasks with owners of one team. -/
def teamScope : QueryScope :=
  { filters := Overrides.empty.withArgs "team" [("team", .int 7)] }

namespace Planner

/-- Tasks with their owners compile for a team. Without one the filter cannot be built. -/
theorem isScoped_or_callerFault_tasks :
    ∃ catalog p plan, Catalog.build taskDecls = .ok catalog ∧
      make catalog teamUsers {} = .ok p ∧ p.plan "Task" [⟨["project"]⟩] = .ok plan ∧
      (∃ c cs, p.compilePlan plan teamScope = .ok c ∧ c.statement? 0 = some cs ∧
        cs.statement.aliases = ["task", "project", "owner"] ∧
        ∃ entities, cs.IsScoped p.catalog plan entities) ∧
      ∃ err, p.compilePlan plan {} = .error err ∧
        p.compiler.CallerFault plan (p.layered {}) err := by
  obtain ⟨catalog, hbuild, p, hmake, plan, hplan, c, hc, cs, hcs, haliases, err, herr⟩ :
      ∃ catalog, Catalog.build taskDecls = .ok catalog ∧ ∃ p, make catalog teamUsers {} = .ok p ∧
        ∃ plan, p.plan "Task" [⟨["project"]⟩] = .ok plan ∧
        ∃ c, p.compilePlan plan teamScope = .ok c ∧ ∃ cs, c.statement? 0 = some cs ∧
          cs.statement.aliases = ["task", "project", "owner"] ∧
        ∃ err, p.compilePlan plan {} = .error err :=
    ⟨_, rfl, _, rfl, _, rfl, _, rfl, _, rfl, rfl, _, rfl⟩
  have hparse : ["project"].mapM RelationPath.parse = .ok [⟨["project"]⟩] := rfl
  obtain ⟨-, -, hscoped⟩ :=
    (isScoped_or_callerFault hbuild hmake hparse hplan teamScope).1 c hc
  exact ⟨catalog, p, plan, hbuild, hmake, hplan,
    ⟨c, cs, hc, hcs, haliases, (hscoped 0 cs hcs).2⟩, err, herr,
    ((isScoped_or_callerFault hbuild hmake hparse hplan {}).2 err herr).1⟩

end Planner

end EntityFetch
