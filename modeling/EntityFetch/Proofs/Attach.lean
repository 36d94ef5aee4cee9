import EntityFetch.Proofs.Dispatch
import EntityFetch.Proofs.Regular
import EntityFetch.Proofs.Repeat
import Mathlib.Data.List.Flatten

/-!
# Attaching a group

The keys of a group are collected from the records at the start of its wave, its rows
are read in batches and assembled, and the records are attached to their owners. What
this gives are the records with the branches of one more group
(`CompiledPlan.IsPrepared.IsFollowUp.attach_eq`), although other groups of the wave are
attached between the collecting and the attaching: the owners stay the same.
-/

namespace EntityFetch

/-- Records of rows with distinct primary keys are assembled to themselves. -/
theorem CompiledStatement.assemble_eq_ok {cs : CompiledStatement} {rows : List Row}
    {store : Store} {bs : List Branch} {way : List Relation} {e : Entity} {ts : List TableRow}
    (hrows : rows.mapM cs.assembleRow = .ok (ts.map (recordOf store bs way e)))
    (hkey : cs.rootKey = e.primaryKey) (hprimary : e.primaryKey ∈ e.columns)
    (hkeyed : store.HasKeys e) (hmem : ∀ t ∈ ts, t ∈ store.rows e.table) (hnodup : ts.Nodup) :
    cs.assemble rows = .ok (ts.map (recordOf store bs way e)) := by
  have hkeys : ∀ t, (recordOf store bs way e t).key? e.primaryKey = (t.value e.primaryKey).key? := by
    intro t
    rw [Record.key?, get?_recordOf hprimary]
    rfl
  have hfirst : firstBy ((·.key? e.primaryKey) ∘ recordOf store bs way e) [] ts = ts := by
    refine firstBy_eq_self hnodup (fun a ha b hb _ heq => ?_) fun _ _ k hk =>
      absurd hk List.not_mem_nil
    rw [Function.comp_apply, Function.comp_apply, hkeys, hkeys] at heq
    exact (hkeyed.key? (hmem a ha)).2 b (hmem b hb) heq
  rw [assemble, hrows, hkey]
  change Except.ok (firstByKey _ [] _) = _
  rw [firstByKey_eq, firstBy_map, hfirst]

namespace CompiledPlan

variable {p : Planner} {req : FetchRequest} {root : Entity} {c : CompiledPlan} {k : Nat}
  {store : Store}

/-! ### Names -/

namespace IsPrepared

/-- The relations on the way to one that is loaded are loaded, too. -/
theorem exists_of_mem_chain (h : c.IsPrepared p req root) :
    ∀ r ∈ c.plan.relations, ∀ x ∈ r.node.chain, ∃ m ∈ c.plan.relations, m.node.relation = x := by
  refine h.selected.induct fun r hr ih x hx => ?_
  obtain ⟨parent, hmem, hchild⟩ := h.selected.exists_parent hr
  rw [Node.chain, List.mem_append, List.mem_singleton] at hx
  rcases hx with hx | rfl
  · rw [hchild.ancestors_eq] at hx
    rcases parent with _ | m
    · exact absurd hx List.not_mem_nil
    · exact ih m (hmem m rfl) hchild.parent_eq x hx
  · exact ⟨r, hr, rfl⟩

/-- If the catalog has no names with dots, nor has what is loaded. -/
theorem isDotFree_of_catalog (h : c.IsPrepared p req root)
    (hdot : ∀ e ∈ p.catalog.entities, ∀ r ∈ e.relations, IsDotFree r.name) :
    ∀ r ∈ c.plan.relations, IsDotFree r.node.relation.name := by
  intro r hr
  obtain ⟨parent, -, hchild⟩ := h.selected.exists_parent hr
  obtain ⟨e, hstart, hedge⟩ := hchild.relation
  exact hdot e (h.selected.mem_entities hstart) _ hedge

/-- Where no name has dots, owners are found by the names of the relations on the way to
    them. -/
theorem ownerPath_eq (h : c.IsPrepared p req root)
    (hdot : ∀ r ∈ c.plan.relations, IsDotFree r.node.relation.name) {r : PlannedRelation}
    (hr : r ∈ c.plan.relations) : c.ownerPath r = r.node.ancestors.map Relation.name := by
  obtain ⟨parent, hmem, hchild⟩ := h.selected.exists_parent hr
  rw [ownerPath, hchild.parent_eq, hchild.ancestors_eq]
  rcases parent with _ | m
  · rfl
  · have hm := hmem m rfl
    have hid : c.plan.relation? m.node.id = some m := h.selected.isGrouped.getElem?_id hm
    have hne : m.node.chain.map Relation.name ≠ [] := fun hnil =>
      m.node.chain_ne_nil (List.map_eq_nil_iff.1 hnil)
    rw [Option.map_some, Option.map_some, Option.bind_some, hid]
    refine split_dotted hne fun n hn => ?_
    obtain ⟨x, hx, rfl⟩ := List.mem_map.1 hn
    obtain ⟨m', hm', rfl⟩ := h.exists_of_mem_chain m hm x hx
    exact hdot m' hm'

/-! ### Records of a batch -/

variable {R : Reading} {q : PlannedRelation} {b : Branch} {o : Outline}

namespace IsFollowUp

/-- The way to the root of a group is that of its branch. -/
theorem chainAt_zero (hk : IsFollowUp p req c k R q b) : R.chainAt 0 = b.node.chain := by
  rw [Reading.chainAt_root hk.root, (Planner.branch_eq_ok.1 hk.branch).1]

/-- What is loaded with the branch of a group hangs below it. -/
theorem isBelow (hk : IsFollowUp p req c k R q b) (h : c.IsPrepared p req root) :
    b.IsBelow R.branches := by
  intro d hd
  obtain ⟨j, hj, rfl⟩ := List.mem_map.1 hd
  obtain ⟨i, hi⟩ := List.mem_iff_getElem?.1 hj
  rw [← hk.chainAt_zero]
  have hway : (R.branchOf j).node.ancestors = R.chainAt j.parent :=
    hk.sound.ancestors_eq h.selected hj
  exact hway ▸ hk.sound.prefix_chainAt h.selected hi

/-- A batch of keys is looked up in the order of the primary key, without bounds. -/
theorem clauses_eq (hk : IsFollowUp p req c k R q b) (scope : QueryScope) :
    (R.clauses scope).2 = ([{ column := b.target.primaryKey }], none, none) := by
  rw [Reading.clauses, hk.root, hk.target_eq]
  rfl

theorem orderBy_bindKeys (hk : IsFollowUp p req c k R q b) (scope : QueryScope)
    (keys : List Value) : ((R.statement scope).bindKeys keys).orderBy =
      [{ column := b.target.primaryKey }] :=
  congrArg Prod.fst (hk.clauses_eq scope)

/-- The rows of the root for a batch of keys. -/
theorem rootRows_bindKeys (hk : IsFollowUp p req c k R q b) (scope : QueryScope)
    (keys : List Value) :
    store.rootRows ((R.statement scope).bindKeys keys) = b.batch store keys := by
  rw [Reading.rootRows_bindKeys hk.root, Branch.batch, hk.target_eq, hk.filters_eq, Branch.edge,
    (Planner.branch_eq_ok.1 hk.branch).1]

theorem primaryKey_mem (hk : IsFollowUp p req c k R q b) (hc : p.catalog.IsSound) :
    R.entity.primaryKey ∈ R.entity.columns :=
  hc.primaryKey_mem _ (Catalog.entity_eq_ok hk.sound.entity).1

/-- A batch of keys is looked up in the order of a column of the root. -/
theorem column_mem_of_orderBy (hk : IsFollowUp p req c k R q b) (hc : p.catalog.IsSound)
    (scope : QueryScope) (keys : List Value) :
    ∀ x ∈ ((R.statement scope).bindKeys keys).orderBy, x.column ∈ R.entity.columns := by
  rw [hk.orderBy_bindKeys, hk.target_eq]
  exact List.forall_mem_singleton.2 (hk.primaryKey_mem hc)

/-- The records of a batch of keys. -/
theorem mapM_assembleRow_bindKeys (hk : IsFollowUp p req c k R q b) (h : c.IsPrepared p req root)
    (hc : p.catalog.IsSound) (ho : o.IsRegular c store) (hb : b ∈ o.branches)
    (hmem : ∀ d ∈ R.branches, d ∈ o.branches) (hordered : IsOrdered R.branches)
    (keys : List Value) :
    (store.evaluate ((R.statement (p.layered req.scope)).bindKeys keys)).mapM
        (R.compiled (p.layered req.scope)).assembleRow =
      .ok ((b.target.sorted (b.batch store keys)).map
        (recordOf store R.branches b.node.chain b.target)) := by
  have hgroup := List.mem_of_getElem? hk.group
  have hdet := ho.isDetermined h hgroup hk.statement hk.sound hmem
  have hclauses := hk.clauses_eq (p.layered req.scope)
  have hrecords := hdet.mapM_assembleRow hk.sound h.selected hc hgroup hordered
    ((Statement.Reads.statement R (p.layered req.scope)).bindKeys keys)
    (hk.column_mem_of_orderBy hc _ keys)
    (congrArg (fun x => x.2.1) hclauses) (congrArg (fun x => x.2.2) hclauses)
  rw [hrecords, hk.rootRows_bindKeys, hk.orderBy_bindKeys, hk.chainAt_zero, ← hk.target_eq,
    (ho.keyed b hb).sortBy_eq fun _ => Branch.mem_rows_of_mem_batch]

/-- The records of all batches of keys. -/
theorem assemble_batches (hk : IsFollowUp p req c k R q b) (h : c.IsPrepared p req root)
    (hc : p.catalog.IsSound) (ho : o.IsRegular c store) (hb : b ∈ o.branches)
    (hmem : ∀ d ∈ R.branches, d ∈ o.branches) (hordered : IsOrdered R.branches)
    {batches : List (List Value)} (hbatched : b.IsBatched store batches) :
    (R.compiled (p.layered req.scope)).assemble (batches.flatMap fun keys =>
        store.evaluate ((R.statement (p.layered req.scope)).bindKeys keys)) =
      .ok ((b.loaded store batches).map (recordOf store R.branches b.node.chain b.target)) := by
  refine CompiledStatement.assemble_eq_ok ?_ ?_ ?_ (ho.keyed b hb)
    (fun _ => Branch.mem_rows_of_mem_loaded) hbatched.nodup_loaded
  · rw [Branch.loaded, List.map_flatMap]
    exact mapM_flatMap_eq_ok fun keys _ =>
      hk.mapM_assembleRow_bindKeys h hc ho hb hmem hordered keys
  · rw [hk.target_eq]
    rfl
  · rw [hk.target_eq]
    exact hk.primaryKey_mem hc

/-! ### Owners -/

theorem groupBranches_eq (hk : IsFollowUp p req c k R q b) (h : c.IsPrepared p req root)
    (hc : p.catalog.IsSound) :
    c.groupBranches p (p.layered req.scope) k = b :: R.branches := by
  rw [groupBranches, hk.mapM_groupRelations h hc]
  rfl

theorem edge_eq (hk : IsFollowUp p req c k R q b) : b.edge = q.node.relation := by
  rw [Branch.edge, (Planner.branch_eq_ok.1 hk.branch).1]

/-- The column at which the relation of a group starts is one of its owner. -/
theorem ownerColumn_mem (hk : IsFollowUp p req c k R q b) (h : c.IsPrepared p req root)
    (hc : p.catalog.IsSound) : b.edge.ownerColumn ∈ b.owner.columns := by
  obtain ⟨e, howner, hedge, he, -⟩ := h.selected.exists_owner hc hk.mem
  rw [Except.ok.inj ((Planner.branch_eq_ok.1 hk.branch).2.1.symm.trans howner), hk.edge_eq]
  exact hc.ownerColumn_mem e he _ hedge

/-- The column at which the relation of a group ends is one of its target. -/
theorem targetColumn_mem (hk : IsFollowUp p req c k R q b) (h : c.IsPrepared p req root)
    (hc : p.catalog.IsSound) : b.edge.targetColumn ∈ b.target.columns := by
  rw [hk.target_eq, hk.edge_eq]
  exact hk.sound.rootColumn_mem h.selected hc hk.root

/-- Where no name has dots, owners are found along a walk to them. -/
theorem ownerPath_eq_map (hk : IsFollowUp p req c k R q b) (h : c.IsPrepared p req root)
    (hdot : ∀ e ∈ p.catalog.entities, ∀ r ∈ e.relations, IsDotFree r.name) {bs as : List Branch}
    (hwalk : Branch.Walk bs [] root as b.node.ancestors b.owner) :
    c.ownerPath q = as.map (·.edge.name) := by
  rw [h.ownerPath_eq (h.isDotFree_of_catalog hdot) hk.mem,
    ← (Planner.branch_eq_ok.1 hk.branch).1, hwalk.chain_eq, List.nil_append, List.map_map]
  rfl

/-- The statements of a group look up the keys of the rows at the end of a walk. -/
theorem groupStatements_eq (hk : IsFollowUp p req c k R q b) (h : c.IsPrepared p req root)
    (hc : p.catalog.IsSound)
    (hdot : ∀ e ∈ p.catalog.entities, ∀ r ∈ e.relations, IsDotFree r.name) {bs as : List Branch}
    (hbs : IsListed bs) (hwalk : Branch.Walk bs [] root as b.node.ancestors b.owner)
    (rows : List TableRow) (n : Nat) :
    c.groupStatements n (rows.map (recordOf store bs [] root)) k =
      (chunks n (distinctKeys [] ((Branch.walk store as rows).map
        fun r => r.value b.edge.ownerColumn))).map fun keys =>
          (k, (R.statement (p.layered req.scope)).bindKeys keys) := by
  have hcolumn := hk.ownerColumn_mem h hc
  have hvalues : ∀ owners : List TableRow,
      (owners.map (recordOf store bs b.node.ancestors b.owner)).filterMap
        (·.get? b.edge.ownerColumn) = owners.map fun r => r.value b.edge.ownerColumn := by
    intro owners
    rw [List.filterMap_map, ← List.filterMap_eq_map]
    exact List.filterMap_congr fun r _ => get?_recordOf hcolumn
  rw [groupStatements, hk.groupRoot, hk.statement]
  simp only
  rw [ownerKeys, hk.ownerPath_eq_map h hdot hwalk, hwalk.reached_recordOf hbs, ← hk.edge_eq,
    hvalues]
  rfl

/-- Every owner gets the records of its relation. -/
theorem attachTo_eq (hk : IsFollowUp p req c k R q b) (h : c.IsPrepared p req root)
    (hc : p.catalog.IsSound) (ho : o.IsRegular c store) (hb : b ∈ o.branches)
    {owners : List TableRow} (howners : ∀ r ∈ owners, r ∈ store.rows b.owner.table) (n : Nat)
    {bs : List Branch} {t : TableRow} (ht : t ∈ owners) :
    (recordOf store bs b.node.ancestors b.owner t).setRelation q.node.relation.name
        (relatedTo q.node.relation ((b.loaded store (chunks n (distinctKeys []
          (owners.map fun r => r.value b.edge.ownerColumn)))).map
            (recordOf store R.branches b.node.chain b.target))
          (recordOf store bs b.node.ancestors b.owner t)) =
      b.give store R.branches (recordOf store bs b.node.ancestors b.owner t) := by
  have hvalue : (recordOf store bs b.node.ancestors b.owner t).value b.edge.ownerColumn =
      t.value b.edge.ownerColumn := by
    rw [Record.value, get?_recordOf (hk.ownerColumn_mem h hc)]
    rfl
  have hmem : t.value b.edge.ownerColumn ∈ owners.map fun r => r.value b.edge.ownerColumn :=
    List.mem_map_of_mem ht
  rw [Branch.give, ← hk.edge_eq]
  refine congrArg _ ((ho.isBatched hb howners n).relatedTo_eq (hk.targetColumn_mem h hc) R.branches
    b.node.chain ?_ ?_ ?_)
  · exact hvalue ▸ ho.owner b hb t (howners t ht)
  · exact hvalue ▸ fun hsome => Branch.exists_mem_chunks hmem hsome n
  · exact fun hone => hvalue ▸ ho.single b hb hone t (howners t ht)

/-- Attaching a group gives the records with its branches, whatever other groups were
    attached since its keys were collected. -/
theorem attach_eq (hk : IsFollowUp p req c k R q b) (h : c.IsPrepared p req root)
    (hc : p.catalog.IsSound)
    (hdot : ∀ e ∈ p.catalog.entities, ∀ r ∈ e.relations, IsDotFree r.name)
    (ho : o.IsRegular c store)
    (hbranches : o.branches = c.plan.order.flatMap (c.groupBranches p (p.layered req.scope)))
    {rows : List TableRow} (hrows : ∀ r ∈ rows, r ∈ store.rows root.table)
    {before gs : List Nat}
    (hbefore : ∀ k' < c.plan.groups.length, c.plan.waveOf k' < c.plan.waveOf k → k' ∈ before)
    (horder : before ++ gs ++ [k] <+: c.plan.order) (n : Nat) :
    c.attach
        (rows.map (recordOf store
          ((before ++ gs).flatMap (c.groupBranches p (p.layered req.scope))) [] root)) k
        ((c.groupStatements n (rows.map (recordOf store
          (before.flatMap (c.groupBranches p (p.layered req.scope))) [] root)) k).flatMap
            fun t => store.evaluate t.2) =
      .ok (rows.map (recordOf store
        ((before ++ gs ++ [k]).flatMap (c.groupBranches p (p.layered req.scope))) [] root)) := by
  have hsplit : (before ++ gs ++ [k]).flatMap (c.groupBranches p (p.layered req.scope)) =
      (before ++ gs).flatMap (c.groupBranches p (p.layered req.scope)) ++ b :: R.branches := by
    rw [List.flatMap_append, List.flatMap_singleton, hk.groupBranches_eq h hc]
  -- The branches are those of the outline, as far as they are loaded.
  have hsublist : ((before ++ gs).flatMap (c.groupBranches p (p.layered req.scope)) ++
      b :: R.branches).Sublist o.branches := by
    rw [hbranches, ← hsplit]
    exact horder.sublist.flatMap _
  have hlisted := (hbranches ▸ h.isListed hc : IsListed o.branches).sublist hsublist
  have hdone := hlisted.sublist (List.sublist_append_left _ (b :: R.branches))
  have hstart : IsListed (before.flatMap (c.groupBranches p (p.layered req.scope))) := by
    refine hdone.sublist ?_
    rw [List.flatMap_append]
    exact List.sublist_append_left ..
  have hb : b ∈ o.branches :=
    hsublist.mem (List.mem_append_right _ List.mem_cons_self)
  have hmem : ∀ d ∈ R.branches, d ∈ o.branches := fun d hd =>
    hsublist.mem (List.mem_append_right _ (List.mem_cons_of_mem b hd))
  have hordered : IsOrdered R.branches :=
    (hlisted.sublist ((List.sublist_cons_self b _).trans (List.sublist_append_right ..))).ordered
  -- The owners are found along branches that are loaded when the wave starts.
  obtain ⟨as, hwalk⟩ := hk.exists_walk h hc hbefore
  have hwalk' : Branch.Walk ((before ++ gs).flatMap (c.groupBranches p (p.layered req.scope))) []
      root as b.node.ancestors b.owner := by
    refine hwalk.mono fun d hd => ?_
    rw [List.flatMap_append]
    exact List.mem_append_left _ hd
  have howners := hwalk.mem_rows hrows
  rw [hk.groupStatements_eq h hc hdot hstart hwalk, attach, hk.groupRoot, hk.statement]
  simp only
  rw [List.flatMap_map, hk.assemble_batches h hc ho hb hmem hordered (ho.isBatched hb howners n),
    hk.ownerPath_eq_map h hdot hwalk]
  change Except.ok _ = Except.ok _
  rw [List.map_map, hsplit]
  refine congrArg _ (List.map_congr_left fun r hr => ?_)
  rw [← hwalk'.updateAt_recordOf hlisted (hk.isBelow h) (hk.ownerColumn_mem h hc)]
  refine Record.updateAt_congr fun owner howner => ?_
  rw [← List.map_singleton, hwalk'.reached_recordOf hdone] at howner
  obtain ⟨t, ht, rfl⟩ := List.mem_map.1 howner
  have hall : ∀ r' ∈ [r], r' ∈ rows := List.forall_mem_singleton.2 hr
  exact hk.attachTo_eq h hc ho hb howners n (Branch.walk_mono hall t ht)

end IsFollowUp

end IsPrepared

end CompiledPlan

end EntityFetch
