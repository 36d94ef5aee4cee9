import EntityFetch.Proofs.Batch
import EntityFetch.Proofs.Loaded
import EntityFetch.Proofs.Single

/-!
# The branches of a plan

Every relation of a prepared request has a branch, and the branches of a group are those
of its reading (`CompiledPlan.IsPrepared.mapM_groupRelations`). In the order of loading
they are the outline of the request (`CompiledPlan.IsPrepared.mapM_loaded`), and every
owner is reached along branches that are loaded in earlier waves
(`CompiledPlan.IsPrepared.IsFollowUp.exists_walk`).
-/

namespace EntityFetch

/-- What the branch of a relation is made of. -/
theorem Planner.branch_eq_ok {p : Planner} {scope : QueryScope} {r : PlannedRelation}
    {b : Branch} : p.branch scope r = .ok b ↔ b.node = r.node ∧
      p.catalog.entity r.node.relation.owner = .ok b.owner ∧
      p.catalog.entity r.node.relation.target = .ok b.target ∧
      p.filters.active b.target.name (scope.overridesFor r.path) = .ok b.filters := by
  unfold branch
  simp only [bind_eq_ok, pure_eq_ok]
  constructor
  · rintro ⟨owner, howner, target, htarget, filters, hfilters, rfl⟩
    exact ⟨rfl, howner, htarget, hfilters⟩
  · rintro ⟨hnode, howner, htarget, hfilters⟩
    exact ⟨_, howner, _, htarget, _, hfilters, by rw [← hnode]⟩

namespace Reading

variable {p : Planner} {plan : LoadPlan} {scope : QueryScope} {root : Entity} {R : Reading}

/-- The relations of a group are that of the root and those of the joints. -/
theorem IsSound.groupRelations_eq {k : Compiler} (h : R.IsSound k plan scope) {i : Nat}
    (hi : plan.groups[i]? = some R.group) :
    plan.groupRelations i = R.root.toList ++ R.joints.map Joint.relation := by
  have hjoined : ∀ {ids : List Nat} {js : List Joint},
      List.Forall₂ (fun id j => plan.relation? id = some j.relation) ids js →
        ids.filterMap plan.relation? = js.map Joint.relation := by
    intro ids js hall
    induction hall with
    | nil => rfl
    | cons hj _ ih => rw [List.filterMap_cons_some hj, ih, List.map_cons]
  rw [LoadPlan.groupRelations, hi, Option.map_some, Option.getD_some, List.filterMap_append,
    hjoined h.relations, h.root_eq]
  congr 1
  cases R.group.root with
  | none => rfl
  | some id =>
    rw [Option.toList_some, Option.bind_some]
    cases hid : plan.relation? id with
    | none => rw [List.filterMap_cons_none hid]; rfl
    | some r => rw [List.filterMap_cons_some hid]; rfl

/-- The branch of a joint is that of its relation. -/
theorem IsSound.branch_joint (h : R.IsSound p.compiler plan scope)
    (hsel : plan.IsSelected p.catalog root) (hc : p.catalog.IsSound) {j : Joint}
    (hj : j ∈ R.joints) : p.branch scope j.relation = .ok (R.branchOf j) := by
  obtain ⟨e, he, -, howner⟩ := h.entityAt_parent hsel hc hj
  have hsettled := h.settled j hj
  refine Planner.branch_eq_ok.2 ⟨rfl, ?_, hsettled.target,
    (Compiler.activeAt_eq_ok hsettled.filters).1⟩
  rw [branchOf, he]
  exact howner

theorem IsSound.mapM_joints (h : R.IsSound p.compiler plan scope)
    (hsel : plan.IsSelected p.catalog root) (hc : p.catalog.IsSound) :
    (R.joints.map Joint.relation).mapM (p.branch scope) = .ok R.branches := by
  rw [List.mapM_map]
  exact mapM_eq_ok_map fun j hj => h.branch_joint hsel hc hj

end Reading

namespace CompiledPlan

/-- The branches of the relations of a group. -/
def groupBranches (c : CompiledPlan) (p : Planner) (scope : QueryScope) (k : Nat) :
    List Branch :=
  ((c.plan.groupRelations k).mapM (p.branch scope)).toOption.getD []

namespace IsPrepared

variable {p : Planner} {req : FetchRequest} {root : Entity} {c : CompiledPlan} {k : Nat}

/-- The statement of a group has a reading. -/
theorem exists_reading (h : c.IsPrepared p req root) (hk : k < c.plan.groups.length) :
    ∃ R : Reading, c.plan.groups[k]? = some R.group ∧
      c.statement? k = some (R.compiled (p.layered req.scope)) ∧
        R.IsSound p.compiler c.plan (p.layered req.scope) := by
  have hlt : k < c.statements.length := h.length_eq ▸ hk
  have hcs : c.statement? k = some c.statements[k] := List.getElem?_eq_getElem hlt
  obtain ⟨R, hgroup, hsound, heq⟩ := h.reading k _ hcs
  exact ⟨R, hgroup, hcs.trans (congrArg some heq), hsound⟩

/-- The branches of the first group. -/
theorem groupBranches_zero (h : c.IsPrepared p req root) (hc : p.catalog.IsSound) {R : Reading}
    (hgroup : c.plan.groups[0]? = some R.group)
    (hsound : R.IsSound p.compiler c.plan (p.layered req.scope)) :
    (c.plan.groupRelations 0).mapM (p.branch (p.layered req.scope)) = .ok R.branches := by
  rw [hsound.groupRelations_eq hgroup, (h.root_of_reading hgroup hsound).1]
  exact hsound.mapM_joints h.selected hc

/-- A group that is not the first, with its reading, the relation at its root and the
    branch of that. -/
structure IsFollowUp (p : Planner) (req : FetchRequest) (c : CompiledPlan) (k : Nat)
    (R : Reading) (q : PlannedRelation) (b : Branch) : Prop where
  group : c.plan.groups[k]? = some R.group
  statement : c.statement? k = some (R.compiled (p.layered req.scope))
  sound : R.IsSound p.compiler c.plan (p.layered req.scope)
  root : R.root = some q
  groupRoot : c.groupRoot? k = some q
  mem : q ∈ c.plan.relations
  strategy : q.strategy = .selectIn
  group_eq : q.group = k
  branch : p.branch (p.layered req.scope) q = .ok b
  target_eq : b.target = R.entity
  filters_eq : b.filters = R.active

/-- A group that is not the first follows one of the others. -/
theorem exists_isFollowUp (h : c.IsPrepared p req root) (hc : p.catalog.IsSound)
    (hk : k < c.plan.groups.length) (hne : k ≠ 0) : ∃ R q b, IsFollowUp p req c k R q b := by
  obtain ⟨R, hgroup, hstatement, hsound⟩ := h.exists_reading hk
  obtain ⟨g, q, hg, hq, hroot, hselect, hqk, -⟩ := h.selected.exists_root hk hne
  obtain rfl := Option.some.inj (hgroup.symm.trans hg)
  have hR : R.root = some q := by
    rw [hsound.root_eq, hroot]
    exact h.selected.isGrouped.getElem?_id hq
  obtain ⟨e, howner, -, -, -⟩ := h.selected.exists_owner hc hq
  have hentity := hsound.entity
  have hactive := (Compiler.activeAt_eq_ok hsound.active).1
  rw [Reading.path, hR] at hactive
  rw [hR] at hentity
  refine ⟨R, q, { node := q.node, owner := e, target := R.entity, filters := R.active }, hgroup,
    hstatement, hsound, hR, hqk ▸ h.groupRoot?_group hq hselect, hq, hselect, hqk,
    Planner.branch_eq_ok.2 ⟨rfl, howner, hentity, hactive⟩, rfl, rfl⟩

/-- Each group of a wave follows up, and those before it in the wave have its number. -/
theorem exists_isFollowUp_of_waves (h : c.IsPrepared p req root) (hc : p.catalog.IsSound)
    {before after : List (List Nat)} {wave gs gs' : List Nat}
    (hwaves : c.plan.waves = before ++ wave :: after) (hwave : wave = gs ++ k :: gs') :
    ∃ R q b, IsFollowUp p req c k R q b ∧ ∀ g ∈ gs, c.plan.waveOf g = c.plan.waveOf k := by
  obtain ⟨w, hw⟩ :=
    h.selected.exists_waveOf (hwaves ▸ List.mem_append_right _ List.mem_cons_self)
  obtain ⟨hlt, hne, hk⟩ := hw k (hwave ▸ List.mem_append_right _ List.mem_cons_self)
  obtain ⟨R, q, b, hfollow⟩ := h.exists_isFollowUp hc hlt hne
  exact ⟨R, q, b, hfollow, fun g hg => (hw g (hwave ▸ List.mem_append_left _ hg)).2.2.trans hk.symm⟩

/-- The branches of a group that is not the first. -/
theorem IsFollowUp.mapM_groupRelations {R : Reading} {q : PlannedRelation} {b : Branch}
    (hk : IsFollowUp p req c k R q b) (h : c.IsPrepared p req root) (hc : p.catalog.IsSound) :
    (c.plan.groupRelations k).mapM (p.branch (p.layered req.scope)) = .ok (b :: R.branches) := by
  rw [hk.sound.groupRelations_eq hk.group, hk.root, Option.toList_some, List.singleton_append,
    List.mapM_cons, hk.branch, hk.sound.mapM_joints h.selected hc]
  rfl

/-- Every relation of a group has a branch. -/
theorem mapM_groupRelations (h : c.IsPrepared p req root) (hc : p.catalog.IsSound)
    (hk : k < c.plan.groups.length) :
    (c.plan.groupRelations k).mapM (p.branch (p.layered req.scope)) =
      .ok (c.groupBranches p (p.layered req.scope) k) := by
  obtain ⟨bs, hbs⟩ : ∃ bs, (c.plan.groupRelations k).mapM (p.branch (p.layered req.scope)) =
      .ok bs := by
    by_cases hne : k = 0
    · subst hne
      obtain ⟨R, hgroup, -, hsound⟩ := h.exists_reading hk
      exact ⟨_, h.groupBranches_zero hc hgroup hsound⟩
    · obtain ⟨R, q, b, hfollow⟩ := h.exists_isFollowUp hc hk hne
      exact ⟨_, hfollow.mapM_groupRelations h hc⟩
  rw [groupBranches, hbs]
  rfl

/-- The branches in the order of loading are those of the relations in this order. -/
theorem mapM_loaded (h : c.IsPrepared p req root) (hc : p.catalog.IsSound) :
    c.plan.loaded.mapM (p.branch (p.layered req.scope)) =
      .ok (c.plan.order.flatMap (c.groupBranches p (p.layered req.scope))) :=
  mapM_flatMap_eq_ok fun _ hk => h.mapM_groupRelations hc (h.selected.mem_order.1 hk)

/-- The branches are in an order in which they can be loaded. -/
theorem isListed (h : c.IsPrepared p req root) (hc : p.catalog.IsSound) :
    IsListed (c.plan.order.flatMap (c.groupBranches p (p.layered req.scope))) := by
  have hnodes : (c.plan.order.flatMap (c.groupBranches p (p.layered req.scope))).map Branch.node =
      c.plan.loaded.map PlannedRelation.node :=
    map_eq_map_of_forall₂ (mapM_eq_ok.1 (h.mapM_loaded hc)) fun _ _ _ hb =>
      (Planner.branch_eq_ok.1 hb).1
  have hordered : ((c.plan.order.flatMap (c.groupBranches p (p.layered req.scope))).map
      Branch.node).Pairwise fun m n => m.ancestors ≠ n.chain := by
    rw [hnodes, List.pairwise_map]
    -- If the way to a relation ended at one that is loaded later, that one would be its parent.
    refine h.selected.pairwise_loaded.imp_of_mem fun {a b} ha hb hparent heq => hparent.2 ?_
    obtain ⟨parent, hmem, hchild⟩ := h.selected.exists_parent (h.selected.mem_loaded.1 ha)
    rw [hchild.parent_eq]
    rw [hchild.ancestors_eq] at heq
    cases parent with
    | none => exact absurd heq.symm b.node.chain_ne_nil
    | some m =>
      have hsame : m = b := h.selected.eq_of_path (hmem m rfl) (h.selected.mem_loaded.1 hb)
        (congrArg (fun chain : List Relation => dotted (chain.map Relation.name)) heq)
      rw [hsame]
      rfl
  constructor
  · exact List.pairwise_map.1 hordered
  · have hpaths : (c.plan.order.flatMap (c.groupBranches p (p.layered req.scope))).map
        (·.node.path) = c.plan.loaded.map (·.node.path) := by
      have := congrArg (List.map Node.path) hnodes
      rwa [List.map_map, List.map_map] at this
    have htree := h.selected.tree.path_nodup
    rw [List.map_map] at htree
    rw [hpaths]
    exact (h.selected.perm_loaded.map _).nodup_iff.2 htree

/-! ### Walks -/

/-- The branch of a relation is loaded with its group. -/
theorem mem_branches (h : c.IsPrepared p req root) (hc : p.catalog.IsSound)
    {r : PlannedRelation} (hr : r ∈ c.plan.relations) {b : Branch}
    (hb : p.branch (p.layered req.scope) r = .ok b) {done : List Nat} (hdone : r.group ∈ done) :
    b ∈ done.flatMap (c.groupBranches p (p.layered req.scope)) := by
  have hk := h.selected.isGrouped.group_lt r hr
  exact List.mem_flatMap.2 ⟨r.group, hdone, mem_of_mapM_eq_ok (h.mapM_groupRelations hc hk)
    (h.selected.mem_groupRelations.2 ⟨hr, rfl⟩) hb⟩

theorem exists_branch (h : c.IsPrepared p req root) (hc : p.catalog.IsSound)
    {r : PlannedRelation} (hr : r ∈ c.plan.relations) :
    ∃ b, p.branch (p.layered req.scope) r = .ok b := by
  have hall := mapM_eq_ok.1 (h.mapM_loaded hc)
  obtain ⟨i, hi, rfl⟩ := List.mem_iff_getElem.1 (h.selected.mem_loaded.2 hr)
  exact ⟨_, hall.get hi (hall.length_eq ▸ hi)⟩

/-- The owners of a relation are reached if those of its parent lead there. -/
theorem exists_walk_ancestors (h : c.IsPrepared p req root) (hc : p.catalog.IsSound)
    {bs : List Branch} {r : PlannedRelation} (hr : r ∈ c.plan.relations) {b : Branch}
    (hb : p.branch (p.layered req.scope) r = .ok b)
    (hparent : ∀ m ∈ c.plan.relations, r.node.parent = some m.node.id → ∀ a,
      p.branch (p.layered req.scope) m = .ok a →
        ∃ as, Branch.Walk bs [] root as a.node.chain a.target) :
    ∃ as, Branch.Walk bs [] root as b.node.ancestors b.owner := by
  obtain ⟨hnode, howner, -, -⟩ := Planner.branch_eq_ok.1 hb
  obtain ⟨e, howner', -, -, hway⟩ := h.selected.exists_owner hc hr
  obtain rfl := Except.ok.inj (howner.symm.trans howner')
  rcases hway with ⟨-, hnil, heq⟩ | ⟨m, hm, hid, hancestors, htarget⟩
  · refine ⟨[], ?_⟩
    rw [heq, hnode, hnil]
    exact .nil
  · obtain ⟨a, ha⟩ := h.exists_branch hc hm
    obtain ⟨hanode, -, hatarget, -⟩ := Planner.branch_eq_ok.1 ha
    obtain ⟨as, hwalk⟩ := hparent m hm hid a ha
    rw [hanode, ← hancestors, Except.ok.inj (hatarget.symm.trans htarget)] at hwalk
    exact ⟨as, hnode ▸ hwalk⟩

/-- If all groups up to a wave are loaded, a relation in one of them is reached along
    branches. -/
theorem exists_walk (h : c.IsPrepared p req root) (hc : p.catalog.IsSound) {done : List Nat}
    {w : Nat} (hdone : ∀ k < c.plan.groups.length, c.plan.waveOf k < w → k ∈ done)
    {r : PlannedRelation} (hr : r ∈ c.plan.relations) (hw : c.plan.waveOf r.group < w)
    {b : Branch} (hb : p.branch (p.layered req.scope) r = .ok b) :
    ∃ as, Branch.Walk (done.flatMap (c.groupBranches p (p.layered req.scope))) [] root as
      b.node.chain b.target := by
  suffices hall : ∀ r ∈ c.plan.relations, c.plan.waveOf r.group < w → ∀ b : Branch,
      p.branch (p.layered req.scope) r = .ok b →
        ∃ as, Branch.Walk (done.flatMap (c.groupBranches p (p.layered req.scope))) [] root as
          b.node.chain b.target from hall r hr hw b hb
  refine h.selected.induct fun r hr ih hw b hb => ?_
  have hmem := h.mem_branches hc hr hb (hdone _ (h.selected.isGrouped.group_lt r hr) hw)
  obtain ⟨as, hwalk⟩ := h.exists_walk_ancestors hc hr hb fun m hm hparent a ha => by
    have hle : c.plan.waveOf m.group ≤ c.plan.waveOf r.group := by
      rcases h.selected.waveOf_parent hr hm hparent with ⟨-, heq⟩ | ⟨-, heq⟩
      · exact Nat.le_of_eq (congrArg _ heq.symm)
      · omega
    exact ih m hm hparent (Nat.lt_of_le_of_lt hle hw) a ha
  exact ⟨as ++ [b], hwalk.snoc hmem⟩

/-- If all groups of earlier waves are loaded, the owners of a group are reached along
    branches. -/
theorem IsFollowUp.exists_walk {R : Reading} {q : PlannedRelation} {b : Branch}
    (hk : IsFollowUp p req c k R q b) (h : c.IsPrepared p req root) (hc : p.catalog.IsSound)
    {done : List Nat}
    (hdone : ∀ k' < c.plan.groups.length, c.plan.waveOf k' < c.plan.waveOf k → k' ∈ done) :
    ∃ as, Branch.Walk (done.flatMap (c.groupBranches p (p.layered req.scope))) [] root as
      b.node.ancestors b.owner := by
  refine h.exists_walk_ancestors hc hk.mem hk.branch fun m hm hparent a ha => ?_
  refine h.exists_walk hc hdone hm ?_ ha
  rcases h.selected.waveOf_parent hk.mem hm hparent with ⟨hjoined, -⟩ | ⟨-, hwave⟩
  · exact nomatch hjoined.symm.trans hk.strategy
  · rw [hk.group_eq] at hwave
    omega

end IsPrepared

end CompiledPlan

end EntityFetch
