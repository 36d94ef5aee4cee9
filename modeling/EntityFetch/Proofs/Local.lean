import EntityFetch.Proofs.LookUp
import EntityFetch.Proofs.Meaning

/-!
# Loading root by root

What is loaded with a root does not depend on the other roots of the fetch, nor on how many
keys are looked up at a time: every owner gets what looking up its key alone gives it
(`CompiledPlan.follow`), group by group (`CompiledPlan.followAll`).

* `CompiledPlan.IsRowAt`: records stand for rows of the entity to which their path leads,
  so that keys are of a kind that is compared as it is looked up;
* `CompiledPlan.IsPrepared.attach_follow`: a group gives every owner what is found for it
  alone, although other groups of the wave are attached in between;
* `CompiledPlan.IsPrepared.dispatch_eq_followAll`: loading all groups is following them root
  by root;
* `Planner.dispatch_eq_alone`: all roots together get what each gets alone.
-/

namespace EntityFetch

/-- Whether the rows of all entities have distinct primary keys of one kind, and relations are
    on columns of plain values. -/
structure Catalog.HasPlainTables (c : Catalog) (store : Store) : Prop where
  keyed : ∀ e ∈ c.entities, store.HasKeys e
  owner : ∀ e ∈ c.entities, ∀ r ∈ e.relations, ∀ t ∈ store.rows e.table,
    (t.value r.ownerColumn).IsPlain
  target : ∀ e ∈ c.entities, ∀ r ∈ e.relations, ∀ e', c.entity r.target = .ok e' →
    ∀ t ∈ store.rows e'.table, (t.value r.targetColumn).IsPlain

namespace CompiledPlan

/-- Whether keys can be looked up as they are compared: the targets of relations with
    statements of their own have distinct primary keys of one kind, and the columns by which
    these relations are looked up hold plain values. -/
structure HasPlainKeys (c : CompiledPlan) (catalog : Catalog) (store : Store) : Prop where
  keyed : ∀ r ∈ c.plan.relations, r.strategy = .selectIn → ∀ e,
    catalog.entity r.node.relation.target = .ok e → store.HasKeys e
  target : ∀ r ∈ c.plan.relations, r.strategy = .selectIn → ∀ e,
    catalog.entity r.node.relation.target = .ok e →
      ∀ t ∈ store.rows e.table, (t.value r.node.relation.targetColumn).IsPlain
  owner : ∀ r ∈ c.plan.relations, r.strategy = .selectIn → ∀ e,
    catalog.entity r.node.relation.owner = .ok e →
      ∀ o ∈ store.rows e.table, (o.value r.node.relation.ownerColumn).IsPlain

/-- The keys of regular tables can be looked up as they are compared. -/
theorem IsPrepared.hasPlainKeys {p : Planner} {req : FetchRequest} {root : Entity}
    {c : CompiledPlan} {store : Store} {o : Outline} (h : c.IsPrepared p req root)
    (hc : p.catalog.IsSound) (houtline : p.outline req c.plan.loaded = .ok o)
    (ho : o.IsRegular c store) : c.HasPlainKeys p.catalog store := by
  -- Every relation has a branch, for which the outline says what its tables are like.
  have hbranch : ∀ r ∈ c.plan.relations, ∃ b ∈ o.branches, b.edge = r.node.relation ∧
      p.catalog.entity r.node.relation.owner = .ok b.owner ∧
      p.catalog.entity r.node.relation.target = .ok b.target := by
    intro r hr
    obtain ⟨b, hb⟩ := h.exists_branch hc hr
    obtain ⟨o', houtline', -, -, -, -, hbranches⟩ := h.exists_outline hc
    obtain rfl := Except.ok.inj (houtline.symm.trans houtline')
    obtain ⟨hnode, howner, htarget, -⟩ := Planner.branch_eq_ok.1 hb
    exact ⟨b, hbranches ▸ mem_of_mapM_eq_ok (h.mapM_loaded hc) (h.selected.mem_loaded.2 hr) hb,
      congrArg Node.relation hnode, howner, htarget⟩
  constructor <;> intro r hr _ e he <;>
    obtain ⟨b, hb, hedge, howner, htarget⟩ := hbranch r hr
  case keyed =>
    obtain rfl := Except.ok.inj (htarget.symm.trans he)
    exact ho.keyed b hb
  case target =>
    obtain rfl := Except.ok.inj (htarget.symm.trans he)
    exact hedge ▸ ho.target b hb
  case owner =>
    obtain rfl := Except.ok.inj (howner.symm.trans he)
    exact hedge ▸ ho.owner b hb

/-- Keys can be looked up as they are compared in plain tables. -/
theorem IsPrepared.hasPlainKeys_of_catalog {p : Planner} {req : FetchRequest} {root : Entity}
    {c : CompiledPlan} {store : Store} (h : c.IsPrepared p req root) (hc : p.catalog.IsSound)
    (htables : p.catalog.HasPlainTables store) : c.HasPlainKeys p.catalog store where
  keyed _ _ _ e he := htables.keyed e (Catalog.entity_eq_ok he).1
  target r hr _ e he := by
    obtain ⟨e', -, hedge, hmem, -⟩ := h.selected.exists_owner hc hr
    exact htables.target e' hmem _ hedge e he
  owner r hr _ e he := by
    obtain ⟨e', howner, hedge, hmem, -⟩ := h.selected.exists_owner hc hr
    obtain rfl := Except.ok.inj (he.symm.trans howner)
    exact htables.owner e hmem _ hedge

/-- A root of which the owners get what is found for each of them alone, for one group. -/
def follow (c : CompiledPlan) (store : Store) (root : Record) (group : Nat) : Record :=
  match c.groupRoot? group with
  | some r => Record.updateAt (c.ownerPath r) (c.lookUp store group) root
  | none => root

/-- A root with all that is found for it and for the records below it, for each alone. -/
def followAll (c : CompiledPlan) (store : Store) (root : Record) : Record :=
  c.plan.waves.flatten.foldl (c.follow store) root

/-- Whether some relations lead from the root of a fetch to an entity. -/
def Leads (c : CompiledPlan) (catalog : Catalog) (root : Entity) (chain : List Relation)
    (e : Entity) : Prop :=
  chain = [] ∧ e = root ∨ ∃ r ∈ c.plan.relations, r.node.chain = chain ∧
    catalog.entity r.node.relation.target = .ok e

/-- Whether a record at a path has the fields of a row of the entity to which the path
    leads. -/
def IsRowAt (c : CompiledPlan) (catalog : Catalog) (store : Store) (root : Entity)
    (names : List String) (r : Record) : Prop :=
  ∃ chain e, Spells names chain ∧ c.Leads catalog root chain e ∧
    ∃ row ∈ store.rows e.table, r.fields = e.fields row

namespace IsPrepared

variable {p : Planner} {req : FetchRequest} {root : Entity} {c : CompiledPlan} {k : Nat}
  {store : Store} {R : Reading} {s : Statement}

/-! ### Records of rows -/

/-- Every slot of a statement is at the end of relations that lead to its entity. -/
theorem leads_chainAt (h : c.IsPrepared p req root)
    (hsound : R.IsSound p.compiler c.plan (p.layered req.scope)) {i : Nat} {e : Entity}
    (he : R.entityAt i = some e) : c.Leads p.catalog root (R.chainAt i) e := by
  rcases i with _ | i
  · -- The root of a statement is that of the fetch, or the relation of the group.
    obtain rfl := Option.some.inj he
    have hentity := hsound.entity
    rcases hroot : R.root with _ | q
    · rw [hroot] at hentity
      exact Or.inl ⟨Reading.chainAt_zero hroot,
        Except.ok.inj (hentity.symm.trans h.selected.entity)⟩
    · rw [hroot] at hentity
      exact Or.inr ⟨q, hsound.root_mem hroot, (Reading.chainAt_root hroot).symm, hentity⟩
  · obtain ⟨j, hj, rfl⟩ := Option.map_eq_some_iff.1 he
    have hmem := List.mem_of_getElem? hj
    exact Or.inr ⟨j.relation, hsound.relation_mem hmem, (Reading.chainAt_succ hj).symm,
      (hsound.settled j hmem).target⟩

/-- What a statement of the plan reads are records of rows, each at its path. -/
theorem everywhere_isRowAt (h : c.IsPrepared p req root) (hc : p.catalog.IsSound)
    (hgroup : R.group ∈ c.plan.groups)
    (hsound : R.IsSound p.compiler c.plan (p.layered req.scope)) (hs : s.Reads R) {row : Row}
    (hrow : row ∈ store.evaluate s) {r : Record}
    (hr : (R.compiled (p.layered req.scope)).assembleRow row = .ok r) {names : List String}
    (hnames : Spells names (R.chainAt 0)) :
    r.Everywhere (c.IsRowAt p.catalog store root) names := by
  have hR := hsound.isJoinable h.selected hc
  obtain ⟨x, hx, rfl⟩ := hR.exists_of_mem_evaluate hs hrow
  refine hsound.everywhere_of_slots h.selected hc hgroup hx (fun i t row names rels ht hrow hnames =>
    ?_) hr hnames
  obtain ⟨e, he, -, -, hcolumns⟩ := Reading.exists_entityAt ht
  obtain ⟨e', he', hmem⟩ := Reading.hasRows_of_mem_combinations hs hx _ _ hrow
  obtain rfl := Option.some.inj (he.symm.trans he')
  refine ⟨_, e, hnames, h.leads_chainAt hsound he, row, hmem, ?_⟩
  rw [Slot.record, hcolumns]
  rfl

/-- What the first statement of the plan reads are records of rows. -/
theorem everywhere_of_primary (h : c.IsPrepared p req root) (hc : p.catalog.IsSound)
    {primary : CompiledStatement} (hprimary : c.primary? = some primary) {row : Row}
    (hrow : row ∈ store.evaluate primary.statement) {r : Record}
    (hr : primary.assembleRow row = .ok r) :
    r.Everywhere (c.IsRowAt p.catalog store root) [] := by
  obtain ⟨R, hprimary', hsound, hgroup, hroot, -⟩ := h.exists_primary
  obtain rfl := Option.some.inj (hprimary.symm.trans hprimary')
  refine h.everywhere_isRowAt hc hgroup hsound (.statement R (p.layered req.scope)) hrow hr ?_
  rw [Reading.chainAt_zero hroot]
  exact ⟨rfl, iff_of_true rfl rfl⟩

/-- The owners of a relation with statements of its own have plain values. -/
theorem isPlain_of_isRowAt (h : c.IsPrepared p req root) (hc : p.catalog.IsSound)
    (hplain : c.HasPlainKeys p.catalog store) {q : PlannedRelation} (hq : q ∈ c.plan.relations)
    (hselect : q.strategy = .selectIn) {o : Record}
    (ho : c.IsRowAt p.catalog store root (c.ownerPath q) o) :
    (o.value q.node.relation.ownerColumn).IsPlain := by
  obtain ⟨chain, e, hnames, hleads, row, hrow, hfields⟩ := ho
  obtain ⟨howner, hnil⟩ := h.spells_ownerPath hq
  obtain ⟨e', hentity, -, -, hway⟩ := h.selected.exists_owner hc hq
  -- Both spell the path to the owners, which leads to one entity.
  have hsame : e = e' := by
    rcases hleads with ⟨rfl, rfl⟩ | ⟨m, hm, rfl, hm'⟩ <;>
      rcases hway with ⟨-, hancestors, rfl⟩ | ⟨m', hm'', -, hancestors, htarget⟩
    · rfl
    · have hempty := hnil.1 (hnames.2.2 rfl)
      rw [hancestors] at hempty
      exact absurd hempty (Node.chain_ne_nil _)
    · exact absurd (hnames.2.1 (hnil.2 hancestors)) (Node.chain_ne_nil _)
    · rw [hancestors] at howner
      have hpath : m = m' := h.selected.eq_of_path hm hm'' (hnames.1.symm.trans howner)
      exact Except.ok.inj (hm'.symm.trans (hpath ▸ htarget))
  rw [Record.value, Record.get?, hfields, Entity.fields, Assoc.lookup_ofList_map]
  split
  · exact hplain.owner q hq hselect e (hsame ▸ hentity) row hrow
  · exact ⟨.int, rfl⟩

end IsPrepared

/-! ### One group -/

variable {p : Planner} {req : FetchRequest} {root : Entity} {c : CompiledPlan} {k : Nat}
  {store : Store} {q : PlannedRelation} {roots : List Record}

theorem mem_of_groupRoot? (hq : c.groupRoot? k = some q) : q ∈ c.plan.relations := by
  obtain ⟨id, -, hid⟩ := Option.bind_eq_some_iff.1 hq
  exact List.mem_of_getElem? hid

theorem fields_lookUp (owner : Record) : (c.lookUp store k owner).fields = owner.fields := by
  unfold lookUp
  split <;> rfl

/-- Looking up an owner leaves its other relations as they are. -/
theorem related_lookUp (hq : c.groupRoot? k = some q) (owner : Record) (name : String)
    (hname : name ≠ q.node.relation.name) :
    (c.lookUp store k owner).related name = owner.related name := by
  unfold lookUp
  rw [hq]
  split
  · next r template hr _ =>
    obtain rfl := Option.some.inj hr
    rw [Record.related_setRelation, if_neg (by simpa using hname)]
  · rfl

/-- What is at the end of a path stays the same while groups are loaded that are not on the
    path. -/
theorem fields_reached_foldl_follow {path : List String} {groups : List Nat}
    (hgroups : ∀ g ∈ groups, ∀ r, c.groupRoot? g = some r →
      ¬c.ownerPath r ++ [r.node.relation.name] <+: path) (roots : List Record) :
    (Record.reached path (roots.map (groups.foldl (c.follow store)))).map Record.fields =
      (Record.reached path roots).map Record.fields := by
  induction groups generalizing roots with
  | nil =>
    rw [show List.map (List.foldl (c.follow store) · []) roots = roots from List.map_id _]
  | cons g groups ih =>
    have hsplit : roots.map ((g :: groups).foldl (c.follow store)) =
        (roots.map (c.follow store · g)).map (groups.foldl (c.follow store)) := by
      rw [List.map_map]
      rfl
    rw [hsplit, ih fun g' hg' => hgroups g' (List.mem_cons_of_mem g hg')]
    unfold follow
    split
    · next r hr =>
      exact Record.map_reached_updateAt (fun _ _ _ => rfl) (fun _ => fields_lookUp)
        (related_lookUp hr) (hgroups g List.mem_cons_self r hr) roots
    · rw [List.map_id']

/-- Loading groups leaves the fields of the root as they are. -/
theorem fields_foldl_follow (groups : List Nat) (x : Record) :
    (groups.foldl (c.follow store) x).fields = x.fields := by
  have hreached : (Record.reached [] ([x].map (groups.foldl (c.follow store)))).map
      Record.fields = (Record.reached [] [x]).map Record.fields :=
    fields_reached_foldl_follow (fun _ _ _ _ hpath =>
      List.concat_ne_nil _ _ (List.prefix_nil.1 hpath)) [x]
  exact List.head_eq_of_cons_eq hreached

namespace IsPrepared

/-- What is looked up for an owner are records of rows. -/
theorem everywhere_lookUp (h : c.IsPrepared p req root) (hc : p.catalog.IsSound)
    (hq : c.groupRoot? k = some q) {o : Record}
    (ho : o.Everywhere (c.IsRowAt p.catalog store root) (c.ownerPath q)) :
    (c.lookUp store k o).Everywhere (c.IsRowAt p.catalog store root) (c.ownerPath q) := by
  unfold lookUp
  rw [hq]
  split
  · next r template hr htemplate =>
    obtain rfl := Option.some.inj hr
    refine ho.setRelation (fun _ _ _ hrow => hrow) fun found hfound => ?_
    have hfound := mem_of_mem_relatedTo hfound
    rcases hrecords : template.assemble _ with e | records
    · rw [hrecords] at hfound
      exact absurd hfound List.not_mem_nil
    · rw [hrecords] at hfound
      have hfound : found ∈ records := hfound
      obtain ⟨row, hrow, hassemble⟩ := CompiledStatement.exists_of_mem_assemble hrecords hfound
      obtain ⟨keys, -, hrow⟩ := List.mem_flatMap.1 hrow
      -- The path to the owners, with the relation of the group, leads to its target.
      obtain ⟨R, hroot, hgroup, hsound, rfl⟩ := h.root_of_groupRoot? hq htemplate
      refine h.everywhere_isRowAt hc hgroup hsound
        ((Statement.Reads.statement R (p.layered req.scope)).bindKeys keys) hrow hassemble ?_
      rw [Reading.chainAt_root hroot]
      exact (h.spells_ownerPath (mem_of_groupRoot? hq)).append_singleton q.node.relation
  · exact ho

/-- Loading a group keeps records those of rows. -/
theorem everywhere_follow (h : c.IsPrepared p req root) (hc : p.catalog.IsSound) {r : Record}
    (hr : r.Everywhere (c.IsRowAt p.catalog store root) []) :
    (c.follow store r k).Everywhere (c.IsRowAt p.catalog store root) [] := by
  unfold follow
  split
  · next q hq =>
    exact hr.updateAt (fun _ _ _ hrow => hrow) fun o ho => h.everywhere_lookUp hc hq ho
  · exact hr

theorem everywhere_foldl_follow (h : c.IsPrepared p req root) (hc : p.catalog.IsSound)
    (groups : List Nat) {r : Record}
    (hr : r.Everywhere (c.IsRowAt p.catalog store root) []) :
    (groups.foldl (c.follow store) r).Everywhere (c.IsRowAt p.catalog store root) [] := by
  induction groups generalizing r with
  | nil => exact hr
  | cons k groups ih => exact ih (h.everywhere_follow hc hr)

/-- What is on the way to the owners of a relation is loaded in a wave before its own. -/
theorem waveOf_lt_of_groupRoot? (h : c.IsPrepared p req root)
    (hdot : ∀ r ∈ c.plan.relations, IsDotFree r.node.relation.name) {g : Nat}
    {r : PlannedRelation} (hr : c.groupRoot? g = some r) (hq : q ∈ c.plan.relations)
    (hselect : q.strategy = .selectIn)
    (hpath : c.ownerPath r ++ [r.node.relation.name] <+: c.ownerPath q) :
    c.plan.waveOf r.group < c.plan.waveOf q.group := by
  have hmem := mem_of_groupRoot? hr
  rw [h.ownerPath_eq hdot hmem, h.ownerPath_eq hdot hq] at hpath
  refine h.selected.waveOf_lt_of_prefix hmem hq hselect ?_
  rw [Node.chain, List.map_append]
  exact hpath

/-- Owners of a group stay the same while other groups of its wave are loaded. -/
theorem fields_owners (h : c.IsPrepared p req root)
    (hdot : ∀ r ∈ c.plan.relations, IsDotFree r.node.relation.name)
    (hq : q ∈ c.plan.relations) (hselect : q.strategy = .selectIn) {groups : List Nat}
    (hgroups : ∀ g ∈ groups, ∀ r, c.groupRoot? g = some r →
      c.plan.waveOf q.group ≤ c.plan.waveOf r.group) (roots : List Record) :
    (Record.reached (c.ownerPath q) (roots.map (groups.foldl (c.follow store)))).map
        Record.fields = (Record.reached (c.ownerPath q) roots).map Record.fields := by
  refine fields_reached_foldl_follow (fun g hg r hr hpath => ?_) roots
  -- Otherwise the relation would be on the way to the owners, in an earlier wave.
  exact absurd (h.waveOf_lt_of_groupRoot? hdot hr hq hselect hpath)
    (Nat.not_lt_of_le (hgroups g hg r hr))

/-- Loading groups leaves a relation of the root as it is, unless one of them starts there. -/
theorem fields_related_foldl_follow (h : c.IsPrepared p req root)
    (hdot : ∀ r ∈ c.plan.relations, IsDotFree r.node.relation.name) {r : PlannedRelation}
    (hr : r ∈ c.plan.relations)
    (htop : r.node.ancestors = []) {groups : List Nat}
    (hgroups : ∀ g ∈ groups, c.groupRoot? g ≠ some r) (x : Record) :
    ((groups.foldl (c.follow store) x).related r.node.relation.name).map Record.fields =
      (x.related r.node.relation.name).map Record.fields := by
  have hpaths : ∀ g ∈ groups, ∀ q, c.groupRoot? g = some q →
      ¬c.ownerPath q ++ [q.node.relation.name] <+: [r.node.relation.name] := by
    intro g hg q hq hpath
    -- Only the relation itself is at the end of its path.
    have hmem := mem_of_groupRoot? hq
    have hchain : q.node.chain.map Relation.name = r.node.chain.map Relation.name := by
      rw [h.ownerPath_eq hdot hmem] at hpath
      rw [Node.chain, Node.chain, htop, List.map_append]
      refine hpath.eq_of_length_le ?_
      rw [List.length_append]
      exact Nat.le_add_left _ _
    exact hgroups g hg (h.selected.eq_of_path hmem hr (congrArg dotted hchain) ▸ hq)
  have hreached : (Record.reached [r.node.relation.name]
      ([x].map (groups.foldl (c.follow store)))).map Record.fields =
        (Record.reached [r.node.relation.name] [x]).map Record.fields :=
    fields_reached_foldl_follow hpaths [x]
  rwa [List.map_singleton, Record.reached_cons, Record.reached_cons] at hreached

/-- The owners of a group have plain values. -/
theorem isPlain_of_mem_reached (h : c.IsPrepared p req root) (hc : p.catalog.IsSound)
    (hplain : c.HasPlainKeys p.catalog store) (hq : q ∈ c.plan.relations)
    (hselect : q.strategy = .selectIn)
    (hroots : ∀ r ∈ roots, r.Everywhere (c.IsRowAt p.catalog store root) []) {o : Record}
    (ho : o ∈ Record.reached (c.ownerPath q) roots) :
    (o.value q.node.relation.ownerColumn).IsPlain := by
  obtain ⟨r, hr, ho⟩ := Record.mem_reached.1 ho
  exact h.isPlain_of_isRowAt hc hplain hq hselect (hroots r hr _ o ho)

/-- The keys of owners are plain values. -/
theorem isPlain_of_mem_keys (h : c.IsPrepared p req root) (hc : p.catalog.IsSound)
    (hplain : c.HasPlainKeys p.catalog store) (hq : q ∈ c.plan.relations)
    (hselect : q.strategy = .selectIn)
    (hroots : ∀ r ∈ roots, r.Everywhere (c.IsRowAt p.catalog store root) []) {v : Value}
    (hv : v ∈ (Record.reached (c.ownerPath q) roots).filterMap
      (·.get? q.node.relation.ownerColumn)) : v.IsPlain := by
  obtain ⟨o, ho, hv⟩ := List.mem_filterMap.1 hv
  have hvalue := h.isPlain_of_mem_reached hc hplain hq hselect hroots ho
  rwa [Record.value, hv] at hvalue

/-- The key of an owner is among those that are collected at the start of its wave. -/
theorem mem_keys_of_mem_reached (h : c.IsPrepared p req root)
    (hdot : ∀ r ∈ c.plan.relations, IsDotFree r.node.relation.name)
    (hq : q ∈ c.plan.relations) (hselect : q.strategy = .selectIn) {groups : List Nat}
    (hgroups : ∀ g ∈ groups, ∀ r, c.groupRoot? g = some r →
      c.plan.waveOf q.group ≤ c.plan.waveOf r.group) {owner : Record}
    (howner : owner ∈ Record.reached (c.ownerPath q)
      (roots.map (groups.foldl (c.follow store)))) {v : Value}
    (hv : owner.get? q.node.relation.ownerColumn = some v) :
    v ∈ (Record.reached (c.ownerPath q) roots).filterMap
      (·.get? q.node.relation.ownerColumn) := by
  -- The owner was there at the start of the wave, with the same fields.
  have hfields := List.mem_map_of_mem (f := Record.fields) howner
  rw [h.fields_owners hdot hq hselect hgroups] at hfields
  obtain ⟨o, ho, hsame⟩ := List.mem_map.1 hfields
  refine List.mem_filterMap.2 ⟨o, ho, ?_⟩
  rw [Record.get?, hsame]
  exact hv

/-- A group gives every owner what is found for it alone, whatever other groups of its wave
    are loaded since the keys were collected. -/
theorem attach_follow (h : c.IsPrepared p req root) (hc : p.catalog.IsSound)
    (hdot : ∀ r ∈ c.plan.relations, IsDotFree r.node.relation.name)
    (hplain : c.HasPlainKeys p.catalog store) {R : Reading} {b : Branch}
    (hk : IsFollowUp p req c k R q b)
    (hroots : ∀ r ∈ roots, r.Everywhere (c.IsRowAt p.catalog store root) []) {groups : List Nat}
    (hgroups : ∀ g ∈ groups, ∀ r, c.groupRoot? g = some r →
      c.plan.waveOf q.group ≤ c.plan.waveOf r.group) (n : Nat) :
    c.attach (roots.map (groups.foldl (c.follow store))) k
        ((c.groupStatements n roots k).flatMap fun t => store.evaluate t.2) =
      .ok ((roots.map (groups.foldl (c.follow store))).map (c.follow store · k)) := by
  have hbranch := Planner.branch_eq_ok.1 hk.branch
  have hkeyed := hplain.keyed q hk.mem hk.strategy _ hbranch.2.2.1
  have htarget : ∀ t ∈ store.rows b.target.table, (t.value b.edge.targetColumn).IsPlain :=
    hk.edge_eq ▸ hplain.target q hk.mem hk.strategy _ hbranch.2.2.1
  have hvs : ∀ v ∈ (Record.reached (c.ownerPath q) roots).filterMap
      (·.get? q.node.relation.ownerColumn), v.IsPlain :=
    fun v hv => h.isPlain_of_mem_keys hc hplain hk.mem hk.strategy hroots hv
  have hassemble := hk.assemble_loaded h hc (Branch.isBatched_chunks hkeyed htarget hvs n)
  rw [groupStatements, attach, hk.groupRoot, hk.statement]
  simp only
  rw [List.flatMap_map]
  refine bind_eq_ok.2 ⟨_, hassemble, congrArg Except.ok (List.map_congr_left fun r hr => ?_)⟩
  rw [follow, hk.groupRoot]
  -- All owners get what is found for their keys, among those of all owners as alone.
  refine Record.updateAt_congr fun owner howner => ?_
  have hmem : owner ∈ Record.reached (c.ownerPath q)
      (roots.map (groups.foldl (c.follow store))) := Record.mem_reached.2 ⟨r, hr, howner⟩
  have hafter : ∀ r ∈ roots.map (groups.foldl (c.follow store)),
      r.Everywhere (c.IsRowAt p.catalog store root) [] := by
    intro r' hr'
    obtain ⟨r₀, hr₀, rfl⟩ := List.mem_map.1 hr'
    exact h.everywhere_foldl_follow hc groups (hroots r₀ hr₀)
  have hvalue := h.isPlain_of_mem_reached hc hplain hk.mem hk.strategy hafter hmem
  have hkey := fun v =>
    h.mem_keys_of_mem_reached (v := v) hdot hk.mem hk.strategy hgroups hmem
  rw [← hk.edge_eq] at hvalue hkey ⊢
  obtain ⟨records, hrecords, hgiven⟩ :=
    hk.exists_relatedTo_eq h hc hkeyed htarget hvalue (hk.edge_eq ▸ hvs) hkey n
  rw [hk.lookUp_eq h hc hkeyed htarget hvalue, ← hgiven]
  rw [hk.edge_eq] at hrecords
  rw [Except.ok.inj (hrecords.symm.trans hassemble), hk.edge_eq]

/-- The relation at the root of a group is in the group. -/
theorem group_of_groupRoot? (h : c.IsPrepared p req root) (hq : c.groupRoot? k = some q) :
    q.group = k := by
  obtain ⟨id, hid, hplace⟩ := Option.bind_eq_some_iff.1 hq
  obtain ⟨g, hg, hroot⟩ := Option.bind_eq_some_iff.1 hid
  exact (h.selected.selectIn_of_root hg hroot hplace).2

/-! ### All groups -/

variable {σ : Type} {x : Executor σ} {inv : σ → Prop} {state : σ}

/-- Whatever the number of keys that are looked up at a time, every root gets what is found
    for it and for the records below it, for each alone. -/
theorem dispatch_eq_followAll (h : c.IsPrepared p req root) (hc : p.catalog.IsSound)
    (hdot : ∀ r ∈ c.plan.relations, IsDotFree r.node.relation.name)
    (hplain : c.HasPlainKeys p.catalog store) (hx : x.Answers store inv) (hinv : inv state)
    (hroots : ∀ r ∈ roots, r.Everywhere (c.IsRowAt p.catalog store root) []) (n : Nat) :
    (c.dispatch x n roots state).1 = (roots.map (c.followAll store), none) := by
  have hsplit : ∀ done groups : List Nat, roots.map ((done ++ groups).foldl (c.follow store)) =
      (roots.map (done.foldl (c.follow store))).map (groups.foldl (c.follow store)) := by
    intro done groups
    rw [List.map_map]
    exact List.map_congr_left fun r _ => List.foldl_append
  have hnone : roots.map (([] : List Nat).foldl (c.follow store)) = roots := List.map_id _
  have hrun : (c.runWaves x n c.plan.waves
      (roots.map (([] : List Nat).foldl (c.follow store))) state).1 =
        (roots.map (([] ++ c.plan.waves.flatten).foldl (c.follow store)), none) := by
    refine runWaves_eq (f := fun done => roots.map (done.foldl (c.follow store))) hx hinv
      h.selected.nodup_of_mem_waves
      fun before wave after hwaves gs k gs' hwave => ?_
    obtain ⟨R, q, b, hk, hsame⟩ := h.exists_isFollowUp_of_waves hc hwaves hwave
    rw [hsplit _ [k], hsplit _ gs]
    refine h.attach_follow hc hdot hplain hk (fun r hr => ?_) (fun g hg r hr => ?_) n
    · obtain ⟨r₀, hr₀, rfl⟩ := List.mem_map.1 hr
      exact h.everywhere_foldl_follow hc _ (hroots r₀ hr₀)
    · -- The groups before this one are of the same wave.
      rw [hk.group_eq, h.group_of_groupRoot? hr]
      exact Nat.le_of_eq (hsame g hg).symm
  rw [hnone] at hrun
  exact hrun

end IsPrepared

end CompiledPlan

namespace Planner

variable {p : Planner} {req : FetchRequest} {c : CompiledPlan} {store : Store}

/-- What is loaded with a root does not depend on the other roots, nor on how many keys are
    looked up at a time: of any roots that the first statement of a plan reads, each gets
    what it gets alone, with its keys looked up one by one. -/
theorem dispatch_eq_alone {decls : List EntityDecl}
    (hbuild : Catalog.build decls = .ok p.catalog) (hprepare : p.prepare req = .ok c)
    (hdot : ∀ r ∈ c.plan.relations, IsDotFree r.node.relation.name)
    (hfailing : store.failing = none) (hplain : c.HasPlainKeys p.catalog store)
    {primary : CompiledStatement} (hprimary : c.primary? = some primary) {roots : List Record}
    (hroots : ∀ r ∈ roots, ∃ row ∈ store.evaluate primary.statement,
      primary.assembleRow row = .ok r) (n : Nat) :
    ∃ records, records.length = roots.length ∧
      (∀ s : Session, s.store = store → s.rehearsal = {} →
        (c.dispatch Session.executor n roots s).1 = (records, none)) ∧
      ∀ (i : Nat) (r record : Record), roots[i]? = some r → records[i]? = some record →
        ∀ s : Session, s.store = store → s.rehearsal = {} →
          (c.dispatch Session.executor 1 [r] s).1 = ([record], none) := by
  have hc := Catalog.isSound_of_build hbuild
  obtain ⟨root, h⟩ := isPrepared_of_prepare hprepare
  have hrows : ∀ r ∈ roots, r.Everywhere (c.IsRowAt p.catalog store root) [] := by
    intro r hr
    obtain ⟨row, hrow, hassemble⟩ := hroots r hr
    exact h.everywhere_of_primary hc hprimary hrow hassemble
  -- Together as alone, a root gets what is found for it.
  refine ⟨roots.map (c.followAll store), List.length_map _, fun s hs hrehearsal => ?_,
    fun i r record hr hrecord s hs hrehearsal => ?_⟩
  · exact h.dispatch_eq_followAll hc hdot hplain (Session.answers hfailing) ⟨hs, hrehearsal⟩ hrows n
  · rw [List.getElem?_map, hr] at hrecord
    obtain rfl := Option.some.inj hrecord
    have hone : ∀ r' ∈ [r], r'.Everywhere (c.IsRowAt p.catalog store root) [] :=
      List.forall_mem_singleton.2 (hrows r (List.mem_of_getElem? hr))
    exact h.dispatch_eq_followAll hc hdot hplain (Session.answers hfailing) ⟨hs, hrehearsal⟩ hone 1

/-- Of two users, one gets two posts and one gets one, together as alone. -/
theorem dispatch_eq_alone_writers :
    ∃ (c : CompiledPlan) (u₁ u₂ r₁ r₂ : Record), writerPlanner.prepare writerRequest = .ok c ∧
      (c.dispatch Session.executor 2 [u₁, u₂] { store := writerStore }).1 = ([r₁, r₂], none) ∧
      (c.dispatch Session.executor 1 [u₁] { store := writerStore }).1 = ([r₁], none) ∧
      (c.dispatch Session.executor 1 [u₂] { store := writerStore }).1 = ([r₂], none) ∧
      [r₁, r₂].map (fun r => (r.related "posts").length) = [2, 1] := by
  have hbuild : Catalog.build writerDecls = .ok writerPlanner.catalog := rfl
  obtain ⟨c, primary, u₁, u₂, hprepare, houtline, hrelations, hprimary, hrows, hlengths⟩ :
      ∃ c primary u₁ u₂, writerPlanner.prepare writerRequest = .ok c ∧
        writerPlanner.outline writerRequest c.plan.loaded = .ok writerOutline ∧
        c.plan.relations.map (·.node.relation) = [writerPosts, postAuthor] ∧
        c.primary? = some primary ∧
        (writerStore.evaluate primary.statement).map primary.assembleRow = [.ok u₁, .ok u₂] ∧
        (c.dispatch Session.executor 2 [u₁, u₂] { store := writerStore }).1.1.map
          (fun r => (r.related "posts").length) = [2, 1] :=
    ⟨_, _, _, _, rfl, rfl, rfl, rfl, rfl, rfl⟩
  have hdot : ∀ r ∈ c.plan.relations, IsDotFree r.node.relation.name := by
    have hnames : ∀ r ∈ [writerPosts, postAuthor], '.' ∉ r.name.toList := by decide
    exact fun r hr => hnames _ (hrelations ▸ List.mem_map_of_mem hr)
  have hroots : ∀ r ∈ [u₁, u₂], ∃ row ∈ writerStore.evaluate primary.statement,
      primary.assembleRow row = .ok r := by
    intro r hr
    refine List.mem_map.1 (hrows ▸ ?_)
    exact List.mem_map_of_mem (f := Except.ok) hr
  obtain ⟨root, h⟩ := isPrepared_of_prepare hprepare
  have hplain := h.hasPlainKeys (Catalog.isSound_of_build hbuild) houtline
    (writerOutline_isRegular c)
  obtain ⟨records, hlength, htogether, halone⟩ :=
    dispatch_eq_alone hbuild hprepare hdot rfl hplain hprimary hroots 2
  obtain ⟨r₁, r₂, rfl⟩ := List.length_eq_two.1 hlength
  have hdispatch := htogether { store := writerStore } rfl rfl
  refine ⟨c, u₁, u₂, r₁, r₂, hprepare, hdispatch,
    halone 0 u₁ r₁ rfl rfl { store := writerStore } rfl rfl,
    halone 1 u₂ r₂ rfl rfl { store := writerStore } rfl rfl, ?_⟩
  rw [hdispatch] at hlengths
  exact hlengths

end Planner

end EntityFetch
