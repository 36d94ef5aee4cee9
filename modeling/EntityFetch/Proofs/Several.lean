import EntityFetch.Proofs.First
import EntityFetch.Proofs.FirstMatch

/-!
# Relations to one with several matches

A relation to one may lead to several rows of its target. An owner gets one of them, and
which one depends on how the relation is loaded (`Branch.first?`): of the rows that complete
it is the first one of the table if the relation is joined, and the one with the least
primary key if it has a statement of its own.

* `Reading.IsSound.fields_related_assembled`: a record has, below itself, what is at the slot
  of its relation;
* `CompiledPlan.IsPrepared.fields_related_followAll`: loading all groups leaves a joined
  relation of the root as it is, and gives one with a statement of its own what is found for
  it;
* `Planner.related_eq_iff`: two fetches that load a relation in different ways attach the same
  record exactly if both orders start with the same row.
-/

namespace EntityFetch

/-- Rows with distinct primary keys are told apart by the fields of their records. -/
theorem Entity.eq_of_fields {store : Store} {e : Entity} {t u : TableRow}
    (hprimary : e.primaryKey ∈ e.columns) (hkeyed : store.HasKeys e)
    (ht : t ∈ store.rows e.table) (hu : u ∈ store.rows e.table)
    (heq : e.fields t = e.fields u) : t = u := by
  refine (hkeyed.key? ht).2 u hu ?_
  rw [← Entity.fieldKey?_fields hprimary, heq, Entity.fieldKey?_fields hprimary]

open Classical in
/-- The row of which an owner with a value in its column gets the record, of a relation to
    one. -/
noncomputable def Branch.first? (store : Store) (b : Branch) (strategy : Strategy)
    (completes : TableRow → Prop) (v : Value) : Option TableRow :=
  match strategy with
  | .joined => (b.found store v).find? fun t => completes t
  | .selectIn => (b.target.sorted (b.found store v)).find? fun t => completes t

/-- If every row completes it is the first one that comes. -/
theorem Branch.first?_of_forall {store : Store} {b : Branch} {completes : TableRow → Prop}
    (h : ∀ t, completes t) (strategy : Strategy) (v : Value) :
    b.first? store strategy completes v =
      match strategy with
      | .joined => (b.found store v).head?
      | .selectIn => (b.target.sorted (b.found store v)).head? := by
  classical
  have hall : ∀ ts : List TableRow, (ts.find? fun t => completes t) = ts.head? := by
    intro ts
    cases ts with
    | nil => rfl
    | cons t ts => exact List.find?_cons_of_pos (decide_eq_true (h t))
  cases strategy <;> exact hall _

theorem Branch.mem_rows_of_mem_first? {store : Store} {b : Branch} {strategy : Strategy}
    {completes : TableRow → Prop} {v : Value} {t : TableRow}
    (h : t ∈ b.first? store strategy completes v) : t ∈ store.rows b.target.table := by
  cases strategy with
  | joined => exact (List.mem_filter.1 (List.mem_of_find?_eq_some h)).1
  | selectIn => exact (List.mem_filter.1 (Entity.mem_sorted.1 (List.mem_of_find?_eq_some h))).1

/-- What is told apart as far as it is there is told apart as a list. -/
theorem toList_map_eq_iff {α β : Type} {f : α → β} {o o' : Option α}
    (hf : ∀ a ∈ o, ∀ a' ∈ o', f a = f a' → a = a') :
    (o.map f).toList = (o'.map f).toList ↔ o = o' := by
  refine ⟨fun heq => ?_, fun heq => heq ▸ rfl⟩
  rcases o with _ | a <;> rcases o' with _ | a'
  · rfl
  · cases heq
  · cases heq
  · exact congrArg some (hf a rfl a' rfl (List.head_eq_of_cons_eq heq))

namespace Reading

variable {k : Compiler} {plan : LoadPlan} {scope : QueryScope} {root : Entity} {R : Reading}
  {store : Store} {t : TableRow} {n : Nat} {j : Joint} {x : Combination}

/-- Below the record of a combination is, by a relation that starts there, the record of the
    row at the slot of the relation. -/
theorem IsSound.fields_related_assembled (h : R.IsSound k plan scope)
    (hsel : plan.IsSelected k.catalog root) (hc : k.catalog.IsSound)
    (hgroup : R.group ∈ plan.groups) (hx : x ∈ expand store R.joints [some t])
    (hj : R.joints[n]? = some j) (hparent : j.parent = 0) (hkeyed : store.HasKeys j.target) :
    ((R.assembled scope x).related j.edge.name).map Record.fields =
      ((x.at? (n + 1)).map j.target.fields).toList := by
  have hR := h.isJoinable hsel hc
  have hlinked := h.isLinked hsel hgroup
  have hmem := List.mem_of_getElem? hj
  obtain ⟨-, hlen, hfits⟩ := hR.fits hx
  obtain ⟨out, r, hout, hzero, hr⟩ := exists_isAssembled hR hlinked hlen scope
  obtain rfl := Except.ok.inj (hr.symm.trans (hR.assembleRow_eq hlinked hx scope))
  have hrelated : (R.assembled scope x).related j.edge.name = (out (n + 1)).toList := by
    rw [hout.eq_withChildren (t := R.rootSlot) rfl hzero]
    exact related_withChildren (hlinked.names_nodup 0)
      (mem_childSlots_iff.2 ⟨n, j, hj, rfl, hparent⟩)
  have hhere := hout.out_succ hj
  rw [hrelated, hhere, hparent, hzero]
  -- A row that is found has a key and makes a record, a left join that finds nothing makes none.
  rcases hfits n j hj with ⟨u, hu, hplace⟩ | ⟨-, -, hplace⟩
  · have hat : x.at? (n + 1) = some u := by rw [Combination.at?, hplace]; rfl
    have hprimary := hc.primaryKey_mem _ (Catalog.entity_eq_ok (h.settled j hmem).target).1
    rw [hat, isBlank_slot hprimary (hkeyed.isNull_eq_false (Joint.mem_found.1 hu).1)]
    rfl
  · have hat : x.at? (n + 1) = none := by rw [Combination.at?, hplace]; rfl
    rw [hat, CompiledStatement.isBlank_record_none]
    rfl

end Reading

namespace CompiledPlan.IsPrepared

variable {p : Planner} {req : FetchRequest} {root : Entity} {c : CompiledPlan} {store : Store}
  {R : Reading} {r : PlannedRelation} {b : Branch} {t : TableRow} {x : Record}

/-- The branch of a relation of the root starts there. -/
theorem owner_eq (h : c.IsPrepared p req root) (hc : p.catalog.IsSound)
    (hr : r ∈ c.plan.relations) (htop : r.node.ancestors = [])
    (hb : p.branch (p.layered req.scope) r = .ok b) : b.owner = root ∧ r.node.parent = none := by
  obtain ⟨e, howner, -, -, hway⟩ := h.selected.exists_owner hc hr
  obtain rfl := Except.ok.inj (howner.symm.trans (Planner.branch_eq_ok.1 hb).2.1)
  rcases hway with ⟨hparent, -, heq⟩ | ⟨m, -, -, hancestors, -⟩
  · exact ⟨heq, hparent⟩
  · exact absurd (hancestors.symm.trans htop) m.node.chain_ne_nil

/-- A joined relation of the root has a joint that starts there. -/
theorem exists_joint (h : c.IsPrepared p req root) (hc : p.catalog.IsSound)
    (hgroup : c.plan.groups[0]? = some R.group)
    (hsound : R.IsSound p.compiler c.plan (p.layered req.scope)) (hr : r ∈ c.plan.relations)
    (hjoined : r.strategy = .joined) (htop : r.node.ancestors = [])
    (hb : p.branch (p.layered req.scope) r = .ok b) :
    ∃ (n : Nat) (j : Joint), R.joints[n]? = some j ∧ j.relation = r ∧ j.parent = 0 ∧
      R.branchOf j = b := by
  have hfirst : r.group = 0 := by
    rw [(h.selected.isGrouped.joined_of_owner r hr hjoined).1, ownerGroup,
      (h.owner_eq hc hr htop hb).2]
    rfl
  obtain ⟨j, hmem, rfl⟩ := hsound.exists_joint h.selected hgroup hr hjoined hfirst
  obtain ⟨n, hj⟩ := List.mem_iff_getElem?.1 hmem
  refine ⟨n, j, hj, rfl, ?_, ?_⟩
  · have hway := hsound.ancestors_eq h.selected hmem
    exact (Reading.eq_zero_of_chainAt (hsound.settled j hmem).owner (hway.symm.trans htop)).1
  · exact Except.ok.inj ((hsound.branch_joint h.selected hc hmem).symm.trans hb)

/-- A root has, by a relation that is joined to it, the record of the first row of the table
    that completes. -/
theorem fields_related_joined (h : c.IsPrepared p req root) (hc : p.catalog.IsSound)
    (hkeyed : store.HasKeys b.target) (hgroup : c.plan.groups[0]? = some R.group)
    (hcs : c.statement? 0 = some (R.compiled (p.layered req.scope)))
    (hsound : R.IsSound p.compiler c.plan (p.layered req.scope)) (hr : r ∈ c.plan.relations)
    (hjoined : r.strategy = .joined) (htop : r.node.ancestors = [])
    (hb : p.branch (p.layered req.scope) r = .ok b)
    (hx : R.recordOf? (p.layered req.scope) store t = some x) :
    (x.related b.edge.name).map Record.fields =
      ((b.first? store .joined (c.Completes p.catalog store r)
        (t.value b.edge.ownerColumn)).map b.target.fields).toList := by
  classical
  obtain ⟨n, j, hj, rfl, hparent, rfl⟩ := h.exists_joint hc hgroup hsound hr hjoined htop hb
  obtain ⟨y, hy, rfl⟩ := Option.map_eq_some_iff.1 hx
  have hmem := List.mem_of_mem_head? (Option.mem_def.2 hy)
  have hgroups := List.mem_of_getElem? hgroup
  have hfirst : j.relation.group = 0 :=
    (hsound.joined_of_mem h.selected hgroup (List.mem_of_getElem? hj)).2
  -- What completes is said of the relation, and the joint is at its slot.
  have hplace : R.relationAt (n + 1) = some j.relation := by
    rw [Reading.relationAt, hj]
    rfl
  have hfound : j.found store y = (R.branchOf j).found store (t.value j.edge.ownerColumn) := by
    rw [Reading.found_eq, hparent, ((hsound.isJoinable h.selected hc).fits hmem).1]
    rfl
  have hat := hsound.at?_of_head? h.selected hc hgroups hy hj _ fun u =>
    (decide_eq_true_iff (p := c.Completes p.catalog store j.relation u)).trans
      (h.completes_iff hsound hgroups (hfirst ▸ hcs) hplace)
  refine (hsound.fields_related_assembled h.selected hc hgroups hmem hj hparent hkeyed).trans ?_
  rw [hat, hfound]
  rfl

/-- An owner gets, of a relation with a statement of its own, the record of the row with the
    least primary key that completes. -/
theorem IsFollowUp.fields_given {k : Nat} (hk : IsFollowUp p req c k R r b)
    (h : c.IsPrepared p req root) (hc : p.catalog.IsSound) (hone : b.edge.cardinality = .one)
    (v : Value) :
    ((b.given store (R.recordOf? (p.layered req.scope) store) v).toList).map Record.fields =
      ((b.first? store .selectIn (c.Completes p.catalog store r) v).map
        b.target.fields).toList := by
  classical
  have hgroup := List.mem_of_getElem? hk.group
  have hplace : R.relationAt 0 = some r := hk.root
  have hR := hk.sound.isJoinable h.selected hc
  -- A row has a record if it completes, and the record has the fields of the row.
  have hrecord : ∀ u, (R.recordOf? (p.layered req.scope) store u).map Record.fields =
      (Option.guard (fun u => decide (c.Completes p.catalog store r u)) u).map
        b.target.fields := by
    intro u
    have hcompletes : c.Completes p.catalog store r u ↔
        (R.recordOf? (p.layered req.scope) store u).isSome := by
      rw [h.completes_iff hk.sound hgroup (hk.group_eq ▸ hk.statement) hplace,
        hk.sound.completesAt_zero_iff h.selected, hR.isSome_recordOf?_iff]
    rcases hr : R.recordOf? (p.layered req.scope) store u with _ | x
    · rw [hr] at hcompletes
      rw [Option.guard, if_neg (by simpa using hcompletes)]
      rfl
    · rw [hr] at hcompletes
      rw [Option.guard, if_pos (by simpa using hcompletes), Option.map_some, Option.map_some,
        hR.fields_of_recordOf? (hk.sound.isLinked h.selected hgroup) hr, hk.target_eq]
  rw [Branch.given, hone]
  change (List.head? _).toList.map Record.fields = _
  rw [← Option.toList_map, List.head?_filterMap, List.map_findSome?, Branch.first?,
    ← List.findSome?_guard, List.map_findSome?]
  exact congrArg (fun f => (List.findSome? f _).toList) (funext hrecord)

/-- A root of a fetch is the record of a row of its entity. -/
theorem exists_recordOf?_of_root (h : c.IsPrepared p req root) (hc : p.catalog.IsSound)
    (hq : req.IsWhole) (hkeyed : store.HasKeys root)
    (hordered : ∀ o ∈ req.scope.orderBy, ∃ kind, ∀ t ∈ store.rows root.table,
      (t.value o.column).isNullOr kind)
    (hgroup : c.plan.groups[0]? = some R.group)
    (hsound : R.IsSound p.compiler c.plan (p.layered req.scope)) {records : List Record}
    (hrecords : (store.evaluate (R.statement (p.layered req.scope))).mapM
      (R.compiled (p.layered req.scope)).assembleRow = .ok records)
    (hx : x ∈ firstBy (·.key? R.entity.primaryKey) [] records) :
    ∃ t ∈ store.rows root.table, R.recordOf? (p.layered req.scope) store t = some x := by
  obtain ⟨hroot, hentity⟩ := h.root_of_reading hgroup hsound
  subst hentity
  have hR := hsound.isJoinable h.selected hc
  have hlinked := hsound.isLinked h.selected (List.mem_of_getElem? hgroup)
  obtain ⟨horder, hlimit, hoffset⟩ := R.statement_of_root_eq_none hroot (p.layered req.scope)
  change _ = req.scope.orderBy at horder
  have hmem : ∀ t ∈ store.rootRows (R.statement (p.layered req.scope)),
      t ∈ store.rows R.entity.table := fun t ht => (List.mem_filter.1 ht).1
  have hpreorder := TableRow.isPreorderOn_compareBy hordered
  rw [hR.evaluate_eq_flatMap (.statement R (p.layered req.scope))
      (fun o ho => hsound.orderBy hroot o (horder ▸ ho))
      (hlimit.trans hq.take) (hoffset.trans hq.skip) (horder ▸ hpreorder.mono hmem), horder,
    hR.mapM_assembleRow_flatMap hlinked] at hrecords
  obtain rfl := Except.ok.inj hrecords
  -- The rows of the root are sorted, and some are left out.
  have hrows : ∀ {t}, t ∈ Store.sortBy (TableRow.isBelow req.scope.orderBy)
      (store.rootRows (R.statement (p.layered req.scope))) → t ∈ store.rows R.entity.table :=
    fun ht => hmem _ ((Store.sortBy_perm _).mem_iff.1 ht)
  rw [hR.firstBy_assembled hlinked (hc.primaryKey_mem _ (Catalog.entity_eq_ok h.selected.entity).1)
    hkeyed (fun _ => hrows) ((Store.sortBy_perm _).nodup_iff.2
      (hkeyed.rows_nodup.filter _))] at hx
  obtain ⟨t, ht, hr⟩ := List.mem_filterMap.1 hx
  exact ⟨t, hrows ht, hr⟩

/-! ### All groups -/

/-- If a relation of the root is joined, loading all groups leaves it as it is. -/
theorem fields_related_followAll_joined (h : c.IsPrepared p req root)
    (hdot : ∀ r ∈ c.plan.relations, IsDotFree r.node.relation.name) (hr : r ∈ c.plan.relations)
    (htop : r.node.ancestors = []) (hjoined : r.strategy = .joined) (x : Record) :
    ((c.followAll store x).related r.node.relation.name).map Record.fields =
      (x.related r.node.relation.name).map Record.fields := by
  refine h.fields_related_foldl_follow hdot hr htop (fun g _ hroot => ?_) x
  obtain ⟨id, hid, hplace⟩ := Option.bind_eq_some_iff.1 hroot
  obtain ⟨group, hg, hgroup⟩ := Option.bind_eq_some_iff.1 hid
  exact nomatch hjoined.symm.trans (h.selected.selectIn_of_root hg hgroup hplace).1

/-- If a relation of the root has a statement of its own, loading all groups gives it what is
    found for the root. -/
theorem IsFollowUp.fields_related_followAll {k : Nat} (hk : IsFollowUp p req c k R r b)
    (h : c.IsPrepared p req root) (hc : p.catalog.IsSound)
    (hdot : ∀ r ∈ c.plan.relations, IsDotFree r.node.relation.name)
    (hplain : c.HasPlainKeys p.catalog store) (htop : r.node.ancestors = [])
    (hx : (x.value b.edge.ownerColumn).IsPlain) :
    ((c.followAll store x).related b.edge.name).map Record.fields =
      ((b.given store (R.recordOf? (p.layered req.scope) store)
        (x.value b.edge.ownerColumn)).toList).map Record.fields := by
  obtain ⟨-, -, htarget, -⟩ := Planner.branch_eq_ok.1 hk.branch
  have hne := h.selected.group_ne_zero hk.mem hk.strategy
  have horder := h.selected.mem_order.2 (h.selected.isGrouped.group_lt r hk.mem)
  rw [hk.group_eq] at hne horder
  obtain ⟨before, after, hsplit⟩ := List.append_of_mem ((List.mem_cons.1 horder).resolve_left hne)
  have hnodup := (List.nodup_cons.1 h.selected.nodup_order).2
  rw [hsplit] at hnodup
  -- The groups that come later start elsewhere.
  have hafter : ∀ g ∈ after, c.groupRoot? g ≠ some r := by
    rintro g hg hroot
    rw [← h.group_of_groupRoot? hroot, hk.group_eq] at hg
    exact (List.nodup_cons.1 (List.nodup_append.1 hnodup).2.1).1 hg
  have hpath : c.ownerPath r = [] := by
    rw [h.ownerPath_eq hdot hk.mem, htop]
    rfl
  have hvalue : (before.foldl (c.follow store) x).value b.edge.ownerColumn =
      x.value b.edge.ownerColumn := by
    rw [Record.value, Record.get?, fields_foldl_follow]
    rfl
  have hlookUp := hk.lookUp_eq h hc (hplain.keyed r hk.mem hk.strategy _ htarget)
    (hk.edge_eq ▸ hplain.target r hk.mem hk.strategy _ htarget) (hvalue ▸ hx)
  rw [followAll, hsplit, List.foldl_append, List.foldl_cons, hk.edge_eq,
    h.fields_related_foldl_follow hdot hk.mem htop hafter, follow, hk.groupRoot]
  simp only [hpath]
  rw [Record.updateAt, hlookUp, hk.edge_eq, Record.related_setRelation, if_pos (beq_self_eq_true _),
    ← hk.edge_eq, hvalue]

end CompiledPlan.IsPrepared

/-! ### Fetches -/

/-- A fetch of a whole answer from plain tables that loads a relation of its root to one. -/
structure Planner.LoadsOne (p : Planner) (req : FetchRequest) (store : Store) (c : CompiledPlan)
    (r : PlannedRelation) (b : Branch) : Prop where
  build : ∃ decls, Catalog.build decls = .ok p.catalog
  dotFree : ∀ e ∈ p.catalog.entities, ∀ r ∈ e.relations, IsDotFree r.name
  prepare : p.prepare req = .ok c
  whole : req.IsWhole
  tables : p.catalog.HasPlainTables store
  mem : r ∈ c.plan.relations
  atRoot : r.node.ancestors = []
  one : r.node.relation.cardinality = .one
  branch : p.branch (p.layered req.scope) r = .ok b
  /-- A column by which roots are sorted has values of one kind. -/
  ordered : ∀ o ∈ req.scope.orderBy, ∃ kind, ∀ t ∈ store.rows b.owner.table,
    (t.value o.column).isNullOr kind

/-- An entity apart from its relations. -/
def Entity.bare (e : Entity) : Entity :=
  { e with relations := [] }

/-- A relation apart from when and how it is loaded. -/
def Relation.bare (r : Relation) : Relation :=
  { r with eager := false, strategy := none }

/-- Whether two branches are of one relation, however it is loaded. -/
structure Branch.Resembles (b b' : Branch) : Prop where
  owner : b'.owner.bare = b.owner.bare
  target : b'.target.bare = b.target.bare
  edge : b'.edge.bare = b.edge.bare
  filters : b'.filters = b.filters

namespace Branch.Resembles

variable {b b' : Branch} {store : Store}

theorem fields_owner (h : b.Resembles b') : b'.owner.fields = b.owner.fields := by
  have hcolumns : b'.owner.columns = b.owner.columns := (congrArg Entity.columns h.owner :)
  funext t
  rw [Entity.fields, Entity.fields, hcolumns]

theorem fields_target (h : b.Resembles b') : b'.target.fields = b.target.fields := by
  have hcolumns : b'.target.columns = b.target.columns := (congrArg Entity.columns h.target :)
  funext t
  rw [Entity.fields, Entity.fields, hcolumns]

/-- The same row comes first. -/
theorem first?_eq (h : b.Resembles b') : b'.first? store = b.first? store := by
  have htable : b'.target.table = b.target.table := (congrArg Entity.table h.target :)
  have hkey : b'.target.primaryKey = b.target.primaryKey := (congrArg Entity.primaryKey h.target :)
  have hcolumn : b'.edge.targetColumn = b.edge.targetColumn :=
    (congrArg Relation.targetColumn h.edge :)
  have hfound : b'.found store = b.found store := by
    funext v
    rw [Branch.found, Branch.found, h.filters, htable, hcolumn]
  funext strategy completes v
  cases strategy <;> simp only [Branch.first?, hfound, Entity.sorted, hkey]

end Branch.Resembles

namespace Planner

variable {p p' : Planner} {q q' : FetchRequest} {c c' : CompiledPlan} {r r' : PlannedRelation}
  {b b' : Branch} {s : Session}

/-- Every root has, by a relation to one, the record of the row that comes first in the order
    of the way in which the relation is loaded. -/
theorem LoadsOne.exists_fetchMany (h : p.LoadsOne q s.store c r b)
    (hfailing : s.store.failing = none) (hrehearsal : s.rehearsal = {}) :
    ∃ rs, (p.fetchMany Session.executor q s).1 = .ok rs ∧
      ∀ x ∈ rs, ∃ t ∈ s.store.rows b.owner.table, x.fields = b.owner.fields t ∧
        (x.related b.edge.name).map Record.fields =
          ((b.first? s.store r.strategy (c.Completes p.catalog s.store r)
            (t.value b.edge.ownerColumn)).map b.target.fields).toList := by
  obtain ⟨decls, hbuild⟩ := h.build
  have hc := Catalog.isSound_of_build hbuild
  obtain ⟨root, hprepared⟩ := isPrepared_of_prepare h.prepare
  have hdot := hprepared.isDotFree_of_catalog h.dotFree
  have hplain := hprepared.hasPlainKeys_of_catalog hc h.tables
  obtain ⟨hnode, howner, htarget, -⟩ := Planner.branch_eq_ok.1 h.branch
  have hedge : b.edge = r.node.relation := congrArg Node.relation hnode
  obtain ⟨rfl, -⟩ := hprepared.owner_eq hc h.mem h.atRoot h.branch
  obtain ⟨R, hgroup, hcs, hsound⟩ :=
    hprepared.exists_reading hprepared.selected.isGrouped.length_pos
  obtain ⟨records, hrecords, hfetch⟩ := exists_fetchMany_followAll h.prepare hc hdot hplain
    (Session.answers hfailing) ⟨rfl, hrehearsal⟩ hcs
  have hkeyed := h.tables.keyed _ (Catalog.entity_eq_ok howner).1
  refine ⟨_, hfetch, fun x hx => ?_⟩
  obtain ⟨x₀, hx₀, rfl⟩ := List.mem_map.1 hx
  obtain ⟨t, ht, hrecord⟩ :=
    hprepared.exists_recordOf?_of_root hc h.whole hkeyed h.ordered hgroup hsound hrecords hx₀
  -- Following relations leaves the fields of a root as they were assembled.
  have hfields : x₀.fields = b.owner.fields t := by
    rw [← (hprepared.root_of_reading hgroup hsound).2]
    exact (hsound.isJoinable hprepared.selected hc).fields_of_recordOf?
      (hsound.isLinked hprepared.selected (List.mem_of_getElem? hgroup)) hrecord
  refine ⟨t, ht, (CompiledPlan.fields_foldl_follow _ _).trans hfields, ?_⟩
  obtain ⟨e, howner', hmem, he, -⟩ := hprepared.selected.exists_owner hc h.mem
  obtain rfl := Except.ok.inj (howner.symm.trans howner')
  rw [← hedge] at hmem
  cases hstrategy : r.strategy with
  | joined =>
    have hkeyed := h.tables.keyed _ (Catalog.entity_eq_ok htarget).1
    rw [hedge, hprepared.fields_related_followAll_joined hdot h.mem h.atRoot hstrategy, ← hedge]
    exact hprepared.fields_related_joined hc hkeyed hgroup hcs hsound h.mem hstrategy h.atRoot
      h.branch hrecord
  | selectIn =>
    -- The follow-up looks the key up in the record, which has it from the row.
    have hvalue : x₀.value b.edge.ownerColumn = t.value b.edge.ownerColumn := by
      rw [Record.value, Record.get?, hfields, Entity.fields, Assoc.lookup_ofList_map,
        if_pos (hc.ownerColumn_mem _ he _ hmem)]
      rfl
    obtain ⟨R', r', b', hk⟩ := hprepared.exists_isFollowUp hc
      (hprepared.selected.isGrouped.group_lt r h.mem)
      (hprepared.selected.group_ne_zero h.mem hstrategy)
    obtain rfl := hprepared.selected.eq_of_group hk.mem h.mem hk.strategy hstrategy hk.group_eq
    obtain rfl := Except.ok.inj (hk.branch.symm.trans h.branch)
    rw [hk.fields_related_followAll hprepared hc hdot hplain h.atRoot
        (hvalue ▸ h.tables.owner _ he _ hmem t ht), hvalue]
    exact hk.fields_given hprepared hc (hedge ▸ h.one) _

/-- Two fetches that load a relation of the root to one, the first by a join and the second by a
    statement of its own, attach to a root the record of the first row of the table and that of
    the row with the least primary key, each among the rows that complete. These are the same
    record exactly if both orders start with the same row. -/
theorem related_eq_iff (h : p.LoadsOne q s.store c r b) (h' : p'.LoadsOne q' s.store c' r' b')
    (hjoined : r.strategy = .joined) (hselect : r'.strategy = .selectIn)
    (hresembles : b.Resembles b') (hfailing : s.store.failing = none)
    (hrehearsal : s.rehearsal = {}) :
    ∃ rs rs', (p.fetchMany Session.executor q s).1 = .ok rs ∧
      (p'.fetchMany Session.executor q' s).1 = .ok rs' ∧
        ∀ x ∈ rs, ∀ x' ∈ rs', x.fields = x'.fields →
          ∃ t ∈ s.store.rows b.owner.table, x.fields = b.owner.fields t ∧
            (x.related b.edge.name).map Record.fields =
              ((b.first? s.store .joined (c.Completes p.catalog s.store r)
                (t.value b.edge.ownerColumn)).map b.target.fields).toList ∧
            (x'.related b.edge.name).map Record.fields =
              ((b.first? s.store .selectIn (c'.Completes p'.catalog s.store r')
                (t.value b.edge.ownerColumn)).map b.target.fields).toList ∧
            ((x.related b.edge.name).map Record.fields =
                (x'.related b.edge.name).map Record.fields ↔
              b.first? s.store .joined (c.Completes p.catalog s.store r)
                  (t.value b.edge.ownerColumn) =
                b.first? s.store .selectIn (c'.Completes p'.catalog s.store r')
                  (t.value b.edge.ownerColumn)) := by
  obtain ⟨rs, hrs, hfirst⟩ := h.exists_fetchMany hfailing hrehearsal
  obtain ⟨rs', hrs', hfirst'⟩ := h'.exists_fetchMany hfailing hrehearsal
  rw [hjoined] at hfirst
  rw [hselect] at hfirst'
  refine ⟨rs, rs', hrs, hrs', fun x hx x' hx' hsame => ?_⟩
  obtain ⟨t, ht, hfields, hrelated⟩ := hfirst x hx
  obtain ⟨t', ht', hfields', hrelated'⟩ := hfirst' x' hx'
  obtain ⟨-, howner, htarget, -⟩ := Planner.branch_eq_ok.1 h.branch
  obtain ⟨decls, hbuild⟩ := h.build
  have hc := Catalog.isSound_of_build hbuild
  have hname : b'.edge.name = b.edge.name := (congrArg Relation.name hresembles.edge :)
  have hcolumn : b'.edge.ownerColumn = b.edge.ownerColumn :=
    (congrArg Relation.ownerColumn hresembles.edge :)
  have htable : b'.owner.table = b.owner.table := (congrArg Entity.table hresembles.owner :)
  -- Records with the same fields stand for one row.
  obtain rfl : t = t' := by
    refine Entity.eq_of_fields (hc.primaryKey_mem _ (Catalog.entity_eq_ok howner).1)
      (h.tables.keyed _ (Catalog.entity_eq_ok howner).1) ht (htable ▸ ht') ?_
    rw [← hfields, hsame, hfields', hresembles.fields_owner]
  rw [hname, hresembles.first?_eq, hresembles.fields_target, hcolumn] at hrelated'
  refine ⟨t, ht, hfields, hrelated, hrelated', ?_⟩
  rw [hrelated, hrelated']
  -- Rows that come first are rows of the target, which their fields tell apart.
  refine toList_map_eq_iff fun u hu u' hu' heq => ?_
  exact Entity.eq_of_fields (hc.primaryKey_mem _ (Catalog.entity_eq_ok htarget).1)
    (h.tables.keyed _ (Catalog.entity_eq_ok htarget).1) (Branch.mem_rows_of_mem_first? hu)
    (Branch.mem_rows_of_mem_first? hu') heq

end Planner

/-! ### Two profiles, in either order -/

/-- The relation from a user to the profile, to be loaded in some way. -/
def userProfile (strategy : Strategy) : Relation :=
  { name := "profile", owner := "User", target := "Profile", cardinality := .one, nullable := true
    eager := false, strategy := some strategy, owning := false, ownerColumn := "id"
    targetColumn := "user_id" }

/-- Users with their profile. -/
def userDecls (strategy : Strategy) : List EntityDecl :=
  [{ name := "User", table := "users", columns := ["id"]
     relations := [{ RelationDecl.hasOne "profile" "Profile" "user_id" with
       strategy := some strategy }] },
   { name := "Profile", table := "profiles", columns := ["id", "user_id"] }]

/-- The entity of users. -/
def userEntity (strategy : Strategy) : Entity :=
  { name := "User", table := "users", primaryKey := "id", columns := ["id"]
    relations := [userProfile strategy] }

/-- The entity of profiles. -/
def profileEntity : Entity :=
  { name := "Profile", table := "profiles", primaryKey := "id", columns := ["id", "user_id"]
    relations := [] }

/-- A planner for users and profiles. -/
def userPlanner (strategy : Strategy) : Planner :=
  { catalog := { entities := [userEntity strategy, profileEntity] }, filters := {}, config := {} }

/-- All users with their profile. -/
def userRequest : FetchRequest :=
  { root := "User", populate := ["profile"] }

/-- The branch of the profile. -/
def userBranch (strategy : Strategy) : Branch :=
  { node := { id := 0, parent := none, ancestors := [], relation := userProfile strategy
              requested := true }
    owner := userEntity strategy, target := profileEntity, filters := [] }

/-- A user with two profiles, the later one of which comes first. -/
def turnedStore : Store :=
  { tables := [("users", [[("id", .int 1)]]),
      ("profiles",
        [[("id", .int 2), ("user_id", .int 1)], [("id", .int 1), ("user_id", .int 1)]])] }

/-- The tables of users and profiles are plain. -/
theorem userPlanner_hasPlainTables (strategy : Strategy) {store : Store}
    (hstore : store = profileStore ∨ store = turnedStore) :
    (userPlanner strategy).catalog.HasPlainTables store := by
  have hkind : ∀ store ∈ [profileStore, turnedStore],
      (∀ t ∈ store.rows "users", (t.value "id").hasKind .int) ∧
        ∀ t ∈ store.rows "profiles", (t.value "id").hasKind .int ∧
          (t.value "user_id").isNullOr .int := by decide
  have hnodup : ((store.rows "users").map (·.value "id")).Nodup ∧
      ((store.rows "profiles").map (·.value "id")).Nodup := by
    rcases hstore with rfl | rfl
    · exact ⟨show [Value.int 1, .int 2].Nodup by simp, show [Value.int 1, .int 2].Nodup by simp⟩
    · exact ⟨show [Value.int 1].Nodup by simp, show [Value.int 2, .int 1].Nodup by simp⟩
  have hmem : store ∈ [profileStore, turnedStore] := by simpa using hstore
  obtain ⟨husers, hprofiles⟩ := hkind store hmem
  obtain ⟨husers', hprofiles'⟩ := hnodup
  constructor
  case keyed =>
    intro e he
    rcases List.mem_cons.1 he with rfl | he
    · exact ⟨husers', Or.inl husers⟩
    · rw [List.mem_singleton.1 he]
      exact ⟨hprofiles', Or.inl fun t ht => (hprofiles t ht).1⟩
  case owner =>
    intro e he r hr t ht
    rcases List.mem_cons.1 he with rfl | he
    · rw [List.mem_singleton.1 hr]
      exact ⟨.int, Value.isNullOr_iff.2 (Or.inr (husers t ht))⟩
    · rw [List.mem_singleton.1 he] at hr
      exact absurd hr List.not_mem_nil
  case target =>
    intro e he r hr e' he' t ht
    rcases List.mem_cons.1 he with rfl | he
    · rw [List.mem_singleton.1 hr] at he' ⊢
      obtain rfl := Except.ok.inj he'
      exact ⟨.int, (hprofiles t ht).2⟩
    · rw [List.mem_singleton.1 he] at hr
      exact absurd hr List.not_mem_nil

namespace Planner

theorem userPlanner_loadsOne (strategy : Strategy) :
    ∃ c r, (userPlanner strategy).LoadsOne userRequest profileStore c r (userBranch strategy) ∧
      r.strategy = strategy ∧ c.plan.relations = [r] := by
  obtain ⟨c, r, hprepare, hrelations, hstrategy, hnode, hbranch⟩ : ∃ c r,
      (userPlanner strategy).prepare userRequest = .ok c ∧ c.plan.relations = [r] ∧
        r.strategy = strategy ∧ r.node = (userBranch strategy).node ∧
        (userPlanner strategy).branch ((userPlanner strategy).layered userRequest.scope) r =
          .ok (userBranch strategy) := by
    cases strategy <;> exact ⟨_, _, rfl, rfl, rfl, rfl, rfl⟩
  have hdot : ∀ e ∈ (userPlanner strategy).catalog.entities, ∀ r ∈ e.relations,
      '.' ∉ r.name.toList := by
    cases strategy <;> decide
  refine ⟨c, r, ⟨⟨userDecls strategy, rfl⟩, hdot, hprepare, ⟨rfl, rfl⟩,
    userPlanner_hasPlainTables strategy (Or.inl rfl), ?_, ?_, ?_, hbranch, ?_⟩, hstrategy,
    hrelations⟩
  · exact hrelations ▸ List.mem_singleton_self r
  · rw [hnode]
    rfl
  · rw [hnode]
    rfl
  · exact fun o ho => absurd ho List.not_mem_nil

/-- Two profiles in the order of their keys: the user gets the first one both ways. -/
theorem related_eq_iff_profiles : ∃ rs rs',
    ((userPlanner .joined).fetchMany Session.executor userRequest { store := profileStore }).1 =
        .ok rs ∧
      ((userPlanner .selectIn).fetchMany Session.executor userRequest { store := profileStore }).1 =
        .ok rs' ∧
      rs.map Record.fields = [[("id", .int 1)], [("id", .int 2)]] ∧
      ∀ x ∈ rs, ∀ x' ∈ rs', x.fields = x'.fields →
        (x.related "profile").map Record.fields = (x'.related "profile").map Record.fields := by
  obtain ⟨c, r, h, hjoined, hrelations⟩ := userPlanner_loadsOne .joined
  obtain ⟨c', r', h', hselect, hrelations'⟩ := userPlanner_loadsOne .selectIn
  have hcompletes : ∀ {c : CompiledPlan} {r : PlannedRelation} {catalog : Catalog},
      c.plan.relations = [r] → ∀ t, c.Completes catalog profileStore r t := by
    intro c r catalog hrelations t
    refine CompiledPlan.completes_of_forall fun m hm hpre => ?_
    rw [hrelations, List.mem_singleton] at hm
    rw [hm, Node.chain] at hpre
    have := hpre.length_le
    rw [List.length_append, List.length_singleton] at this
    omega
  obtain ⟨rs, hrs, hfields⟩ : ∃ rs, ((userPlanner .joined).fetchMany Session.executor userRequest
      { store := profileStore }).1 = .ok rs ∧
        rs.map Record.fields = [[("id", .int 1)], [("id", .int 2)]] := ⟨_, rfl, rfl⟩
  obtain ⟨rs₁, rs', hrs₁, hrs', hiff⟩ := related_eq_iff (s := { store := profileStore }) h h'
    hjoined hselect ⟨rfl, rfl, rfl, rfl⟩ rfl rfl
  obtain rfl := Except.ok.inj (hrs.symm.trans hrs₁)
  refine ⟨rs, rs', hrs, hrs', hfields, fun x hx x' hx' hsame => ?_⟩
  obtain ⟨t, ht, -, -, -, hiff⟩ := hiff x hx x' hx' hsame
  refine hiff.2 ?_
  rw [Branch.first?_of_forall (hcompletes hrelations),
    Branch.first?_of_forall (hcompletes hrelations')]
  have hkeyed := h.tables.keyed profileEntity (List.mem_cons_of_mem _ List.mem_cons_self)
  have hsorted : ∀ v, profileEntity.sorted ((userBranch .joined).found profileStore v) =
      Store.sortBy (TableRow.isBelow [{ column := "id" }])
        ((userBranch .joined).found profileStore v) :=
    fun v => (hkeyed.sortBy_eq fun t ht => (List.mem_filter.1 ht).1).symm
  refine Eq.trans ?_ (congrArg List.head? (hsorted _).symm)
  rcases List.mem_cons.1 ht with rfl | ht
  · rfl
  · rw [List.mem_singleton.1 ht]
    rfl

/-- If the later profile comes first in the table, the user gets it by a join, and the earlier
    one by a statement of its own. -/
theorem unlike_profiles :
    (∀ strategy, Catalog.build (userDecls strategy) = .ok (userPlanner strategy).catalog ∧
      Planner.make (userPlanner strategy).catalog {} {} = .ok (userPlanner strategy) ∧
        (userPlanner strategy).catalog.HasPlainTables turnedStore) ∧
      ∃ x x' : Record,
        ((userPlanner .joined).fetchMany Session.executor userRequest { store := turnedStore }).1 =
          .ok [x] ∧
        ((userPlanner .selectIn).fetchMany Session.executor userRequest
          { store := turnedStore }).1 = .ok [x'] ∧
        x.fields = [("id", .int 1)] ∧ x'.fields = [("id", .int 1)] ∧
        (x.related "profile").map Record.fields = [[("id", .int 2), ("user_id", .int 1)]] ∧
        (x'.related "profile").map Record.fields = [[("id", .int 1), ("user_id", .int 1)]] := by
  obtain ⟨x, hx, hfields, hrelated⟩ : ∃ x, ((userPlanner .joined).fetchMany Session.executor
      userRequest { store := turnedStore }).1 = .ok [x] ∧ x.fields = [("id", .int 1)] ∧
        (x.related "profile").map Record.fields = [[("id", .int 2), ("user_id", .int 1)]] :=
    ⟨_, rfl, rfl, rfl⟩
  obtain ⟨x', hx', hfields', hrelated'⟩ : ∃ x, ((userPlanner .selectIn).fetchMany
      Session.executor userRequest { store := turnedStore }).1 = .ok [x] ∧
        x.fields = [("id", .int 1)] ∧
        (x.related "profile").map Record.fields = [[("id", .int 1), ("user_id", .int 1)]] :=
    ⟨_, rfl, rfl, rfl⟩
  exact ⟨fun strategy => ⟨rfl, rfl, userPlanner_hasPlainTables strategy (Or.inr rfl)⟩, x, x', hx,
    hx', hfields, hfields', hrelated, hrelated'⟩

end Planner

end EntityFetch
