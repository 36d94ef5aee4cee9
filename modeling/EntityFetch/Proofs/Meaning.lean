import EntityFetch.Proofs.Attach

/-!
# Fetches mean their outline

A fetch of a whole answer from tables that are as the relations say gives the records of
its outline (`Planner.fetchMany_eq_records`): which relations are joined and which have
statements of their own, in which waves these are run and how many keys are looked up at
a time makes no difference to what the records are.
-/

namespace EntityFetch

namespace Outline

variable {o : Outline} {store : Store} {c : CompiledPlan}

theorem mem_rows {r : TableRow} (h : r ∈ o.rows store) : r ∈ store.rows o.root.table :=
  (List.mem_filter.1 ((List.mergeSort_perm _ _).mem_iff.1 h)).1

/-- No row of the root is given twice. -/
theorem IsRegular.rows_nodup (ho : o.IsRegular c store) : (o.rows store).Nodup :=
  (List.mergeSort_perm _ _).nodup_iff.2 (ho.root.rows_nodup.filter _)

end Outline

namespace CompiledPlan.IsPrepared

variable {p : Planner} {req : FetchRequest} {root : Entity} {c : CompiledPlan} {k : Nat}
  {store : Store} {o : Outline}

/-- The filters of the first reading are those of the root. -/
theorem active_of_reading (h : c.IsPrepared p req root) {R : Reading}
    (hgroup : c.plan.groups[0]? = some R.group)
    (hsound : R.IsSound p.compiler c.plan (p.layered req.scope)) :
    p.filters.active root.name ((p.layered req.scope).overridesFor "") = .ok R.active := by
  obtain ⟨hroot, hentity⟩ := h.root_of_reading hgroup hsound
  have hactive := (Compiler.activeAt_eq_ok hsound.active).1
  rw [hentity, Reading.path, hroot] at hactive
  exact hactive

/-- The outline of a request that is prepared. -/
theorem exists_outline (h : c.IsPrepared p req root) (hc : p.catalog.IsSound) :
    ∃ o, p.outline req c.plan.loaded = .ok o ∧ o.root = root ∧
      p.filters.active root.name ((p.layered req.scope).overridesFor "") = .ok o.filters ∧
        o.criteria = (p.layered req.scope).criteria ∧ o.orderBy = (p.layered req.scope).orderBy ∧
          o.branches = c.plan.order.flatMap (c.groupBranches p (p.layered req.scope)) := by
  obtain ⟨R, hgroup, -, hsound⟩ := h.exists_reading h.selected.isGrouped.length_pos
  have hfound : p.catalog.entity req.root = .ok root := h.root_eq ▸ h.selected.entity
  have hfilters := h.active_of_reading hgroup hsound
  refine ⟨{ root, filters := R.active, criteria := (p.layered req.scope).criteria
            orderBy := (p.layered req.scope).orderBy
            branches := c.plan.order.flatMap (c.groupBranches p (p.layered req.scope)) },
    ?_, rfl, hfilters, rfl, rfl, rfl⟩
  unfold Planner.outline
  exact bind_eq_ok.2 ⟨root, hfound, bind_eq_ok.2 ⟨_, hfilters,
    bind_eq_ok.2 ⟨_, h.mapM_loaded hc, rfl⟩⟩⟩

/-- The roots are those that are meant, with the branches of the first group. -/
theorem assemble_primary (h : c.IsPrepared p req root) (hc : p.catalog.IsSound)
    (hwhole : req.IsWhole) (houtline : p.outline req c.plan.loaded = .ok o)
    (ho : o.IsRegular c store) :
    ∃ primary, c.primary? = some primary ∧
      primary.assemble (store.evaluate primary.statement) = .ok ((o.rows store).map
        (recordOf store ([0].flatMap (c.groupBranches p (p.layered req.scope))) [] root)) := by
  obtain ⟨R, hgroup, hstatement, hsound⟩ := h.exists_reading h.selected.isGrouped.length_pos
  obtain ⟨hroot, hentity⟩ := h.root_of_reading hgroup hsound
  obtain ⟨o', houtline', horoot, hfilters, hcriteria, horderBy, hbranches⟩ := h.exists_outline hc
  obtain rfl := Except.ok.inj (houtline.symm.trans houtline')
  refine ⟨_, hstatement, ?_⟩
  have hzero : c.groupBranches p (p.layered req.scope) 0 = R.branches := by
    rw [groupBranches, h.groupBranches_zero hc hgroup hsound]
    rfl
  have hsub : R.branches.Sublist o.branches := by
    rw [hbranches, LoadPlan.order, List.flatMap_cons, hzero]
    exact List.sublist_append_left ..
  have hordered := ((hbranches ▸ h.isListed hc : IsListed o.branches).sublist hsub).ordered
  have hmem := List.mem_of_getElem? hgroup
  have hdet := ho.isDetermined h hmem hstatement hsound fun b hb => hsub.mem hb
  have hactive : o.filters = R.active :=
    Except.ok.inj (hfilters.symm.trans (h.active_of_reading hgroup hsound))
  obtain ⟨horder, hlimit, hoffset⟩ := R.statement_of_root_eq_none hroot (p.layered req.scope)
  replace horder : (R.statement (p.layered req.scope)).orderBy = o.orderBy :=
    horder.trans horderBy.symm
  -- Sorting row by row into place gives what is meant, as the rows are comparable.
  have hmeant : Store.sortBy (TableRow.isBelow o.orderBy)
      (store.rootRows (R.statement (p.layered req.scope))) = o.rows store := by
    rw [Reading.rootRows_statement hroot, Outline.rows, horoot, hactive, hcriteria, hentity]
    exact ((TableRow.isPreorderOn_compareBy (horoot ▸ ho.ordered)).mono
      fun r hr => (List.mem_filter.1 hr).1).sortBy_eq
  have hrows := hdet.mapM_assembleRow hsound h.selected hc hmem hordered
    (Statement.Reads.statement R (p.layered req.scope))
    (fun x hx => hsound.orderBy hroot x (horderBy ▸ horder ▸ hx))
    (hlimit.trans hwhole.take) (hoffset.trans hwhole.skip)
  rw [horder, hmeant, Reading.chainAt_zero hroot, hentity] at hrows
  rw [List.flatMap_singleton, hzero]
  refine CompiledStatement.assemble_eq_ok hrows ?_ ?_ (horoot ▸ ho.root)
    (fun r hr => horoot ▸ Outline.mem_rows hr) ho.rows_nodup
  · rw [← hentity]
    rfl
  · exact hc.primaryKey_mem _ (Catalog.entity_eq_ok h.selected.entity).1

/-- Every group of every wave adds its branches. -/
theorem attach_wave (h : c.IsPrepared p req root) (hc : p.catalog.IsSound)
    (hdot : ∀ e ∈ p.catalog.entities, ∀ r ∈ e.relations, IsDotFree r.name)
    (ho : o.IsRegular c store)
    (hbranches : o.branches = c.plan.order.flatMap (c.groupBranches p (p.layered req.scope)))
    {rows : List TableRow} (hrows : ∀ r ∈ rows, r ∈ store.rows root.table)
    {before after : List (List Nat)} {wave gs gs' : List Nat}
    (hwaves : c.plan.waves = before ++ wave :: after) (hwave : wave = gs ++ k :: gs') (n : Nat) :
    c.attach
        (rows.map (recordOf store ((0 :: before.flatten ++ gs).flatMap
          (c.groupBranches p (p.layered req.scope))) [] root)) k
        ((c.groupStatements n (rows.map (recordOf store ((0 :: before.flatten).flatMap
          (c.groupBranches p (p.layered req.scope))) [] root)) k).flatMap
            fun t => store.evaluate t.2) =
      .ok (rows.map (recordOf store ((0 :: before.flatten ++ gs ++ [k]).flatMap
        (c.groupBranches p (p.layered req.scope))) [] root)) := by
  have horder : c.plan.order = 0 :: before.flatten ++ gs ++ [k] ++ (gs' ++ after.flatten) := by
    rw [LoadPlan.order, hwaves, hwave]
    simp
  obtain ⟨R, q, b, hfollow, hsame⟩ := h.exists_isFollowUp_of_waves hc hwaves hwave
  refine hfollow.attach_eq h hc hdot ho hbranches hrows (fun g hg hless => ?_)
    ⟨_, horder.symm⟩ n
  -- Groups of earlier waves come first in the order of loading.
  have hmem := h.selected.mem_order.2 hg
  rw [horder, List.mem_append, List.mem_append, List.mem_append, List.mem_singleton] at hmem
  rcases hmem with ((hmem | hmem) | rfl) | hmem
  · exact hmem
  · have := hsame g hmem
    omega
  · omega
  · have hlate := h.selected.waveOf_le_of_order horder
      (List.mem_append_right _ (List.mem_singleton_self k)) hmem
    omega

end CompiledPlan.IsPrepared

/-- A fetch gives the records that are meant, however its relations are loaded: those of
    the rows of the root that satisfy all conditions, in order, each with the records to
    which its relations lead, and these with theirs. -/
theorem Planner.fetchMany_eq_records {p : Planner} {decls : List EntityDecl}
    (hbuild : Catalog.build decls = .ok p.catalog)
    (hdot : ∀ d ∈ decls, ∀ r ∈ d.relations, IsDotFree r.name) {req : FetchRequest}
    (hwhole : req.IsWhole) {c : CompiledPlan} (hprepare : p.prepare req = .ok c) :
    c.plan.loaded.Perm c.plan.relations ∧ ∃ o, p.outline req c.plan.loaded = .ok o ∧
      ∀ s : Session, s.store.failing = none → s.rehearsal = {} → o.IsRegular c s.store →
        (p.fetchMany Session.executor req s).1 = .ok (o.records s.store) := by
  have hc := Catalog.isSound_of_build hbuild
  obtain ⟨root, h⟩ := isPrepared_of_prepare hprepare
  have hnames : ∀ e ∈ p.catalog.entities, ∀ r ∈ e.relations, IsDotFree r.name := by
    intro e he r hr
    obtain ⟨d, hd, x, hx, hname⟩ := Catalog.exists_decl_of_build hbuild he hr
    exact hname ▸ hdot d hd x hx
  obtain ⟨o, houtline, horoot, -, -, -, hbranches⟩ := h.exists_outline hc
  refine ⟨h.selected.perm_loaded, o, houtline, fun s hfailing hrehearsal ho => ?_⟩
  obtain ⟨primary, hprimary, hroots⟩ := h.assemble_primary hc hwhole houtline ho
  have hrows : ∀ r ∈ o.rows s.store, r ∈ s.store.rows root.table :=
    fun r hr => horoot ▸ Outline.mem_rows hr
  -- After some groups the records are those of the outline with the branches of these groups.
  have hrun := runCompiled_eq_ok (p := p)
    (f := fun done => (o.rows s.store).map (recordOf s.store
      (done.flatMap (c.groupBranches p (p.layered req.scope))) [] root))
    (Session.answers hfailing) ⟨rfl, hrehearsal⟩ hprimary hroots h.selected.nodup_of_mem_waves
    fun before wave after hwaves gs k gs' hwave =>
      h.attach_wave hc hnames ho hbranches hrows hwaves hwave _
  rw [fetchMany, hprepare]
  refine hrun.trans (congrArg Except.ok ?_)
  rw [Outline.records, horoot, hbranches]
  rfl

/-! ### Users and their posts -/

/-- Users with their posts, the author of which is loaded with them. -/
def writerDecls : List EntityDecl :=
  [{ name := "User", table := "users", columns := ["id", "active"]
     relations := [RelationDecl.hasMany "posts" "Post" "author_id"] },
   { name := "Post", table := "posts", columns := ["id", "author_id"]
     relations := [{ RelationDecl.manyToOne "author" "User" "author_id" with eager := true }] }]

/-- The relation from a user to the posts. -/
def writerPosts : Relation :=
  { name := "posts", owner := "User", target := "Post", cardinality := .many, nullable := true
    eager := false, strategy := none, owning := false, ownerColumn := "id"
    targetColumn := "author_id" }

/-- The entity of users. -/
def writerUser : Entity :=
  { name := "User", table := "users", primaryKey := "id", columns := ["id", "active"]
    relations := [writerPosts] }

/-- The entity of posts. -/
def writerPost : Entity :=
  { name := "Post", table := "posts", primaryKey := "id", columns := ["id", "author_id"]
    relations := [postAuthor] }

/-- A planner for users and posts. -/
def writerPlanner : Planner :=
  { catalog := { entities := [writerUser, writerPost] }, filters := activeUsers, config := {} }

/-- The users who are active, with their posts. -/
def writerRequest : FetchRequest :=
  { root := "User", populate := ["posts"] }

/-- Users with posts, one of whom is not active. -/
def writerStore : Store :=
  { tables :=
      [("users", [[("id", .int 1), ("active", .bool true)], [("id", .int 2), ("active", .bool true)],
         [("id", .int 3), ("active", .bool false)]]),
       ("posts", [[("id", .int 1), ("author_id", .int 1)], [("id", .int 2), ("author_id", .int 2)],
         [("id", .int 3), ("author_id", .int 1)], [("id", .int 4), ("author_id", .int 3)]])] }

/-- The active users with their posts, and these with their author if active. -/
def writerOutline : Outline :=
  { root := writerUser
    filters := [{ name := "active", filter := .compare .eq "active" (.bool true) }]
    criteria := .always
    orderBy := []
    branches :=
      [{ node := { id := 0, parent := none, ancestors := [], relation := writerPosts
                   requested := true }
         owner := writerUser, target := writerPost, filters := [] },
       { node := { id := 1, parent := some 0, ancestors := [writerPosts], relation := postAuthor
                   requested := false }
         owner := writerPost, target := writerUser
         filters := [{ name := "active", filter := .compare .eq "active" (.bool true) }] }] }

/-- The tables of users and posts are as their relations say. -/
theorem writerOutline_isRegular (c : CompiledPlan) : writerOutline.IsRegular c writerStore := by
  have hints : ∀ e ∈ [writerUser, writerPost], ∀ r ∈ writerStore.rows e.table,
      (r.value e.primaryKey).hasKind .int := by decide
  have huser : writerStore.HasKeys writerUser :=
    ⟨show [Value.int 1, .int 2, .int 3].Nodup by simp, Or.inl (hints _ List.mem_cons_self)⟩
  have hpost : writerStore.HasKeys writerPost :=
    ⟨show [Value.int 1, .int 2, .int 3, .int 4].Nodup by simp,
      Or.inl (hints _ (List.mem_cons_of_mem _ List.mem_cons_self))⟩
  have howner : ∀ b ∈ writerOutline.branches, ∀ r ∈ writerStore.rows b.owner.table,
      (r.value b.edge.ownerColumn).isNullOr .int := by decide
  have htarget : ∀ b ∈ writerOutline.branches, ∀ t ∈ writerStore.rows b.target.table,
      (t.value b.edge.targetColumn).isNullOr .int := by decide
  have hleads : ∀ b ∈ writerOutline.branches, ∀ r ∈ writerStore.rows b.owner.table,
      ∃ t ∈ writerStore.rows b.target.table,
        (r.value b.edge.ownerColumn).equal? (t.value b.edge.targetColumn) = some true := by decide
  constructor
  case root => exact huser
  case ordered => exact fun x hx => absurd hx List.not_mem_nil
  case keyed =>
    intro b hb
    rcases List.mem_cons.1 hb with rfl | hb
    · exact hpost
    · rw [List.mem_singleton.1 hb]
      exact huser
  case owner => exact fun b hb r hr => ⟨.int, howner b hb r hr⟩
  case target => exact fun b hb t ht => ⟨.int, htarget b hb t ht⟩
  case single => decide
  case leads => exact fun b hb _ r hr => hleads b hb r hr

/-- Two of the users are given, one with two posts. -/
theorem Planner.fetchMany_eq_records_writers :
    (writerPlanner.fetchMany Session.executor writerRequest { store := writerStore }).1 =
        .ok (writerOutline.records writerStore) ∧
      (writerOutline.records writerStore).map (fun r => (r.related "posts").length) = [2, 1] := by
  have hbuild : Catalog.build writerDecls = .ok writerPlanner.catalog := rfl
  have hdot : ∀ d ∈ writerDecls, ∀ r ∈ d.relations, '.' ∉ r.name.toList := by decide
  have hwhole : writerRequest.IsWhole := ⟨rfl, rfl⟩
  obtain ⟨c, hprepare, houtline⟩ : ∃ c, writerPlanner.prepare writerRequest = .ok c ∧
      writerPlanner.outline writerRequest c.plan.loaded = .ok writerOutline := ⟨_, rfl, rfl⟩
  obtain ⟨-, o, ho, hmeant⟩ := fetchMany_eq_records hbuild hdot hwhole hprepare
  obtain rfl := Except.ok.inj (ho.symm.trans houtline)
  have hrecords := hmeant { store := writerStore } rfl rfl (writerOutline_isRegular c)
  obtain ⟨rs, hrs, hlengths⟩ : ∃ rs, (writerPlanner.fetchMany Session.executor writerRequest
      { store := writerStore }).1 = .ok rs ∧ rs.map (fun r => (r.related "posts").length) = [2, 1] :=
    ⟨_, rfl, rfl⟩
  refine ⟨hrecords, ?_⟩
  rw [← Except.ok.inj (hrs.symm.trans hrecords)]
  exact hlengths

end EntityFetch
