import EntityFetch.Proofs.Bounds
import EntityFetch.Proofs.Contract
import EntityFetch.Proofs.Dispatch
import EntityFetch.Proofs.SameRoots

/-!
# Pages

A fetch may be asked for a page, for so many of its roots from a place on. The page is cut
out of the rows that the first statement reads (`Planner.exists_prepare_page`), among
which a root is found once for every way of joining other rows to it, and repetitions are
left out only afterwards.

* `Planner.pages_iff`: wherever pages are cut, they are those of the list of all roots just
  if the first statement reads no root twice; it reads none twice if roots are told apart by
  their primary keys and every relation joined to them leads to one row at most.
* `Planner.short_page_profiles`: a root to which two rows are joined takes the place of
  another one.
-/

namespace EntityFetch

/-- The request for so many roots from a place on. -/
def FetchRequest.page (q : FetchRequest) (place n : Nat) : FetchRequest :=
  (q.skip place).take n

/-- Whether a relation leads to one row at most from every row of its owner. -/
def Catalog.LeadsToOne (c : Catalog) (store : Store) (e : Relation) : Prop :=
  ∀ owner target, c.entity e.owner = .ok owner → c.entity e.target = .ok target →
    ∀ o ∈ store.rows owner.table, ((store.rows target.table).filter fun t =>
      (o.value e.ownerColumn).equal? (t.value e.targetColumn) == some true).length ≤ 1

/-! ### Statements of a page -/

/-- A page is cut out of the rows in order. -/
theorem Store.evaluate_window {store : Store} {s : Statement} (hlimit : s.limit = none)
    (hoffset : s.offset = none) (place n : Nat) :
    store.evaluate { s with offset := some place, limit := some n } =
      ((store.evaluate s).drop place).take n := by
  unfold evaluate
  rw [hlimit, hoffset]
  rfl

/-- A page of a request that can be prepared can be, too, and cuts it out of the rows of the
    first statement. -/
theorem Planner.exists_prepare_page {p : Planner} {q : FetchRequest} {c : CompiledPlan}
    (h : p.prepare q = .ok c) (place n : Nat) : ∃ c', p.prepare (q.page place n) = .ok c' ∧
      c'.primary? = c.primary?.map (·.window (some place) (some n)) := by
  have hpage := p.prepare_within q (some place) (some n)
  rw [h] at hpage
  exact ⟨_, hpage, CompiledPlan.primary?_window⟩

/-! ### Fetches succeed -/

namespace CompiledPlan

variable {σ : Type} {x : Executor σ} {store : Store} {inv : σ → Prop} {state : σ} {p : Planner}
  {q : FetchRequest} {root : Entity} {c : CompiledPlan} {rs : List Record} {batchSize : Nat}

/-- The rows of the root give records, of which repetitions are left out. -/
theorem IsPrepared.exists_mapM_primary (h : c.IsPrepared p q root) {primary : CompiledStatement}
    (hprimary : c.primary? = some primary) (store : Store) :
    ∃ records, (store.evaluate primary.statement).mapM primary.assembleRow = .ok records ∧
      primary.assemble (store.evaluate primary.statement) =
        .ok (firstBy (·.key? primary.rootKey) [] records) := by
  obtain ⟨R, hprimary', hsound, hgroup, -⟩ := h.exists_primary
  obtain rfl := Option.some.inj (hprimary.symm.trans hprimary')
  obtain ⟨records, hrecords⟩ := exists_mapM_eq_ok fun row hrow =>
    hsound.exists_assembleRow h.selected hgroup
      (Store.isCarriedBy_of_mem_evaluate (R.isClosed_statement _) hrow)
  exact ⟨records, hrecords, bind_eq_ok.2 ⟨records, hrecords, congrArg _ (firstByKey_eq _ _ _)⟩⟩

/-- What follows the roots can be loaded, and leaves their fields as they are. -/
theorem IsPrepared.exists_dispatch (h : c.IsPrepared p q root) (hx : x.Answers store inv)
    (hinv : inv state) (rs : List Record) :
    ∃ rs', (c.dispatch x batchSize rs state).1 = (rs', none) ∧
      rs'.map Record.fields = rs.map Record.fields := by
  obtain ⟨rs', hrs'⟩ := exists_runWaves hx hinv (fun wave roots k rs =>
    h.exists_attach (fun row hrow => h.isCarriedBy_of_mem_evaluate (exists_of_mem_rowsOf hrow)) rs)
    c.plan.waves rs
  refine ⟨rs', hrs', ?_⟩
  exact dispatch_induct (P := fun rs' => rs'.map Record.fields = rs.map Record.fields)
    (fun _ _ _ _ _ hrs hattach => (fields_of_attach hattach).trans hrs) hx.toReadsFrom hinv rfl hrs'

end CompiledPlan

namespace Planner

variable {σ : Type} {x : Executor σ} {store : Store} {inv : σ → Prop} {state : σ} {p : Planner}
  {q : FetchRequest} {root : Entity} {c : CompiledPlan}

/-- If no statement fails a fetch gives its roots. -/
theorem exists_fetchMany (hprepared : c.IsPrepared p q root) (hprepare : p.prepare q = .ok c)
    (hx : x.Answers store inv) (hinv : inv state) :
    ∃ primary records rs, c.primary? = some primary ∧
      (store.evaluate primary.statement).mapM primary.assembleRow = .ok records ∧
      (p.fetchMany x q state).1 = .ok rs ∧
      rs.map Record.fields = (firstBy (·.key? primary.rootKey) [] records).map Record.fields := by
  obtain ⟨R, hprimary, -⟩ := hprepared.exists_primary
  obtain ⟨records, hrecords, hroots⟩ := hprepared.exists_mapM_primary hprimary store
  obtain ⟨rs, hrs, hfields⟩ := exists_runCompiled hx hinv hprimary hroots fun state' hinv' =>
    hprepared.exists_dispatch hx hinv' _
  refine ⟨_, records, rs, hprimary, hrecords, ?_, hfields⟩
  rw [fetchMany, hprepare]
  exact hrs

end Planner

/-! ### Roots that are read once -/

/-- A joint that finds one row at most makes one combination at most. -/
theorem Joint.length_extend_le {store : Store} {j : Joint} {x : Combination}
    (h : (j.found store x).length ≤ 1) : (j.extend store x).length ≤ 1 := by
  unfold extend
  split
  · exact Nat.zero_le 1
  · exact Nat.le_refl 1
  · rwa [List.length_map]

namespace Reading

variable {k : Compiler} {plan : LoadPlan} {scope : QueryScope} {root : Entity} {R : Reading}
  {store : Store} {s : Statement}

/-- If relations lead to one row at most, so does every joint for the row of its owner. -/
theorem IsSound.length_found_le (h : R.IsSound k plan scope) (hsel : plan.IsSelected k.catalog root)
    (hc : k.catalog.IsSound) {j : Joint} (hj : j ∈ R.joints)
    (hsingle : k.catalog.LeadsToOne store j.edge) {x : Combination} (hx : R.HasRows store x) :
    (j.found store x).length ≤ 1 := by
  rcases hat : x.at? j.parent with _ | o
  · rw [found_of_none hat]
    exact Nat.zero_le 1
  · obtain ⟨e, he, ho⟩ := hx _ o hat
    obtain ⟨e', he', -, howner⟩ := h.entityAt_parent hsel hc hj
    obtain rfl := Option.some.inj (he.symm.trans he')
    refine Nat.le_trans (List.Sublist.length_le ?_)
      (hsingle e j.target howner (h.settled j hj).target o ho)
    refine List.monotone_filter_right _ fun t ht => ?_
    rw [Store.matchesJoin, Bool.and_eq_true, hat] at ht
    exact ht.1

/-- A row of the root is then combined with others in one way at most. -/
theorem IsSound.length_expand_le (h : R.IsSound k plan scope)
    (hsel : plan.IsSelected k.catalog root) (hc : k.catalog.IsSound)
    (hsingle : ∀ j ∈ R.joints, k.catalog.LeadsToOne store j.edge) {r : TableRow}
    (hr : r ∈ store.rows R.entity.table) : (expand store R.joints [some r]).length ≤ 1 := by
  refine expand_induct store (P := fun rest x => R.HasRows store x →
    (expand store rest x).length ≤ 1) (fun _ _ => Nat.le_refl 1) ?_ (some r) (hasRows_singleton hr)
  intro n j rest x hj hlen ih hx
  have hmem := List.mem_of_getElem? hj
  have hone := Joint.length_extend_le (h.length_found_le hsel hc hmem (hsingle j hmem) hx)
  rw [expand]
  rcases hext : j.extend store x with _ | ⟨y, _ | ⟨y', ys⟩⟩
  · exact Nat.zero_le 1
  · have hy : y ∈ j.extend store x := hext ▸ List.mem_singleton_self y
    rw [List.flatMap_singleton]
    exact ih y hy (hx.of_mem_extend hlen hj hy)
  · rw [hext] at hone
    exact absurd hone (by simp)

/-- If moreover rows of the root are told apart by their primary keys, no root is left
    out as a repetition. -/
theorem IsSound.firstBy_repeatedRows_eq (h : R.IsSound k plan scope)
    (hsel : plan.IsSelected k.catalog root) (hc : k.catalog.IsSound)
    (hprimary : R.entity.primaryKey ∈ R.entity.columns)
    (hsingle : ∀ j ∈ R.joints, k.catalog.LeadsToOne store j.edge)
    (hs : s.Reads R)
    (hkeys : ((store.rows R.entity.table).filterMap
      fun r => (r.value R.entity.primaryKey).key?).Nodup) :
    firstBy (fieldKey? R.entity.primaryKey) [] ((R.repeatedRows store s).map R.entity.fields) =
      (R.repeatedRows store s).map R.entity.fields := by
  -- What is read is a part of the table, since no row is combined twice.
  have hsub : (store.rootRows s).Sublist (store.rows R.entity.table) := by
    rw [Store.rootRows, hs.root_eq]
    exact List.filter_sublist
  have hpart : ((store.rootRows s).flatMap fun r =>
      List.replicate (expand store R.joints [some r]).length r).Sublist
        (store.rows R.entity.table) :=
    (Repeats.flatMap_replicate_sublist fun r hr =>
      h.length_expand_le hsel hc hsingle (hsub.mem hr)).trans hsub
  have hkey : (fun fields => fieldKey? R.entity.primaryKey fields) ∘ R.entity.fields =
      fun r => (r.value R.entity.primaryKey).key? :=
    funext fun r => Entity.fieldKey?_fields hprimary r
  refine firstBy_eq_self_iff.2 ⟨?_, fun _ _ => List.not_mem_nil⟩
  rw [List.filterMap_map, hkey, repeatedRows, ((Store.sortBy_perm _).filterMap _).nodup_iff]
  exact hkeys.sublist (hpart.filterMap _)

end Reading

namespace Planner

variable {σ : Type} {x : Executor σ} {store : Store} {inv : σ → Prop} {state : σ} {p : Planner}
  {q : FetchRequest} {root : Entity} {c : CompiledPlan}

/-- Without bounds of its own the first statement of a request has none. -/
theorem bounds_of_isWhole (hprepared : c.IsPrepared p q root) (hq : q.IsWhole)
    {primary : CompiledStatement} (hprimary : c.primary? = some primary) :
    primary.statement.limit = none ∧ primary.statement.offset = none := by
  obtain ⟨R, hprimary', -, -, hroot, -⟩ := hprepared.exists_primary
  obtain rfl := Option.some.inj (hprimary.symm.trans hprimary')
  obtain ⟨-, hlimit, hoffset⟩ := R.statement_of_root_eq_none hroot (p.layered q.scope)
  exact ⟨hlimit.trans hq.take, hoffset.trans hq.skip⟩

/-- If every relation that is joined to the root leads to one row at most, the first
    statement reads as many rows as there are roots. -/
theorem length_evaluate_eq (hprepared : c.IsPrepared p q root)
    (hprepare : p.prepare q = .ok c) (hc : p.catalog.IsSound) (hq : q.IsWhole)
    {primary : CompiledStatement} (hprimary : c.primary? = some primary) {s : Session}
    (hanswers : s.rehearsal.answers = []) {rs : List Record}
    (h : (p.fetchMany Session.executor q s).1 = .ok rs)
    (hkeys : ((s.store.rows root.table).filterMap fun r => (r.value root.primaryKey).key?).Nodup)
    (hsingle : ∀ r ∈ c.plan.relations, (∃ j ∈ primary.statement.joins, j.path = r.path) →
      p.catalog.LeadsToOne s.store r.node.relation) :
    (s.store.evaluate primary.statement).length = rs.length := by
  obtain ⟨hlimit, hoffset⟩ := bounds_of_isWhole hprepared hq hprimary
  obtain ⟨R, hprimary', hsound, hgroup, hroot, rfl⟩ := hprepared.exists_primary
  obtain rfl := Option.some.inj (hprimary.symm.trans hprimary')
  have hreads := Statement.Reads.statement R (p.layered q.scope)
  have hR := hsound.isJoinable hprepared.selected hc
  have hby : (R.statement (p.layered q.scope)).orderBy = q.scope.orderBy :=
    (R.statement_of_root_eq_none hroot _).1
  have hfields := fields_of_fetchMany hc hprepared hprepare hq hprimary hsound hgroup hroot
    (Session.readsFrom s.store) ⟨rfl, hanswers⟩ h
  -- No root is repeated, so that there are as many as combinations.
  rw [hsound.firstBy_repeatedRows_eq hprepared.selected hc
    (hc.primaryKey_mem _ (Catalog.entity_eq_ok hprepared.selected.entity).1)
    (fun j hj => hsingle _ (hsound.relation_mem hj) ⟨j.join, List.mem_map_of_mem hj, rfl⟩)
    hreads hkeys] at hfields
  have hlength : (R.repeatedRows s.store (R.statement (p.layered q.scope))).length =
      (R.combinations s.store (R.statement (p.layered q.scope))).length := by
    rw [Reading.repeatedRows, (Store.sortBy_perm _).length_eq, Reading.combinations,
      List.length_flatMap, List.length_flatMap]
    simp only [List.length_replicate]
  calc (s.store.evaluate (R.statement (p.layered q.scope))).length
    _ = (R.combinations s.store (R.statement (p.layered q.scope))).length := by
      rw [hR.evaluate_eq hreads (fun o ho => hsound.orderBy hroot o (hby ▸ ho)) hlimit hoffset,
        List.length_map, (Store.sortBy_perm _).length_eq]
    _ = rs.length := by
      rw [← hlength, ← List.length_map (f := R.entity.fields), ← hfields, List.length_map]

/-- A fetch of a page gives what is left of a window of the rows if repetitions are left
    out. -/
theorem exists_fetchMany_page (hprepared : c.IsPrepared p q root) (hq : q.IsWhole)
    (hprepare : p.prepare q = .ok c) (hx : x.Answers store inv) (hinv : inv state)
    {primary : CompiledStatement} (hprimary : c.primary? = some primary) {records : List Record}
    (hrecords : (store.evaluate primary.statement).mapM primary.assembleRow = .ok records)
    (place n : Nat) :
    ∃ page, (p.fetchMany x (q.page place n) state).1 = .ok page ∧
      page.map Record.fields = (firstBy (·.key? primary.rootKey) []
        ((records.drop place).take n)).map Record.fields := by
  obtain ⟨hlimit, hoffset⟩ := bounds_of_isWhole hprepared hq hprimary
  obtain ⟨c', hprepare', hwindow⟩ := exists_prepare_page hprepare place n
  obtain ⟨root', hprepared'⟩ := isPrepared_of_prepare hprepare'
  obtain ⟨cs, records', page, hcs, hrecords', hpage, hfields⟩ :=
    exists_fetchMany hprepared' hprepare' hx hinv
  rw [hprimary, Option.map_some, hcs, Option.some.injEq] at hwindow
  subst hwindow
  have hcut : store.evaluate (primary.window (some place) (some n)).statement =
      ((store.evaluate primary.statement).drop place).take n :=
    Store.evaluate_window hlimit hoffset place n
  have hsame : (primary.window (some place) (some n)).assembleRow = primary.assembleRow := rfl
  rw [hcut, hsame] at hrecords'
  have hrecords'' := mapM_eq_ok.2
    (List.forall₂_take n (List.forall₂_drop place (mapM_eq_ok.1 hrecords)))
  obtain rfl := Except.ok.inj (hrecords'.symm.trans hrecords'')
  exact ⟨page, hpage, hfields⟩

/-- A fetch of a page gives the roots at its places, whatever the place and the length, just
    if the first statement reads no root twice, that is as many rows as there are roots.
    It does if rows of the root are told apart by their primary keys and every relation that
    is joined to the root leads to one row at most. -/
theorem pages_iff {decls : List EntityDecl} (hbuild : Catalog.build decls = .ok p.catalog)
    (hq : q.IsWhole) (hprepare : p.prepare q = .ok c) {primary : CompiledStatement}
    (hprimary : c.primary? = some primary) {s : Session} (hfailing : s.store.failing = none)
    (hrehearsal : s.rehearsal = {}) :
    ∃ rs, (p.fetchMany Session.executor q s).1 = .ok rs ∧
      ((∀ place n, ∃ page, (p.fetchMany Session.executor (q.page place n) s).1 = .ok page ∧
          page.map Record.fields = ((rs.map Record.fields).drop place).take n) ↔
        (s.store.evaluate primary.statement).length = rs.length) ∧
      ∀ root, p.catalog.entity q.root = .ok root →
        ((s.store.rows root.table).filterMap fun r => (r.value root.primaryKey).key?).Nodup →
        (∀ r ∈ c.plan.relations, (∃ j ∈ primary.statement.joins, j.path = r.path) →
          p.catalog.LeadsToOne s.store r.node.relation) →
        (s.store.evaluate primary.statement).length = rs.length := by
  have hc := Catalog.isSound_of_build hbuild
  have hx := Session.answers hfailing
  obtain ⟨root, hprepared⟩ := isPrepared_of_prepare hprepare
  obtain ⟨primary', records, rs, hprimary', hrecords, hrs, hfields⟩ :=
    exists_fetchMany hprepared hprepare hx ⟨rfl, hrehearsal⟩
  obtain rfl := Option.some.inj (hprimary.symm.trans hprimary')
  have hread : (s.store.evaluate primary.statement).length = records.length :=
    (mapM_eq_ok.1 hrecords).length_eq
  have hleft : rs.length = (firstBy (·.key? primary.rootKey) [] records).length := by
    rw [← List.length_map (f := Record.fields), hfields, List.length_map]
  have hpage := exists_fetchMany_page hprepared hq hprepare hx
    (show s.store = s.store ∧ s.rehearsal = {} from ⟨rfl, hrehearsal⟩) hprimary hrecords
  refine ⟨rs, hrs, ⟨fun hall => ?_, fun hlength => ?_⟩, fun root' hroot' hkeys hsingle => ?_⟩
  · -- Counting is enough: of no window is a row left out, and so of none at all.
    rw [hread, hleft]
    refine length_firstBy_of_windows fun place n => ?_
    obtain ⟨page, hfetch, hwanted⟩ := hall place n
    obtain ⟨page', hfetch', hgot⟩ := hpage place n
    obtain rfl := Except.ok.inj (hfetch.symm.trans hfetch')
    rw [hgot, hfields, ← List.map_drop, ← List.map_take] at hwanted
    simpa only [List.length_map] using congrArg List.length hwanted
  · -- Where nothing is repeated in all rows, nothing is in a window.
    intro place n
    have hself : firstBy (·.key? primary.rootKey) [] records = records :=
      (firstBy_sublist _ _ _).eq_of_length (by rw [← hleft, ← hlength, hread])
    obtain ⟨page, hfetch, hgot⟩ := hpage place n
    refine ⟨page, hfetch, ?_⟩
    rw [hgot, hfields, firstBy_eq_self_of_sublist hself
      ((List.take_sublist ..).trans (List.drop_sublist ..)), hself, List.map_take, List.map_drop]
  · obtain rfl : root' = root :=
      Except.ok.inj (hroot'.symm.trans (hprepared.root_eq ▸ hprepared.selected.entity))
    exact length_evaluate_eq hprepared hprepare hc hq hprimary (congrArg Rehearsal.answers hrehearsal)
      hrs hkeys hsingle

/-- Every post has one author, so that a page of posts is one of the list of all. -/
theorem pages_iff_posts : ∃ rs,
    (postPlanner.fetchMany Session.executor postRequest { store := authoredStore }).1 = .ok rs ∧
      rs.length = 2 ∧ ∀ place n, ∃ page, (postPlanner.fetchMany Session.executor
          (postRequest.page place n) { store := authoredStore }).1 = .ok page ∧
        page.map Record.fields = ((rs.map Record.fields).drop place).take n := by
  have hbuild : Catalog.build postDecls = .ok postPlanner.catalog := rfl
  have hwhole : postRequest.IsWhole := ⟨rfl, rfl⟩
  obtain ⟨c, primary, hprepare, hprimary, hrelations, hlength⟩ : ∃ c primary,
      postPlanner.prepare postRequest = .ok c ∧ c.primary? = some primary ∧
        c.plan.relations.map (·.node.relation) = [postAuthor] ∧
          (authoredStore.evaluate primary.statement).length = 2 := ⟨_, _, rfl, rfl, rfl, rfl⟩
  have hkeys : ((authoredStore.rows "posts").filterMap fun r => (r.value "id").key?).Nodup := by
    decide
  have hsingle : ∀ o ∈ authoredStore.rows "posts", ((authoredStore.rows "users").filter fun t =>
      (o.value "author_id").equal? (t.value "id") == some true).length ≤ 1 := by decide
  obtain ⟨rs, hrs, hpages, hone⟩ :=
    pages_iff hbuild hwhole hprepare hprimary (s := { store := authoredStore }) rfl rfl
  have hall := hone _ rfl hkeys fun r hr _ owner target howner htarget => by
    have hedge : r.node.relation ∈ [postAuthor] := hrelations ▸ List.mem_map_of_mem hr
    rw [List.mem_singleton.1 hedge] at howner htarget ⊢
    obtain rfl := Except.ok.inj howner
    obtain rfl := Except.ok.inj htarget
    exact hsingle
  exact ⟨rs, hrs, hall.symm.trans hlength, hpages.2 hall⟩

end Planner

/-! ### Two profiles of a user -/

/-- Users with their profile. -/
def profileDecls : List EntityDecl :=
  [{ name := "User", table := "users", columns := ["id"]
     relations := [{ RelationDecl.hasOne "profile" "Profile" "user_id" with eager := true }] },
   { name := "Profile", table := "profiles", columns := ["id", "user_id"] }]

/-- A planner for users and profiles. -/
def profilePlanner : Planner :=
  { catalog :=
      { entities :=
          [{ name := "User", table := "users", primaryKey := "id", columns := ["id"]
             relations := [{ name := "profile", owner := "User", target := "Profile"
                             cardinality := .one, nullable := true, eager := true, strategy := none
                             owning := false, ownerColumn := "id", targetColumn := "user_id" }] },
           { name := "Profile", table := "profiles", primaryKey := "id"
             columns := ["id", "user_id"], relations := [] }] }
    filters := {}, config := {} }

/-- All users. -/
def profileRequest : FetchRequest :=
  { root := "User" }

/-- Two users, the first of whom has two profiles. -/
def profileStore : Store :=
  { tables := [("users", [[("id", .int 1)], [("id", .int 2)]]),
      ("profiles", [[("id", .int 1), ("user_id", .int 1)], [("id", .int 2), ("user_id", .int 1)]])] }

namespace Planner

/-- The user with two profiles is the only one on a page of two users, and again on a page
    that starts with the second user. -/
theorem short_page_profiles :
    Catalog.build profileDecls = .ok profilePlanner.catalog ∧
      Planner.make profilePlanner.catalog {} {} = .ok profilePlanner ∧
      (profileStore.rows "users").map (·.value "id") = [.int 1, .int 2] ∧
      ∃ rs page later,
        (profilePlanner.fetchMany Session.executor profileRequest { store := profileStore }).1 =
          .ok rs ∧
        (profilePlanner.fetchMany Session.executor (profileRequest.page 0 2)
          { store := profileStore }).1 = .ok page ∧
        (profilePlanner.fetchMany Session.executor (profileRequest.page 1 1)
          { store := profileStore }).1 = .ok later ∧
        page.map Record.fields ≠ ((rs.map Record.fields).drop 0).take 2 ∧
        later.map Record.fields ≠ ((rs.map Record.fields).drop 1).take 1 := by
  obtain ⟨rs, hrs, hall⟩ : ∃ rs, (profilePlanner.fetchMany Session.executor profileRequest
      { store := profileStore }).1 = .ok rs ∧
        rs.map Record.fields = [[("id", .int 1)], [("id", .int 2)]] := ⟨_, rfl, rfl⟩
  obtain ⟨page, hpage, hshort⟩ : ∃ page, (profilePlanner.fetchMany Session.executor
      (profileRequest.page 0 2) { store := profileStore }).1 = .ok page ∧
        page.map Record.fields = [[("id", .int 1)]] := ⟨_, rfl, rfl⟩
  obtain ⟨later, hlater, hagain⟩ : ∃ page, (profilePlanner.fetchMany Session.executor
      (profileRequest.page 1 1) { store := profileStore }).1 = .ok page ∧
        page.map Record.fields = [[("id", .int 1)]] := ⟨_, rfl, rfl⟩
  refine ⟨rfl, rfl, rfl, rs, page, later, hrs, hpage, hlater, ?_, ?_⟩
  · rw [hall, hshort]
    simp
  · rw [hall, hagain]
    simp

end Planner

end EntityFetch
