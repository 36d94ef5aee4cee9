import EntityFetch.Proofs.Local
import EntityFetch.Proofs.Outcome
import EntityFetch.Proofs.Page

/-!
# First records

A fetch of one record asks for one row of the root, so that it looks up the keys of one root
where a fetch of all looks up those of all roots together, and leaves nothing out as a
repetition. It gives the first record of the fetch of all nevertheless, with all that is
loaded with it (`Planner.fst_fetchOne`): the first row is read alike, it is never a
repetition (`head?_firstBy`), and what is loaded with a root does not depend on the others
(`Planner.exists_fetchMany_within`).
-/

namespace EntityFetch

/-- The request without a bound on the number of its roots. -/
def FetchRequest.takeAll (q : FetchRequest) : FetchRequest :=
  q.within q.scope.skip none

namespace CompiledPlan

variable {p : Planner} {q : FetchRequest} {root : Entity} {c : CompiledPlan} {store : Store}
  {offset limit : Option Nat}

/-- What is looked up for an owner does not depend on the bounds on the roots. -/
theorem IsPrepared.lookUp_window (h : c.IsPrepared p q root) (k : Nat) (owner : Record) :
    (c.window offset limit).lookUp store k owner = c.lookUp store k owner := by
  by_cases hk : k = 0
  · -- The first group has the root of the fetch at its root, which has no owners.
    have hnone : c.groupRoot? k = none := by
      rw [hk, groupRoot?, h.selected.isGrouped.primary.1]
      rfl
    have hnone' : (c.window offset limit).groupRoot? k = none := hnone
    rw [lookUp, lookUp, hnone, hnone']
  · rw [lookUp, lookUp, statement?_window hk]
    rfl

theorem IsPrepared.followAll_window (h : c.IsPrepared p q root) (r : Record) :
    (c.window offset limit).followAll store r = c.followAll store r := by
  have hfollow : (c.window offset limit).follow store = c.follow store := by
    funext r k
    rw [follow, follow, funext (h.lookUp_window k)]
    rfl
  rw [followAll, followAll, hfollow]
  rfl

end CompiledPlan

namespace Planner

variable {σ : Type} {x : Executor σ} {store : Store} {inv : σ → Prop} {state : σ} {p : Planner}
  {q : FetchRequest} {root : Entity} {c : CompiledPlan}

/-- If no statement fails a fetch gives its roots without repetitions, each with what is found
    for it alone. -/
theorem exists_fetchMany_followAll (hprepare : p.prepare q = .ok c) (hc : p.catalog.IsSound)
    (hdot : ∀ r ∈ c.plan.relations, IsDotFree r.node.relation.name)
    (hplain : c.HasPlainKeys p.catalog store) (hx : x.Answers store inv) (hinv : inv state)
    {primary : CompiledStatement} (hprimary : c.primary? = some primary) :
    ∃ records, (store.evaluate primary.statement).mapM primary.assembleRow = .ok records ∧
      (p.fetchMany x q state).1 =
        .ok ((firstBy (·.key? primary.rootKey) [] records).map (c.followAll store)) := by
  obtain ⟨root, h⟩ := isPrepared_of_prepare hprepare
  obtain ⟨records, hrecords, hroots⟩ := h.exists_mapM_primary hprimary store
  have hrows : ∀ r ∈ firstBy (·.key? primary.rootKey) [] records,
      r.Everywhere (c.IsRowAt p.catalog store root) [] := by
    intro r hr
    obtain ⟨row, hrow, hassemble⟩ :=
      exists_mem_of_mapM_eq_ok hrecords (mem_of_mem_firstBy hr)
    exact h.everywhere_of_primary hc hprimary hrow hassemble
  obtain ⟨_, hrs, rfl⟩ := exists_runCompiled hx hinv hprimary hroots fun state' hinv' =>
    ⟨_, h.dispatch_eq_followAll hc hdot hplain hx hinv' hrows _, rfl⟩
  refine ⟨records, hrecords, ?_⟩
  rw [fetchMany, hprepare]
  exact hrs

/-- Whatever the bound is, a fetch assembles as many of the same records, and gives each root
    what is found for it alone. -/
theorem exists_fetchMany_within (hprepare : p.prepare q = .ok c) (hc : p.catalog.IsSound)
    (hdot : ∀ r ∈ c.plan.relations, IsDotFree r.node.relation.name)
    (hplain : c.HasPlainKeys p.catalog store) (hx : x.Answers store inv) (hinv : inv state)
    (skip : Option Nat) :
    ∃ (key : Record → Option Key) (records : List Record), ∀ take : Option Nat,
      (p.fetchMany x (q.within skip take) state).1 =
        .ok ((firstBy key [] (take.elim records records.take)).map (c.followAll store)) := by
  obtain ⟨root, h⟩ := isPrepared_of_prepare hprepare
  obtain ⟨R, hprimary, -⟩ := h.exists_primary
  have hfetch : ∀ take, ∃ records, (store.evaluate
        { (R.statement (p.layered q.scope)) with offset := skip, limit := take }).mapM
          (R.compiled (p.layered q.scope)).assembleRow = .ok records ∧
      (p.fetchMany x (q.within skip take) state).1 =
        .ok ((firstBy (·.key? R.entity.primaryKey) [] records).map (c.followAll store)) := by
    intro take
    have hwindow : p.prepare (q.within skip take) = .ok (c.window skip take) := by
      rw [prepare_within, hprepare]
      rfl
    have hfirst : (c.window skip take).primary? =
        some ((R.compiled (p.layered q.scope)).window skip take) := by
      rw [CompiledPlan.primary?_window, hprimary]
      rfl
    obtain ⟨records, hrecords, hresult⟩ := exists_fetchMany_followAll hwindow hc hdot
      ⟨hplain.keyed, hplain.target, hplain.owner⟩ hx hinv hfirst
    refine ⟨records, hrecords, hresult.trans (congrArg Except.ok ?_)⟩
    exact List.map_congr_left fun r _ => h.followAll_window r
  obtain ⟨records, hrecords, hall⟩ := hfetch none
  refine ⟨(·.key? R.entity.primaryKey), records, fun take => ?_⟩
  cases take with
  | none => exact hall
  | some n =>
    -- As many rows are assembled, of those that are read without a bound.
    obtain ⟨page, hpage, hresult⟩ := hfetch (some n)
    rw [Store.evaluate_take] at hpage
    have hcut := mapM_eq_ok.2 (List.forall₂_take n (mapM_eq_ok.1 hrecords))
    obtain rfl := Except.ok.inj (hpage.symm.trans hcut)
    exact hresult

/-- A fetch of one record gives the first record of the fetch of all, with all that is loaded
    with it, and fails with the same error if that fails: be the tables what they may, as long
    as keys can be looked up as they are compared. -/
theorem fst_fetchOne {decls : List EntityDecl} (hbuild : Catalog.build decls = .ok p.catalog)
    (hdot : ∀ e ∈ p.catalog.entities, ∀ r ∈ e.relations, IsDotFree r.name) {s : Session}
    (hfailing : s.store.failing = none) (hanswers : s.rehearsal.answers = [])
    (hcancel : s.rehearsal.cancelAfter = none ∨ Session.executor.isCancelled s = true)
    (hplain : ∀ c, p.prepare q = .ok c → c.HasPlainKeys p.catalog s.store) :
    (p.fetchOne Session.executor q s).1 =
      (p.fetchMany Session.executor q.takeAll s).1.map List.head? := by
  have hone : q.take 1 = q.within q.scope.skip (some 1) := rfl
  rw [fetchOne_eq, hone, FetchRequest.takeAll]
  cases hprepare : p.prepare q with
  | error e =>
    have hrefused : ∀ take, p.fetchMany Session.executor (q.within q.scope.skip take) s =
        (.error e, s) := by
      intro take
      rw [fetchMany, prepare_within_eq_error_iff.2 hprepare]
    rw [hrefused, hrefused]
  | ok c =>
    obtain ⟨root, h⟩ := isPrepared_of_prepare hprepare
    rcases hcancel with hlive | hcancelled
    · obtain ⟨key, records, hall⟩ := exists_fetchMany_within hprepare
        (Catalog.isSound_of_build hbuild) (h.isDotFree_of_catalog hdot) (hplain c hprepare)
        (Session.answers_of_rehearsal hfailing hanswers hlive) ⟨rfl, rfl⟩ q.scope.skip
      rw [hall, hall]
      refine congrArg Except.ok ?_
      -- Rows with one key are made one record, of which the first is that of the first row.
      rw [List.head?_map, List.head?_map, head?_firstBy, head?_firstBy]
      simp only [Option.elim, List.head?_take, if_neg Nat.one_ne_zero]
    · -- Both fetches stop before they read anything.
      have hstopped : ∀ take, p.fetchMany Session.executor (q.within q.scope.skip take) s =
          (.error Fault.cancelled, s) := by
        intro take
        refine fetchMany_of_isCancelled (c := c.window q.scope.skip take) ?_ hcancelled
        rw [prepare_within, hprepare]
        rfl
      rw [hstopped, hstopped]

/-- Of two users with posts the first one is given, with both posts. -/
theorem fst_fetchOne_writers : ∃ u₁ u₂ : Record,
    (writerPlanner.fetchMany Session.executor writerRequest.takeAll { store := writerStore }).1 =
      .ok [u₁, u₂] ∧
    (writerPlanner.fetchOne Session.executor writerRequest { store := writerStore }).1 =
      .ok (some u₁) ∧
    (u₁.related "posts").length = 2 := by
  have hbuild : Catalog.build writerDecls = .ok writerPlanner.catalog := rfl
  have hdot : ∀ e ∈ writerPlanner.catalog.entities, ∀ r ∈ e.relations, '.' ∉ r.name.toList := by
    decide
  obtain ⟨u₁, u₂, hmany, hposts⟩ : ∃ u₁ u₂ : Record, (writerPlanner.fetchMany Session.executor
      writerRequest.takeAll { store := writerStore }).1 = .ok [u₁, u₂] ∧
        (u₁.related "posts").length = 2 := ⟨_, _, rfl, rfl⟩
  obtain ⟨c, hprepare, houtline⟩ : ∃ c, writerPlanner.prepare writerRequest = .ok c ∧
      writerPlanner.outline writerRequest c.plan.loaded = .ok writerOutline := ⟨_, rfl, rfl⟩
  obtain ⟨root, h⟩ := isPrepared_of_prepare hprepare
  have hone := fst_fetchOne hbuild hdot (s := { store := writerStore }) rfl rfl (Or.inl rfl)
    fun c' hc' => Except.ok.inj (hprepare.symm.trans hc') ▸
      h.hasPlainKeys (Catalog.isSound_of_build hbuild) houtline (writerOutline_isRegular c)
  rw [hmany] at hone
  exact ⟨u₁, u₂, hmany, hone, hposts⟩

end Planner

end EntityFetch
