import EntityFetch.Proofs.Bounds
import EntityFetch.Proofs.Sortable
import EntityFetch.Proofs.Wave

/-!
# How fetches end

A request is refused before any statement is executed if one of its paths cannot be read, it
cannot be planned, or a group of its plan cannot be compiled (`Planner.Refuses`). Once it is
prepared nothing but a statement can fail: every row that carries what is read gives a record,
and every group has a relation at its root and a statement
(`Planner.runCompiled_cases`). What is executed are statements of the plan
(`Planner.executed_runCompiled`).

On a session this leaves few ways for a fetch to end, if the columns by which it sorts have
comparable values (`Planner.endsAs_fetch`). It is refused; or it is cancelled at the start; or
all its statements are answered; or the last one that is executed reads the table that fails.
In the first two cases the session is unchanged. If a column has values of several kinds, the
program may also end while it sorts (`Planner.torn_fetch`).
-/

namespace EntityFetch

/-! ### Requests that are refused -/

/-- Whether a request ends with an error before any statement is executed. -/
inductive Planner.Refuses (p : Planner) (req : FetchRequest) : QueryError → Prop
  /-- The first path that cannot be read. -/
  | malformed {before after : List String} {text : String} {e : QueryError} :
      req.populate = before ++ text :: after →
      (∀ t ∈ before, ∃ path, RelationPath.parse t = .ok path) →
      RelationPath.parse text = .error e → Refuses p req e
  | unplanned {paths : List RelationPath} {e : QueryError} :
      req.populate.mapM RelationPath.parse = .ok paths → p.plan req.root paths = .error e →
      Refuses p req e
  /-- The first group that cannot be compiled, be it that of the root or one that follows. -/
  | uncompiled {paths : List RelationPath} {plan : LoadPlan} {before after : List LoadGroup}
      {group : LoadGroup} {e : QueryError} :
      req.populate.mapM RelationPath.parse = .ok paths → p.plan req.root paths = .ok plan →
      plan.groups = before ++ group :: after →
      (∀ g ∈ before, ∃ cs, p.compiler.compileGroup plan (p.layered req.scope) g = .ok cs) →
      p.compiler.compileGroup plan (p.layered req.scope) group = .error e → Refuses p req e

namespace Planner

variable {p : Planner} {req : FetchRequest} {c : CompiledPlan} {e : QueryError}

/-- Preparing a request fails exactly if it is refused. -/
theorem prepare_eq_error_iff : p.prepare req = .error e ↔ p.Refuses req e := by
  -- Compilation fails at the plan or at the first group that does not compile.
  have hcompile : ∀ paths, p.compile req.root paths req.scope = .error e ↔
      p.plan req.root paths = .error e ∨ ∃ plan, p.plan req.root paths = .ok plan ∧
        plan.groups.mapM (p.compiler.compileGroup plan (p.layered req.scope)) = .error e := by
    intro paths
    refine bind_eq_error.trans (or_congr_right (exists_congr fun plan => ?_))
    refine and_congr_right fun _ => ?_
    refine bind_eq_error.trans (or_iff_left ?_)
    rintro ⟨_, -, h⟩
    cases h
  rw [prepare, bind_eq_error, mapM_eq_error_iff]
  simp only [hcompile, mapM_eq_error_iff]
  constructor
  · rintro (⟨_, _, _, hsplit, hbefore, hparse⟩ | ⟨paths, hparse, hplan | ⟨plan, hplan, h⟩⟩)
    · exact .malformed hsplit hbefore hparse
    · exact .unplanned hparse hplan
    · obtain ⟨_, _, _, hsplit, hbefore, hgroup⟩ := h
      exact .uncompiled hparse hplan hsplit hbefore hgroup
  · rintro (⟨hsplit, hbefore, hparse⟩ | ⟨hparse, hplan⟩ | ⟨hparse, hplan, hsplit, hbefore, hgroup⟩)
    · exact .inl ⟨_, _, _, hsplit, hbefore, hparse⟩
    · exact .inr ⟨_, hparse, .inl hplan⟩
    · exact .inr ⟨_, hparse, .inr ⟨_, hplan, _, _, _, hsplit, hbefore, hgroup⟩⟩

/-- A request that is not refused can be prepared: its paths are read, it has a plan, and each
    group of the plan a statement. -/
theorem exists_prepare (h : ∀ e, ¬p.Refuses req e) : ∃ c, p.prepare req = .ok c := by
  cases hprepare : p.prepare req with
  | error e => exact absurd (prepare_eq_error_iff.1 hprepare) (h e)
  | ok c => exact ⟨c, rfl⟩

/-! ### Requests that are prepared -/

variable {σ : Type} {x : Executor σ} {inv : σ → Prop} {state : σ}

/-- A prepared request fails if the executor does, on a statement and with its error, and
    otherwise it has a result. -/
theorem runCompiled_cases (hprepare : p.prepare req = .ok c) (hx : x.Carries inv)
    (hinv : inv state) :
    (∃ s mid e state', inv mid ∧ x.run s mid = (.error e, state') ∧
        p.runCompiled x c state = (.error e, state')) ∨
      ∃ records state', inv state' ∧ p.runCompiled x c state = (.ok records, state') := by
  obtain ⟨root, hc⟩ := isPrepared_of_prepare hprepare
  obtain ⟨R, hprimary, hsound, hgroup, -⟩ := hc.exists_primary
  simp only [runCompiled, hprimary]
  rcases hrun : x.run (R.compiled (p.layered req.scope)).statement state with ⟨e | rows, mid⟩
  · exact .inl ⟨_, state, e, mid, hinv, hrun, rfl⟩
  · obtain ⟨-, hexecute⟩ := Executor.run_eq_ok_iff.1 hrun
    have hmid := hx.stays _ state mid rows hinv hexecute
    obtain ⟨roots, hroots⟩ := hsound.exists_assemble hc.selected hgroup
      (hx.rows _ state mid rows hinv (R.isClosed_statement _) hexecute)
    rcases hc.runWaves_cases hx hmid p.config.loading.batchSize c.plan.waves roots with
      ⟨_, wave, _, rs, mid', e, late, -, -, hmid', hall, hdispatch⟩ | ⟨rs, late, hlate, hdispatch⟩
    · obtain ⟨s, late', hlate', hfails⟩ := hc.exists_run_eq_error hx hmid' hall
      exact .inl ⟨s, late', e, late, hlate', hfails,
        by simp only [hroots, CompiledPlan.dispatch, hdispatch]⟩
    · exact .inr ⟨rs, late, hlate, by simp only [hroots, CompiledPlan.dispatch, hdispatch]⟩

end Planner

/-! ### Statements that are executed -/

variable {σ : Type} {x : Executor σ} {inv : σ → Prop} {state : σ}

namespace Executor

theorem run_keeps {st : Statement} (h : ∀ state, inv state → inv (x.execute st state).2)
    (hinv : inv state) : inv (x.run st state).2 := by
  have hexecute := h state hinv
  rw [run]
  split
  · exact hinv
  · generalize x.execute st state = result at hexecute ⊢
    obtain ⟨_ | _ | _, _⟩ := result <;> exact hexecute

theorem runAll_keeps {τ : Type} {statements : List (τ × Statement)}
    (h : ∀ t ∈ statements, ∀ state, inv state → inv (x.execute t.2 state).2) (hinv : inv state) :
    inv (x.runAll statements state).2 := by
  induction statements generalizing state with
  | nil => exact hinv
  | cons t rest ih =>
    rw [List.forall_mem_cons] at h
    have hrun := run_keeps h.1 hinv
    rw [runAll]
    generalize x.run t.2 state = result at hrun ⊢
    obtain ⟨_ | _, mid⟩ := result
    · exact hrun
    · have hrest := ih h.2 hrun
      simp only
      generalize x.runAll rest mid = results at hrest ⊢
      obtain ⟨_ | _, _⟩ := results <;> exact hrest

end Executor

namespace CompiledPlan

variable {c : CompiledPlan}

/-- Whether a statement is one of a plan, whatever keys are looked up. -/
def Executes (c : CompiledPlan) (st : Statement) : Prop :=
  ∃ cs ∈ c.statements, st = cs.statement ∨ ∃ keys, st = cs.statement.bindKeys keys

theorem runWave_keeps
    (h : ∀ st, c.Executes st → ∀ state, inv state → inv (x.execute st state).2)
    (batchSize : Nat) (wave : List Nat) (roots : List Record) (hinv : inv state) :
    inv (c.runWave x batchSize wave roots state).2 := by
  have hall : inv (x.runAll (wave.flatMap (c.groupStatements batchSize roots)) state).2 := by
    refine Executor.runAll_keeps (fun t ht => h t.2 ?_) hinv
    obtain ⟨k, -, ht⟩ := List.mem_flatMap.1 ht
    obtain ⟨cs, keys, hcs, rfl⟩ := exists_of_mem_groupStatements ht
    exact ⟨cs, List.mem_of_getElem? hcs, .inr ⟨keys, rfl⟩⟩
  rw [runWave]
  generalize x.runAll (wave.flatMap (c.groupStatements batchSize roots)) state = result at hall ⊢
  obtain ⟨_ | _, _⟩ := result <;> exact hall

/-- What every statement of the plan keeps is kept by all waves. -/
theorem runWaves_keeps
    (h : ∀ st, c.Executes st → ∀ state, inv state → inv (x.execute st state).2)
    (batchSize : Nat) (waves : List (List Nat)) (roots : List Record) (hinv : inv state) :
    inv (c.runWaves x batchSize waves roots state).2 := by
  induction waves generalizing roots state with
  | nil => exact hinv
  | cons wave waves ih =>
    have hmid := runWave_keeps h batchSize wave roots hinv
    rw [runWaves]
    generalize c.runWave x batchSize wave roots state = result at hmid ⊢
    obtain ⟨⟨roots', _ | e⟩, mid⟩ := result
    · exact ih roots' hmid
    · exact hmid

end CompiledPlan

/-- What every statement of the plan keeps is kept by a prepared request. -/
theorem Planner.runCompiled_keeps {p : Planner} {c : CompiledPlan} (inv : σ → Prop)
    (h : ∀ st, c.Executes st → ∀ state, inv state → inv (x.execute st state).2)
    (hinv : inv state) : inv (p.runCompiled x c state).2 := by
  rw [runCompiled]
  split
  · exact hinv
  · next primary hprimary =>
    have hrun := Executor.run_keeps
      (h primary.statement ⟨primary, List.mem_of_getElem? hprimary, .inl rfl⟩) hinv
    generalize x.run primary.statement state = result at hrun ⊢
    obtain ⟨_ | rows, mid⟩ := result
    · exact hrun
    · simp only
      split
      · exact hrun
      · next roots _ =>
        have hdispatch := CompiledPlan.runWaves_keeps h p.config.loading.batchSize c.plan.waves
          roots hrun
        simp only [CompiledPlan.dispatch]
        generalize c.runWaves x p.config.loading.batchSize c.plan.waves roots mid = result
          at hdispatch ⊢
        obtain ⟨⟨_, _ | _⟩, _⟩ := result <;> exact hdispatch

/-- On a session statements of the plan are executed, and nothing else. -/
theorem Planner.executed_runCompiled (p : Planner) (c : CompiledPlan) (s : Session) :
    ∃ done, (p.runCompiled Session.executor c s).2.executed = s.executed ++ done ∧
      ∀ st ∈ done, c.Executes st := by
  refine runCompiled_keeps (fun s' : Session => ∃ done, s'.executed = s.executed ++ done ∧
    ∀ st ∈ done, c.Executes st) (fun st hst s' => ?_) ⟨[], (List.append_nil _).symm, nofun⟩
  rintro ⟨done, hdone, hall⟩
  refine ⟨done ++ [st], ?_, List.forall_mem_append.2 ⟨hall, List.forall_mem_singleton.2 hst⟩⟩
  rw [← List.append_assoc, ← hdone, Session.executed, Session.executed, ← List.reverse_cons]
  rfl

/-! ### Requests that can be sorted -/

/-- Whether the statements of a request sort by columns that have comparable values. -/
def Planner.IsSortable (p : Planner) (req : FetchRequest) (store : Store) : Prop :=
  ∀ c, p.prepare req = .ok c → ∀ cs ∈ c.statements,
    TableRow.AreComparable (store.rows cs.statement.root.table) cs.statement.orderBy

namespace Planner

variable {decls : List EntityDecl} {p : Planner} {req : FetchRequest} {store : Store}

/-- No statement of such a request breaks off. -/
theorem IsSortable.breaksOff_eq_false (h : p.IsSortable req store)
    (hbuild : Catalog.build decls = .ok p.catalog) {c : CompiledPlan}
    (hprepare : p.prepare req = .ok c) {st : Statement} (hst : c.Executes st) :
    store.breaksOff st = false := by
  obtain ⟨root, hc⟩ := isPrepared_of_prepare hprepare
  obtain ⟨cs, hcs, hst⟩ := hst
  obtain ⟨i, hi⟩ := List.mem_iff_getElem?.1 hcs
  obtain ⟨R, -, hsound, rfl⟩ := hc.reading i cs hi
  refine (hsound.isRead hc.selected (Catalog.isSound_of_build hbuild) hst).breaksOff_eq_false ?_
  have hcomparable := h c hprepare _ hcs
  rcases hst with rfl | ⟨keys, rfl⟩
  · exact hcomparable.mono fun r hr => (List.mem_filter.1 hr).1
  · exact hcomparable.mono fun r hr => (List.mem_filter.1 hr).1

/-- Bounds on the roots make no difference to the columns by which is sorted. -/
theorem IsSortable.within (h : p.IsSortable req store) (skip take : Option Nat) :
    p.IsSortable (req.within skip take) store := by
  intro c hprepare cs hcs
  rw [prepare_within] at hprepare
  rcases hplain : p.prepare req with e | plain
  · rw [hplain] at hprepare
    cases hprepare
  rw [hplain] at hprepare
  cases hprepare
  have hall := h plain hplain
  obtain ⟨plan, _ | ⟨first, rest⟩⟩ := plain
  · exact absurd hcs List.not_mem_nil
  · rw [List.forall_mem_cons] at hall
    rcases List.mem_cons.1 hcs with rfl | hcs
    · exact hall.1
    · exact hall.2 cs hcs

end Planner

/-! ### Sessions -/

namespace Session

variable {s s' : Session} {done : List Statement}

/-- The session after some statements, all of which the store has answered. -/
def HasAnswered (s : Session) (done : List Statement) (s' : Session) : Prop :=
  s' = { s with log := done.reverse ++ s.log, count := s.count + done.length } ∧
    ∀ st ∈ done, ∃ rows, s.store.answer st = .ok rows

theorem HasAnswered.executed_eq (h : s.HasAnswered done s') :
    s'.executed = s.executed ++ done := by
  rw [h.1, executed, executed, List.reverse_append, List.reverse_reverse]

theorem HasAnswered.concat (h : s.HasAnswered done s') {st : Statement} {rows : List Row}
    (hst : s.store.answer st = .ok rows) : s.HasAnswered (done ++ [st])
      { s' with log := st :: s'.log, count := s'.count + 1 } := by
  refine ⟨?_, List.forall_mem_append.2 ⟨h.2, List.forall_mem_singleton.2 ⟨rows, hst⟩⟩⟩
  rw [h.1, List.reverse_append, List.length_append, ← Nat.add_assoc]
  rfl

/-- A session that is not cancelled goes on answering as its store does. -/
theorem HasAnswered.run_eq (h : s.HasAnswered done s') (hanswers : s.rehearsal.answers = [])
    (hcancel : s.rehearsal.cancelAfter = none) (st : Statement) : executor.run st s' =
      (s.store.answer st, { s' with log := st :: s'.log, count := s'.count + 1 }) := by
  obtain ⟨rfl, -⟩ := h
  refine Session.run_eq ?_ ?_ st
  · exact hanswers
  · exact hcancel

/-- A session that is not cancelled has answered the statements that it has executed. -/
theorem carries_hasAnswered (hanswers : s.rehearsal.answers = [])
    (hcancel : s.rehearsal.cancelAfter = none) :
    executor.Carries fun s' => ∃ done, s.HasAnswered done s' where
  rows st s' s'' rows := by
    rintro ⟨done, rfl, -⟩ hclosed hexecute
    refine carries.rows st _ s'' rows (fun a ha => ?_) hclosed hexecute
    exact absurd (hanswers ▸ ha) List.not_mem_nil
  stays st s' s'' rows := by
    rintro ⟨done, h⟩ hexecute
    have hlive : executor.isCancelled s' = false :=
      isCancelled_eq_false (h.1 ▸ hcancel : s'.rehearsal.cancelAfter = none)
    have hrun := Executor.run_eq_ok_iff.2 ⟨hlive, hexecute⟩
    rw [h.run_eq hanswers hcancel] at hrun
    obtain ⟨hanswer, rfl⟩ := Prod.mk.inj hrun
    exact ⟨done ++ [st], h.concat hanswer⟩

/-- How a fetch on a session ends that is not refused and not cancelled. The rows of all
    statements that the store answers can be sorted. -/
inductive Ends {α : Type} (s : Session) : Except QueryError α × Session → Prop
  /-- With a result, if all statements are answered. -/
  | answered {a : α} {s' : Session} {executed : List Statement} :
      s'.executed = s.executed ++ executed →
      (∀ st ∈ executed, s.store.breaksOff st = false) →
      (∀ st ∈ executed, ∀ table, s.store.failing = some table → table ∉ st.tables) →
      Ends s (.ok a, s')
  /-- With a failed statement, which is the only one that reads the failing table. -/
  | failed {s' : Session} {before : List Statement} {st : Statement} {table : String} :
      s'.executed = s.executed ++ (before ++ [st]) →
      (∀ st' ∈ before, s.store.breaksOff st' = false) →
      s.store.failing = some table → table ∈ st.tables → (∀ st' ∈ before, table ∉ st'.tables) →
      Ends s (.error (QueryError.withSql
        (Fault.execution ("simulated failure reading '" ++ table ++ "'")) st.text), s')

variable {α β : Type} {result : Except QueryError α × Session}

/-- The error of a fetch that is not refused and not cancelled is that of a failed statement. -/
theorem Ends.code_eq (h : s.Ends result) :
    ∀ e, result.1 = .error e → e.code = .executionFailed := by
  intro e he
  cases h with
  | answered => cases he
  | failed => exact Except.error.inj he ▸ rfl

theorem Ends.map (f : α → β) (h : s.Ends result) : s.Ends (result.1.map f, result.2) := by
  cases h with
  | answered hexecuted hsorted hreads => exact .answered hexecuted hsorted hreads
  | failed hexecuted hsorted hfailing hmem hbefore =>
    exact .failed hexecuted hsorted hfailing hmem hbefore

end Session

/-- A statement that a store answers does not read the failing table. -/
theorem Store.not_mem_of_answer {store : Store} {st : Statement} {rows : List Row}
    (h : store.answer st = .ok rows) : ∀ table, store.failing = some table → table ∉ st.tables := by
  intro table hfailing hmem
  rw [answer, hfailing] at h
  simp only [if_pos (List.contains_iff_mem.2 hmem)] at h
  cases h

/-- A statement that a store does not answer reads the failing table. -/
theorem Store.exists_of_answer_eq_error {store : Store} {st : Statement} {e : QueryError}
    (h : store.answer st = .error e) : ∃ table, store.failing = some table ∧ table ∈ st.tables ∧
      e = QueryError.withSql
        (Fault.execution ("simulated failure reading '" ++ table ++ "'")) st.text := by
  rw [answer] at h
  split at h
  · next table hfailing =>
    split at h
    · next hcontains =>
      exact ⟨table, hfailing, List.contains_iff_mem.1 hcontains, (Except.error.inj h).symm⟩
    · cases h
  · cases h

namespace Planner

variable {decls : List EntityDecl} {p : Planner} {req : FetchRequest} {c : CompiledPlan}
  {s : Session}

/-- A prepared request of which no statement breaks off ends with a result or with a failed
    statement. -/
theorem ends_runCompiled (hprepare : p.prepare req = .ok c)
    (hanswers : s.rehearsal.answers = []) (hcancel : s.rehearsal.cancelAfter = none)
    (hsorted : ∀ st, c.Executes st → s.store.breaksOff st = false) :
    s.Ends (p.runCompiled Session.executor c s) := by
  have hstart : s.HasAnswered [] s := ⟨rfl, List.forall_mem_nil _⟩
  obtain ⟨executed, hexecuted, hplan⟩ := p.executed_runCompiled c s
  rcases runCompiled_cases hprepare (Session.carries_hasAnswered hanswers hcancel) ⟨[], hstart⟩ with
    ⟨st, mid, e, s', ⟨done, hmid⟩, hrun, heq⟩ | ⟨records, s', ⟨done, hdone⟩, heq⟩
  · rw [hmid.run_eq hanswers hcancel] at hrun
    obtain ⟨hanswer, rfl⟩ := Prod.mk.inj hrun
    obtain ⟨table, hfailing, hmem, rfl⟩ := Store.exists_of_answer_eq_error hanswer
    rw [heq] at hexecuted ⊢
    have hlog : (st :: mid.log).reverse = s.executed ++ (done ++ [st]) := by
      rw [List.reverse_cons, ← Session.executed, hmid.executed_eq, List.append_assoc]
    obtain rfl := List.append_cancel_left (hexecuted.symm.trans hlog)
    refine .failed hlog (fun st' hst' => ?_) hfailing hmem fun st' hst' =>
      Store.not_mem_of_answer (hmid.2 st' hst').choose_spec table hfailing
    exact hsorted st' (hplan st' (List.mem_append_left _ hst'))
  · rw [heq] at hexecuted ⊢
    obtain rfl := List.append_cancel_left (hexecuted.symm.trans hdone.executed_eq)
    exact .answered hexecuted (fun st hst => hsorted st (hplan st hst)) fun st hst =>
      Store.not_mem_of_answer (hdone.2 st hst).choose_spec

/-- How a fetch on a session ends, for a token that is cancelled from the start or never. -/
structure EndsAs {α : Type} (p : Planner) (req : FetchRequest) (s : Session)
    (result : Except QueryError α × Session) : Prop where
  /-- A request that is refused ends with that error, and the session is unchanged. -/
  refused : ∀ e, p.Refuses req e → result = (.error e, s)
  /-- Any other has paths that are read, a plan, and a statement for each of its groups. -/
  prepared : (∀ e, ¬p.Refuses req e) → ∃ paths plan,
    req.populate.mapM RelationPath.parse = .ok paths ∧ p.plan req.root paths = .ok plan ∧
      ∀ g ∈ plan.groups, ∃ cs, p.compiler.compileGroup plan (p.layered req.scope) g = .ok cs
  /-- It is cancelled before the first statement is executed, -/
  cancelled : (∀ e, ¬p.Refuses req e) → Session.executor.isCancelled s = true →
    result = (.error Fault.cancelled, s)
  /-- or its statements are executed. If they can be sorted, then only the failing table keeps
      it from a result. -/
  executed : (∀ e, ¬p.Refuses req e) → s.rehearsal.cancelAfter = none →
    p.IsSortable req s.store → s.Ends result ∧ ∀ e, result.1 = .error e → e.code = .executionFailed

theorem EndsAs.map {α β : Type} {result : Except QueryError α × Session} (f : α → β)
    (h : p.EndsAs req s result) : p.EndsAs req s (result.1.map f, result.2) where
  refused e he := by
    rw [h.refused e he]
    rfl
  prepared := h.prepared
  cancelled hnot hcancel := by
    rw [h.cancelled hnot hcancel]
    rfl
  executed hnot hcancel hsort :=
    have hends := (h.executed hnot hcancel hsort).1.map f
    ⟨hends, hends.code_eq⟩

/-- One record is the first of those that are fetched when at most one is wanted. -/
theorem fetchOne_eq {σ : Type} (p : Planner) (x : Executor σ) (req : FetchRequest) (state : σ) :
    p.fetchOne x req state = ((p.fetchMany x (req.take 1) state).1.map List.head?,
      (p.fetchMany x (req.take 1) state).2) := by
  rw [fetchOne]
  rcases p.fetchMany x (req.take 1) state with ⟨_ | _, _⟩ <;> rfl

/-- A fetch that is cancelled at the start executes nothing. -/
theorem fetchMany_of_isCancelled {σ : Type} {x : Executor σ} {state : σ}
    (hprepare : p.prepare req = .ok c) (hcancel : x.isCancelled state = true) :
    p.fetchMany x req state = (.error Fault.cancelled, state) := by
  obtain ⟨root, hc⟩ := isPrepared_of_prepare hprepare
  obtain ⟨R, hprimary, -⟩ := hc.exists_primary
  rw [fetchMany, hprepare]
  simp only [runCompiled, hprimary, Executor.run, hcancel, if_true]

/-- How a fetch of many records ends. -/
theorem endsAs_fetchMany (hbuild : Catalog.build decls = .ok p.catalog) (req : FetchRequest)
    (hanswers : s.rehearsal.answers = []) :
    p.EndsAs req s (p.fetchMany Session.executor req s) := by
  constructor
  case refused =>
    intro e he
    rw [fetchMany, prepare_eq_error_iff.2 he]
  case prepared =>
    intro hnot
    obtain ⟨c, hprepare⟩ := exists_prepare hnot
    -- What is not refused has passed all stages.
    obtain ⟨paths, hparse, hcompile⟩ := bind_eq_ok.1 hprepare
    obtain ⟨plan, hplan, hcompile⟩ := bind_eq_ok.1 hcompile
    obtain ⟨_, hstatements, -⟩ := bind_eq_ok.1 hcompile
    refine ⟨paths, plan, hparse, hplan, fun g hg => ?_⟩
    obtain ⟨cs, -, hcs⟩ := exists_of_mem_of_mapM_eq_ok hstatements hg
    exact ⟨cs, hcs⟩
  case cancelled =>
    intro hnot hcancel
    obtain ⟨c, hprepare⟩ := exists_prepare hnot
    exact fetchMany_of_isCancelled hprepare hcancel
  case executed =>
    intro hnot hcancel hsort
    obtain ⟨c, hprepare⟩ := exists_prepare hnot
    rw [fetchMany, hprepare]
    have hends := ends_runCompiled hprepare hanswers hcancel fun st hst =>
      hsort.breaksOff_eq_false hbuild hprepare hst
    exact ⟨hends, hends.code_eq⟩

/-- How fetches end on a session, of many records and of one, be it with a failing table or
    without, and whether the token is cancelled from the start or never. -/
theorem endsAs_fetch (hbuild : Catalog.build decls = .ok p.catalog) (req : FetchRequest)
    (hanswers : s.rehearsal.answers = []) :
    p.EndsAs req s (p.fetchMany Session.executor req s) ∧
      p.EndsAs req s (p.fetchOne Session.executor req s) := by
  have hmany := endsAs_fetchMany hbuild req hanswers
  have hone := (endsAs_fetchMany hbuild (req.take 1) hanswers).map List.head?
  rw [← fetchOne_eq] at hone
  -- The bound on the roots makes no difference to what is refused.
  have hrefuses : ∀ e, p.Refuses (req.take 1) e ↔ p.Refuses req e := fun e =>
    prepare_eq_error_iff.symm.trans (prepare_within_eq_error_iff.trans prepare_eq_error_iff)
  have hnot : (∀ e, ¬p.Refuses req e) → ∀ e, ¬p.Refuses (req.take 1) e :=
    fun h e he => h e ((hrefuses e).1 he)
  refine ⟨hmany, ?_⟩
  constructor
  case refused => exact fun e he => hone.refused e ((hrefuses e).2 he)
  case prepared => exact hmany.prepared
  case cancelled => exact fun h => hone.cancelled (hnot h)
  case executed => exact fun h hcancel hsort => hone.executed (hnot h) hcancel (hsort.within _ _)

/-- Users are answered, and their posts are not: both fetches end with the statement that fails,
    which is the second one. -/
theorem endsAs_fetch_writers :
    let s : Session := { store := { writerStore with failing := some "posts" } }
    let many := writerPlanner.fetchMany Session.executor writerRequest s
    let one := writerPlanner.fetchOne Session.executor writerRequest s
    Catalog.build writerDecls = .ok writerPlanner.catalog ∧ s.rehearsal.answers = [] ∧
      (∀ e, ¬writerPlanner.Refuses writerRequest e) ∧
      writerPlanner.IsSortable writerRequest s.store ∧
      (many.1.toOption, one.1.toOption) = (none, none) ∧
      many.2.executed.map Statement.tables = [["users"], ["posts", "users"]] ∧
      one.2.executed.map Statement.tables = [["users"], ["posts", "users"]] ∧
      writerPlanner.EndsAs writerRequest s many ∧
      writerPlanner.EndsAs writerRequest s one := by
  intro s many one
  obtain ⟨c, hprepare, horder, hids⟩ : ∃ c, writerPlanner.prepare writerRequest = .ok c ∧
      c.statements.map (fun cs => (cs.statement.root.table, cs.statement.orderBy)) =
        [("users", []), ("posts", [{ column := "id" }])] ∧
      (s.store.rows "posts").map (fun r => r.value "id") = [.int 1, .int 2, .int 3, .int 4] :=
    ⟨_, rfl, rfl, rfl⟩
  have hprepared : ∀ e, ¬writerPlanner.Refuses writerRequest e := fun e he => by
    rw [prepare_eq_error_iff.2 he] at hprepare
    cases hprepare
  have hsort : writerPlanner.IsSortable writerRequest s.store := by
    intro c' hprepare' cs hcs o ho
    obtain rfl := Except.ok.inj (hprepare.symm.trans hprepare')
    have hmem : (cs.statement.root.table, cs.statement.orderBy) ∈
        [("users", []), ("posts", [{ column := "id" }])] := horder ▸ List.mem_map_of_mem hcs
    rcases List.mem_cons.1 hmem with heq | hmem
    · rw [(Prod.mk.inj heq).2] at ho
      exact absurd ho List.not_mem_nil
    · obtain ⟨htable, heq⟩ := Prod.mk.inj (List.mem_singleton.1 hmem)
      rw [heq] at ho
      obtain rfl := List.mem_singleton.1 ho
      rw [htable, hids]
      exact .inl ⟨.int, by decide⟩
  have hbuild : Catalog.build writerDecls = .ok writerPlanner.catalog := rfl
  exact ⟨hbuild, rfl, hprepared, hsort, rfl, rfl, rfl, endsAs_fetch hbuild writerRequest rfl⟩

/-! ### Items of several kinds -/

/-- A planner for items. -/
def itemPlanner : Planner :=
  { catalog := itemCatalog, filters := {}, config := {} }

/-- All items in the order of what they cost. -/
def itemRequest : FetchRequest :=
  { root := "Item", scope := costScope }

/-- A fetch of twenty-two items can be prepared, is not cancelled and reads no table that fails,
    and yet it has no end but that of the program: the sort of the only statement breaks off. -/
theorem torn_fetch :
    let s : Session := { store := itemStore tornCosts }
    Catalog.build itemDecls = .ok itemPlanner.catalog ∧
      (∀ e, ¬itemPlanner.Refuses itemRequest e) ∧ s.rehearsal.answers = [] ∧
      s.rehearsal.cancelAfter = none ∧ s.store.failing = none ∧
      (itemPlanner.fetchMany Session.executor itemRequest s).2.executed.map s.breaksOff =
        [true] := by
  intro s
  obtain ⟨c, hprepare⟩ : ∃ c, itemPlanner.prepare itemRequest = .ok c := ⟨_, rfl⟩
  refine ⟨rfl, fun e he => ?_, rfl, rfl, rfl, by decide +kernel⟩
  rw [prepare_eq_error_iff.2 he] at hprepare
  cases hprepare

end Planner

end EntityFetch
