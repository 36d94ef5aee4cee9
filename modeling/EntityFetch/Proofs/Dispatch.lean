import EntityFetch.Proofs.Fetch

/-!
# Fetches that are answered

An executor may answer every statement from a store (`Executor.Answers`), as a session
does in which nothing fails (`Session.answers`). Whatever is to be known of the
records while they are put together can then be given as a function of the groups that
are loaded: if every group adds to them what the function says, the fetch gives what
it says of all groups (`Planner.runCompiled_eq_ok`).
-/

namespace EntityFetch

variable {σ : Type}

/-- An executor that answers every statement from a store, while its state satisfies a
    condition. -/
structure Executor.Answers (x : Executor σ) (store : Store) (inv : σ → Prop) : Prop
    extends x.ReadsFrom store inv where
  succeeds : ∀ (s : Statement) (state : σ), inv state → ∃ rows, (x.run s state).1 = .ok rows

namespace Session

/-- A session that is never cancelled is not cancelled now. -/
theorem isCancelled_eq_false {s : Session} (hcancel : s.rehearsal.cancelAfter = none) :
    executor.isCancelled s = false := by
  change s.rehearsal.cancelAfter.any _ = false
  rw [hcancel]
  rfl

/-- A session in which no answer is rehearsed and that is never cancelled answers as its store
    does. -/
theorem run_eq {s : Session} (hanswers : s.rehearsal.answers = [])
    (hcancel : s.rehearsal.cancelAfter = none) (st : Statement) : executor.run st s =
      (s.store.answer st, { s with log := st :: s.log, count := s.count + 1 }) := by
  have hreply : s.reply st = s.storeReply st := by
    rw [reply, hanswers, hcancel, show (none == some (s.count + 1)) = false from rfl,
      Bool.and_false]
    rfl
  have hexecute : executor.execute st s =
      (s.storeReply st, { s with log := st :: s.log, count := s.count + 1 }) :=
    congrArg (·, _) hreply
  rw [Executor.run, isCancelled_eq_false hcancel, if_neg Bool.false_ne_true, hexecute, storeReply]
  cases s.store.answer st <;> rfl

/-- A session answers from its store if no table of it fails, no answer is rehearsed and it is
    never cancelled. -/
theorem answers_of_rehearsal {store : Store} {r : Rehearsal} (hfailing : store.failing = none)
    (hanswers : r.answers = []) (hcancel : r.cancelAfter = none) :
    executor.Answers store fun s => s.store = store ∧ s.rehearsal = r where
  answers st s rows := by
    rintro ⟨rfl, rfl⟩ h
    rw [run_eq hanswers hcancel] at h
    exact Store.eq_evaluate_of_answer h
  stays st s := by
    rintro ⟨rfl, rfl⟩
    rw [run_eq hanswers hcancel]
    exact ⟨rfl, rfl⟩
  succeeds st s := by
    rintro ⟨rfl, rfl⟩
    rw [run_eq hanswers hcancel, Store.answer, hfailing]
    exact ⟨_, rfl⟩

/-- A session answers from its store if no table of it fails and nothing is rehearsed. -/
theorem answers {store : Store} (hfailing : store.failing = none) :
    executor.Answers store fun s => s.store = store ∧ s.rehearsal = {} :=
  answers_of_rehearsal hfailing rfl rfl

end Session

variable {x : Executor σ} {store : Store} {inv : σ → Prop} {state : σ}

namespace Executor.Answers

theorem run_eq (hx : x.Answers store inv) (hinv : inv state) (s : Statement) :
    (x.run s state).1 = .ok (store.evaluate s) := by
  obtain ⟨rows, hrows⟩ := hx.succeeds s state hinv
  rw [hrows, hx.answers s state rows hinv hrows]

/-- Some statements are answered one after the other. -/
theorem exists_runAll (hx : x.Answers store inv) {τ : Type} (statements : List (τ × Statement))
    (hinv : inv state) : ∃ results, (x.runAll statements state).1 = .ok results := by
  induction statements generalizing state with
  | nil => exact ⟨[], rfl⟩
  | cons t rest ih =>
    obtain ⟨tag, s⟩ := t
    have hrun := hx.run_eq hinv s
    have hstays := hx.stays s state hinv
    simp only [Executor.runAll]
    cases heq : x.run s state with
    | mk answer state' =>
      rw [heq] at hrun hstays
      obtain ⟨results, hresults⟩ := ih hstays
      obtain rfl : answer = .ok (store.evaluate s) := hrun
      simp only at hresults ⊢
      cases hrest : x.runAll rest state' with
      | mk answers state'' =>
        rw [hrest] at hresults
        obtain rfl : answers = .ok results := hresults
        exact ⟨_, rfl⟩

end Executor.Answers

namespace CompiledPlan

variable {c : CompiledPlan} {batchSize : Nat} {roots : List Record}

/-- A wave attaches what the store reads for it. -/
theorem runWave_eq (hx : x.Answers store inv) (hinv : inv state) (groups : List Nat) :
    (c.runWave x batchSize groups roots state).1 =
      c.attachAll (c.waveResults store batchSize groups roots) groups roots ∧
        inv (c.runWave x batchSize groups roots state).2 := by
  obtain ⟨results, hresults⟩ :=
    hx.exists_runAll (groups.flatMap (c.groupStatements batchSize roots)) hinv
  obtain ⟨heq, hinv'⟩ := hx.toReadsFrom.runAll hinv hresults
  unfold runWave
  cases hrun : x.runAll (groups.flatMap (c.groupStatements batchSize roots)) state with
  | mk answers state' =>
    rw [hrun] at hresults hinv'
    obtain rfl : answers = .ok results := hresults
    exact ⟨by rw [heq]; rfl, hinv'⟩

/-- A wave that is attached is followed by the next, from what it gives. -/
theorem exists_runWaves_cons (hx : x.Answers store inv) (hinv : inv state) {wave : List Nat}
    (waves : List (List Nat)) {roots' : List Record}
    (hattach : c.attachAll (c.waveResults store batchSize wave roots) wave roots =
      (roots', none)) :
    ∃ state', inv state' ∧ (c.runWaves x batchSize (wave :: waves) roots state).1 =
      (c.runWaves x batchSize waves roots' state').1 := by
  have hwave : (c.runWave x batchSize wave roots state).1 =
      c.attachAll (c.waveResults store batchSize wave roots) wave roots ∧
        inv (c.runWave x batchSize wave roots state).2 := runWave_eq hx hinv wave
  obtain ⟨hrun, hinv'⟩ := hwave
  rw [hattach] at hrun
  rw [runWaves]
  rcases heq : c.runWave x batchSize wave roots state with ⟨result, state'⟩
  rw [heq] at hrun hinv'
  obtain rfl : result = (roots', none) := hrun
  exact ⟨state', hinv', rfl⟩

/-- Groups can be attached one after the other if each can. -/
theorem exists_attachAll {results : List (Nat × List Row)}
    (hattach : ∀ k rs, ∃ rs', c.attach rs k (rowsOf k results) = .ok rs') (groups : List Nat)
    (rs : List Record) : ∃ rs', c.attachAll results groups rs = (rs', none) := by
  induction groups generalizing rs with
  | nil => exact ⟨rs, rfl⟩
  | cons k groups ih =>
    obtain ⟨rs', hrs'⟩ := hattach k rs
    rw [attachAll, hrs']
    exact ih rs'

/-- Waves can be loaded one after the other if the rows of every group can be attached. -/
theorem exists_runWaves (hx : x.Answers store inv) (hinv : inv state)
    (hattach : ∀ wave roots k rs, ∃ rs',
      c.attach rs k (rowsOf k (c.waveResults store batchSize wave roots)) = .ok rs')
    (waves : List (List Nat)) (rs : List Record) :
    ∃ rs', (c.runWaves x batchSize waves rs state).1 = (rs', none) := by
  induction waves generalizing rs state with
  | nil => exact ⟨rs, rfl⟩
  | cons wave waves ih =>
    obtain ⟨rs', hrs'⟩ := exists_attachAll (hattach wave rs) wave rs
    obtain ⟨state', hinv', hrest⟩ := exists_runWaves_cons hx hinv waves hrs'
    rw [hrest]
    exact ih hinv' rs'

/-- The statements of a group are marked as such. -/
theorem fst_of_mem_groupStatements {k : Nat} {t : Nat × Statement}
    (h : t ∈ c.groupStatements batchSize roots k) : t.1 = k := by
  obtain ⟨_, _, -, rfl⟩ := exists_of_mem_groupStatements h
  rfl

theorem rowsOf_waveResults_cons (g : Nat) (groups : List Nat) (k : Nat) :
    rowsOf k (c.waveResults store batchSize (g :: groups) roots) =
      rowsOf k ((c.groupStatements batchSize roots g).map fun t => (t.1, store.evaluate t.2)) ++
        rowsOf k (c.waveResults store batchSize groups roots) := by
  simp only [rowsOf, waveResults, List.flatMap_cons, List.map_append, List.filter_append,
    List.flatMap_append]

/-- A group gets all rows of its own statements. -/
theorem rowsOf_groupStatements (k : Nat) :
    rowsOf k ((c.groupStatements batchSize roots k).map fun t => (t.1, store.evaluate t.2)) =
      (c.groupStatements batchSize roots k).flatMap fun t => store.evaluate t.2 := by
  rw [rowsOf, List.filter_eq_self.2, List.flatMap_map]
  intro result hresult
  obtain ⟨t, ht, rfl⟩ := List.mem_map.1 hresult
  exact beq_iff_eq.2 (fst_of_mem_groupStatements ht)

/-- A group gets no rows of the statements of another. -/
theorem rowsOf_groupStatements_of_ne {g k : Nat} (hne : g ≠ k) :
    rowsOf k ((c.groupStatements batchSize roots g).map fun t => (t.1, store.evaluate t.2)) =
      [] := by
  rw [rowsOf, List.filter_eq_nil_iff.2, List.flatMap_nil]
  intro result hresult heq
  obtain ⟨t, ht, rfl⟩ := List.mem_map.1 hresult
  exact hne ((fst_of_mem_groupStatements ht).symm.trans (beq_iff_eq.1 heq))

theorem rowsOf_waveResults_of_not_mem {groups : List Nat} {k : Nat} (hk : k ∉ groups) :
    rowsOf k (c.waveResults store batchSize groups roots) = [] := by
  induction groups with
  | nil => rfl
  | cons g groups ih =>
    rw [List.mem_cons, not_or] at hk
    rw [rowsOf_waveResults_cons, rowsOf_groupStatements_of_ne (Ne.symm hk.1), ih hk.2]
    rfl

/-- The rows of a group in a wave are those that its statements read. -/
theorem rowsOf_waveResults {groups : List Nat} (hnodup : groups.Nodup) {k : Nat}
    (hk : k ∈ groups) : rowsOf k (c.waveResults store batchSize groups roots) =
      (c.groupStatements batchSize roots k).flatMap fun t => store.evaluate t.2 := by
  induction groups with
  | nil => exact absurd hk List.not_mem_nil
  | cons g groups ih =>
    obtain ⟨hg, hnodup⟩ := List.nodup_cons.1 hnodup
    rw [rowsOf_waveResults_cons]
    rcases List.mem_cons.1 hk with rfl | hk
    · rw [rowsOf_groupStatements, rowsOf_waveResults_of_not_mem hg, List.append_nil]
    · have hne : g ≠ k := fun heq => hg (heq ▸ hk)
      rw [rowsOf_groupStatements_of_ne hne, ih hnodup hk]
      rfl

/-! ### Records as a function of what is loaded -/

variable {f : List Nat → List Record} {done : List Nat}

/-- Groups that add what a function says, one after the other. -/
theorem attachAll_eq {results : List (Nat × List Row)} {groups : List Nat}
    (step : ∀ before k after, groups = before ++ k :: after →
      c.attach (f (done ++ before)) k (rowsOf k results) = .ok (f (done ++ before ++ [k]))) :
    c.attachAll results groups (f done) = (f (done ++ groups), none) := by
  induction groups generalizing done with
  | nil => rw [List.append_nil]; rfl
  | cons k groups ih =>
    have hfirst := step [] k groups rfl
    rw [List.append_nil] at hfirst
    rw [attachAll, hfirst]
    simp only
    rw [ih fun before k' after hsplit => ?_, List.append_assoc]
    · rfl
    · have := step (k :: before) k' after (by rw [hsplit]; rfl)
      simpa only [List.append_assoc, List.cons_append, List.nil_append] using this

/-- Waves of groups that add what a function says. The keys are those of the owners at the
    start of each wave. -/
theorem runWaves_eq (hx : x.Answers store inv) (hinv : inv state) {waves : List (List Nat)}
    (hnodup : ∀ wave ∈ waves, wave.Nodup)
    (step : ∀ before wave after, waves = before ++ wave :: after →
      ∀ gs k gs', wave = gs ++ k :: gs' →
        c.attach (f (done ++ before.flatten ++ gs)) k
          ((c.groupStatements batchSize (f (done ++ before.flatten)) k).flatMap
            fun t => store.evaluate t.2) = .ok (f (done ++ before.flatten ++ gs ++ [k]))) :
    (c.runWaves x batchSize waves (f done) state).1 = (f (done ++ waves.flatten), none) := by
  induction waves generalizing done state with
  | nil => rw [List.flatten_nil, List.append_nil]; rfl
  | cons wave waves ih =>
    have hone : c.attachAll (c.waveResults store batchSize wave (f done)) wave (f done) =
        (f (done ++ wave), none) := by
      refine attachAll_eq fun gs k gs' hsplit => ?_
      have hk : k ∈ wave := hsplit ▸ List.mem_append_right _ List.mem_cons_self
      -- The statements of a wave are made before any of its groups is attached.
      rw [rowsOf_waveResults (hnodup wave List.mem_cons_self) hk]
      have := step [] wave waves rfl gs k gs' hsplit
      simpa only [List.flatten_nil, List.append_nil] using this
    obtain ⟨state', hinv', hrest⟩ := exists_runWaves_cons hx hinv waves hone
    rw [hrest, ih hinv' (fun w hw => hnodup w (List.mem_cons_of_mem _ hw))
      fun before w after hsplit => ?_, List.flatten_cons, List.append_assoc]
    have := step (wave :: before) w after (by rw [hsplit]; rfl)
    simpa only [List.flatten_cons, List.append_assoc] using this

end CompiledPlan

namespace Planner

variable {p : Planner} {c : CompiledPlan}

/-- A fetch gives what follows from the records of its root. -/
theorem exists_runCompiled {P : List Record → Prop} (hx : x.Answers store inv) (hinv : inv state)
    {primary : CompiledStatement} (hprimary : c.primary? = some primary) {roots : List Record}
    (hroots : primary.assemble (store.evaluate primary.statement) = .ok roots)
    (hdispatch : ∀ state', inv state' →
      ∃ rs, (c.dispatch x p.config.loading.batchSize roots state').1 = (rs, none) ∧ P rs) :
    ∃ rs, (p.runCompiled x c state).1 = .ok rs ∧ P rs := by
  have hrun := hx.run_eq hinv primary.statement
  have hstays := hx.stays primary.statement state hinv
  unfold runCompiled
  rw [hprimary]
  simp only
  rcases heq : x.run primary.statement state with ⟨answer, state'⟩
  rw [heq] at hrun hstays
  obtain rfl : answer = .ok (store.evaluate primary.statement) := hrun
  -- Assembling needs no statement, so that the state after the first one is that of the dispatch.
  obtain ⟨rs, hrs, hP⟩ := hdispatch state' hstays
  refine ⟨rs, ?_, hP⟩
  simp only
  rw [hroots]
  simp only
  rcases hwhole : c.dispatch x p.config.loading.batchSize roots state' with ⟨result, state''⟩
  rw [hwhole] at hrs
  obtain rfl : result = (rs, none) := hrs
  rfl

/-- A fetch of which the root and every group give what a function says. -/
theorem runCompiled_eq_ok {f : List Nat → List Record} (hx : x.Answers store inv)
    (hinv : inv state) {primary : CompiledStatement} (hprimary : c.primary? = some primary)
    (hroots : primary.assemble (store.evaluate primary.statement) = .ok (f [0]))
    (hnodup : ∀ wave ∈ c.plan.waves, wave.Nodup)
    (step : ∀ before wave after, c.plan.waves = before ++ wave :: after →
      ∀ gs k gs', wave = gs ++ k :: gs' →
        c.attach (f (0 :: before.flatten ++ gs)) k
          ((c.groupStatements p.config.loading.batchSize (f (0 :: before.flatten)) k).flatMap
            fun t => store.evaluate t.2) = .ok (f (0 :: before.flatten ++ gs ++ [k]))) :
    (p.runCompiled x c state).1 = .ok (f (0 :: c.plan.waves.flatten)) := by
  obtain ⟨rs, hrs, rfl⟩ := exists_runCompiled (p := p)
    (P := fun rs => rs = f (0 :: c.plan.waves.flatten)) hx hinv hprimary hroots fun state' hinv' =>
      ⟨_, CompiledPlan.runWaves_eq hx hinv' hnodup step, rfl⟩
  exact hrs

end Planner

end EntityFetch
