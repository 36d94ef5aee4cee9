import EntityFetch.Execution.Session
import EntityFetch.Fetch
import EntityFetch.Proofs.Success

/-!
# Fetches that succeed

If a fetch succeeds, all its statements were answered. An executor that answers
from a store as long as it answers at all (`Executor.ReadsFrom`) has then given the
rows that the store reads, for the root (`Planner.exists_of_fetchMany`) and for
every group of every wave. What every attachment of a group keeps holds of the records
in the end (`CompiledPlan.dispatch_induct`), whatever the rows are
(`CompiledPlan.dispatch_induct_done`).
-/

namespace EntityFetch

variable {σ : Type}

/-- An executor whose answers are those of a store, while its state satisfies a
    condition. -/
structure Executor.ReadsFrom (x : Executor σ) (store : Store) (inv : σ → Prop) : Prop where
  answers : ∀ (s : Statement) (state : σ) (rows : List Row), inv state →
    (x.run s state).1 = .ok rows → rows = store.evaluate s
  stays : ∀ (s : Statement) (state : σ), inv state → inv (x.run s state).2

/-- A store that answers at all answers with what it reads. -/
theorem Store.eq_evaluate_of_answer {store : Store} {s : Statement} {rows : List Row}
    (h : store.answer s = .ok rows) : rows = store.evaluate s := by
  unfold answer at h
  split at h
  · split at h
    · exact nomatch h
    · exact (Except.ok.inj h).symm
  · exact (Except.ok.inj h).symm

/-- Rows with which the store of a session replies are those that it reads. -/
theorem Session.eq_evaluate_of_storeReply {s : Session} {statement : Statement} {rows : List Row}
    (h : s.storeReply statement = .rows rows) : rows = s.store.evaluate statement := by
  unfold storeReply at h
  split at h
  · next answered heq =>
    obtain rfl := Reply.rows.inj h
    exact Store.eq_evaluate_of_answer heq
  · exact nomatch h

/-- Rows that a session without prepared answers replies are those of its store. -/
theorem Session.eq_evaluate_of_reply {s : Session} {statement : Statement} {rows : List Row}
    (hanswers : s.rehearsal.answers = []) (h : s.reply statement = .rows rows) :
    rows = s.store.evaluate statement := by
  unfold reply at h
  rw [hanswers] at h
  split at h
  · exact nomatch h
  · exact eq_evaluate_of_storeReply h

/-- A session without prepared answers answers from its store. -/
theorem Session.readsFrom (store : Store) : Session.executor.ReadsFrom store fun s =>
    s.store = store ∧ s.rehearsal.answers = [] where
  answers statement s rows := by
    rintro ⟨rfl, hanswers⟩ h
    refine eq_evaluate_of_reply hanswers ?_
    unfold Executor.run at h
    split at h
    · exact nomatch h
    · split at h
      · next heq =>
        obtain rfl := Except.ok.inj h
        exact congrArg Prod.fst heq
      · exact nomatch h
      · exact nomatch h
  stays statement s := by
    rintro ⟨hstore, hanswers⟩
    unfold Executor.run
    split
    · exact ⟨hstore, hanswers⟩
    · split <;> next heq =>
        rw [← congrArg Prod.snd heq]
        exact ⟨hstore, hanswers⟩

variable {x : Executor σ} {store : Store} {inv : σ → Prop}

/-- All statements that are run have been answered from the store. -/
theorem Executor.ReadsFrom.runAll (hx : x.ReadsFrom store inv) {τ : Type}
    {statements : List (τ × Statement)} {state : σ} {results : List (τ × List Row)}
    (hinv : inv state) (h : (x.runAll statements state).1 = .ok results) :
    results = statements.map (fun t => (t.1, store.evaluate t.2)) ∧
      inv (x.runAll statements state).2 := by
  induction statements generalizing state results with
  | nil => exact ⟨(Except.ok.inj h).symm, hinv⟩
  | cons t rest ih =>
    obtain ⟨tag, s⟩ := t
    have hstays := hx.stays s state hinv
    have hanswers := hx.answers s state
    simp only [Executor.runAll] at h ⊢
    cases hrun : x.run s state with
    | mk answer state' =>
      rw [hrun] at h hstays hanswers
      cases answer with
      | error e => exact nomatch h
      | ok rows =>
        simp only at h hstays hanswers ⊢
        -- The rest is run in the state that the first statement leaves.
        have ih : ∀ results, (x.runAll rest state').1 = .ok results →
            results = rest.map (fun t => (t.1, store.evaluate t.2)) ∧
              inv (x.runAll rest state').2 := fun _ => ih hstays
        cases hrest : x.runAll rest state' with
        | mk answers state'' =>
          rw [hrest] at h ih
          cases answers with
          | error e => exact nomatch h
          | ok results' =>
            obtain ⟨hresults, hinv'⟩ := ih results' rfl
            obtain rfl := Except.ok.inj h
            rw [List.map_cons, ← hresults, hanswers rows hinv rfl]
            exact ⟨rfl, hinv'⟩

namespace CompiledPlan

variable {c : CompiledPlan} {batchSize : Nat} {roots rs : List Record} {state : σ}

/-- The results of a wave, read from the store. -/
def waveResults (c : CompiledPlan) (store : Store) (batchSize : Nat) (groups : List Nat)
    (roots : List Record) : List (Nat × List Row) :=
  (groups.flatMap (c.groupStatements batchSize roots)).map fun t => (t.1, store.evaluate t.2)

/-- Attaching several groups is attaching one after the other. -/
theorem attachAll_cons {results : List (Nat × List Row)} {group : Nat} {groups : List Nat}
    (h : c.attachAll results (group :: groups) roots = (rs, none)) :
    ∃ roots', c.attach roots group (rowsOf group results) = .ok roots' ∧
      c.attachAll results groups roots' = (rs, none) := by
  unfold attachAll at h
  split at h
  · next roots' heq => exact ⟨roots', heq, h⟩
  · exact nomatch (Prod.mk.inj h).2

/-- Running several waves is running one after the other. -/
theorem exists_of_runWaves_cons {wave : List Nat} {waves : List (List Nat)}
    (h : (c.runWaves x batchSize (wave :: waves) roots state).1 = (rs, none)) :
    ∃ results roots' state',
      x.runAll (wave.flatMap (c.groupStatements batchSize roots)) state = (.ok results, state') ∧
      c.attachAll results wave roots = (roots', none) ∧
      c.runWaves x batchSize (wave :: waves) roots state =
        c.runWaves x batchSize waves roots' state' := by
  rw [runWaves, runWave] at h ⊢
  rcases hrun : x.runAll (wave.flatMap (c.groupStatements batchSize roots)) state with
    ⟨_ | results, state'⟩
  · rw [hrun] at h
    exact nomatch (Prod.mk.inj h).2
  · rw [hrun] at h
    rcases hattach : c.attachAll results wave roots with ⟨roots', _ | e⟩
    · exact ⟨results, roots', state', rfl, hattach, by simp only [hattach]⟩
    · simp only [hattach] at h
      exact nomatch (Prod.mk.inj h).2

/-- The statements of a group are the group's statement with some keys to look up. -/
theorem exists_of_mem_groupStatements {k : Nat} {t : Nat × Statement}
    (h : t ∈ c.groupStatements batchSize roots k) :
    ∃ cs keys, c.statement? k = some cs ∧ t = (k, cs.statement.bindKeys keys) := by
  rw [groupStatements] at h
  split at h
  · next r cs hr hcs =>
    obtain ⟨keys, -, rfl⟩ := List.mem_map.1 h
    exact ⟨cs, keys, hcs, rfl⟩
  · exact absurd h List.not_mem_nil

/-- The rows of a group come from its statement, with some keys to look up. -/
theorem exists_of_mem_rowsOf {groups : List Nat} {group : Nat} {row : Row}
    (h : row ∈ rowsOf group (c.waveResults store batchSize groups roots)) :
    ∃ template, c.statement? group = some template ∧
      ∃ keys, row ∈ store.evaluate (template.statement.bindKeys keys) := by
  obtain ⟨result, hresult, hrow⟩ := List.mem_flatMap.1 h
  obtain ⟨hresult, hgroup⟩ := List.mem_filter.1 hresult
  obtain ⟨t, ht, rfl⟩ := List.mem_map.1 hresult
  obtain ⟨group', -, ht⟩ := List.mem_flatMap.1 ht
  obtain ⟨template, keys, htemplate, rfl⟩ := exists_of_mem_groupStatements ht
  obtain rfl := eq_of_beq hgroup
  exact ⟨template, htemplate, keys, hrow⟩

section Induct

variable {I : σ → Prop} {G : Nat → Row → Prop} {P : List Nat → List Record → Prop}
  {order : List Nat}
  (step : ∀ (done : List Nat) (group : Nat) (after : List Nat) (rows : List Row)
    (rs rs' : List Record), done ++ group :: after = order → (∀ row ∈ rows, G group row) →
      P done rs → c.attach rs group rows = .ok rs' → P (done ++ [group]) rs')

include step

/-- What every attachment keeps holds after those of a wave. -/
theorem attachAll_induct {results : List (Nat × List Row)} {done groups after : List Nat}
    (horder : done ++ groups ++ after = order)
    (hrows : ∀ group, ∀ row ∈ rowsOf group results, G group row) (start : P done roots)
    (h : c.attachAll results groups roots = (rs, none)) : P (done ++ groups) rs := by
  induction groups generalizing done roots with
  | nil =>
    rw [List.append_nil]
    exact (Prod.mk.inj h).1 ▸ start
  | cons group groups ih =>
    obtain ⟨roots', hone, hrest⟩ := attachAll_cons h
    have hsplit : done ++ group :: (groups ++ after) = order := by
      rw [← horder, List.append_assoc, List.cons_append]
    have hgroup := step done group _ _ roots roots' hsplit (hrows group) start hone
    rw [← List.singleton_append, ← List.append_assoc]
    exact ih (by simpa using horder) hgroup hrest

/-- What every attachment keeps holds after some waves. -/
theorem runWaves_induct (hrun : ∀ (wave : List Nat) roots state results state', I state →
      x.runAll (wave.flatMap (c.groupStatements batchSize roots)) state = (.ok results, state') →
        I state' ∧ ∀ group, ∀ row ∈ rowsOf group results, G group row)
    {waves : List (List Nat)} {done : List Nat} (horder : done ++ waves.flatten = order)
    (hI : I state) (start : P done roots)
    (h : (c.runWaves x batchSize waves roots state).1 = (rs, none)) :
    P (done ++ waves.flatten) rs := by
  induction waves generalizing done roots state with
  | nil =>
    rw [List.flatten_nil, List.append_nil]
    exact (Prod.mk.inj h).1 ▸ start
  | cons wave waves ih =>
    rw [List.flatten_cons, ← List.append_assoc] at horder ⊢
    obtain ⟨results, roots', state', hall, hattach, hrest⟩ := exists_of_runWaves_cons h
    obtain ⟨hI', hrows⟩ := hrun wave roots state results state' hI hall
    exact ih horder hI' (attachAll_induct step horder hrows start hattach) (hrest ▸ h)

end Induct

/-- What every attachment of any rows keeps holds in the end. The attachments know which
    groups come before. -/
theorem dispatch_induct_done {P : List Nat → List Record → Prop}
    (step : ∀ (done : List Nat) (group : Nat) (after : List Nat) (rows : List Row)
      (rs rs' : List Record), done ++ group :: after = c.plan.waves.flatten → P done rs →
        c.attach rs group rows = .ok rs' → P (done ++ [group]) rs')
    (start : P [] roots) (h : (c.dispatch x batchSize roots state).1 = (rs, none)) :
    P c.plan.waves.flatten rs :=
  runWaves_induct (I := fun _ => True) (G := fun _ _ => True)
    (fun done group after rows rs rs' horder _ => step done group after rows rs rs' horder)
    (fun _ _ _ _ _ _ _ => ⟨trivial, fun _ _ _ => trivial⟩) (List.nil_append _) trivial start h

/-- What every attachment of rows of a group's statement keeps holds in the end. -/
theorem dispatch_induct {P : List Record → Prop}
    (step : ∀ (group : Nat) (rows : List Row) (rs rs' : List Record),
      (∀ row ∈ rows, ∃ template, c.statement? group = some template ∧
        ∃ keys, row ∈ store.evaluate (template.statement.bindKeys keys)) →
      P rs → c.attach rs group rows = .ok rs' → P rs')
    (hx : x.ReadsFrom store inv) (hinv : inv state) (start : P roots)
    (h : (c.dispatch x batchSize roots state).1 = (rs, none)) : P rs := by
  refine runWaves_induct (I := inv) (P := fun _ rs => P rs)
    (fun _ group _ rows rs rs' _ => step group rows rs rs') ?_ (List.nil_append _) hinv start h
  intro wave roots state results state' hinv hall
  obtain ⟨hresults, hinv'⟩ := hx.runAll hinv (congrArg Prod.fst hall)
  rw [hall] at hinv'
  obtain rfl : results = c.waveResults store batchSize wave roots := hresults
  exact ⟨hinv', fun _ _ hrow => exists_of_mem_rowsOf hrow⟩

end CompiledPlan

namespace Planner

variable {p : Planner} {req : FetchRequest} {state : σ} {rs : List Record}

/-- A fetch that succeeds has assembled the rows of its first statement and attached what
    follows. -/
theorem fetchMany_eq_ok (h : (p.fetchMany x req state).1 = .ok rs) :
    ∃ c primary rows roots state', p.prepare req = .ok c ∧ c.primary? = some primary ∧
      x.run primary.statement state = (.ok rows, state') ∧ primary.assemble rows = .ok roots ∧
      (c.dispatch x p.config.loading.batchSize roots state').1 = (rs, none) := by
  unfold fetchMany at h
  -- The stages of a fetch, one after the other; each ends it if it fails.
  rcases hprepare : p.prepare req with e | c
  · rw [hprepare] at h
    exact nomatch h
  rw [hprepare] at h
  simp only [runCompiled] at h
  rcases hprimary : c.primary? with _ | primary
  · rw [hprimary] at h
    exact nomatch h
  rw [hprimary] at h
  simp only at h
  rcases hrun : x.run primary.statement state with ⟨e | rows, state'⟩
  · rw [hrun] at h
    exact nomatch h
  rw [hrun] at h
  simp only at h
  rcases hassemble : primary.assemble rows with e | roots
  · rw [hassemble] at h
    exact nomatch h
  rw [hassemble] at h
  simp only at h
  split at h
  · exact nomatch h
  · next records state'' heq =>
    refine ⟨c, primary, rows, roots, state', rfl, hprimary, hrun, hassemble, ?_⟩
    rw [heq, Except.ok.inj h]

/-- A fetch that succeeds has assembled what the store reads for the root and
    attached what follows. -/
theorem exists_of_fetchMany (hx : x.ReadsFrom store inv) (hinv : inv state)
    (h : (p.fetchMany x req state).1 = .ok rs) :
    ∃ c primary roots state', p.prepare req = .ok c ∧ c.primary? = some primary ∧
      primary.assemble (store.evaluate primary.statement) = .ok roots ∧ inv state' ∧
      (c.dispatch x p.config.loading.batchSize roots state').1 = (rs, none) := by
  obtain ⟨c, primary, rows, roots, state', hprepare, hprimary, hrun, hassemble, hdispatch⟩ :=
    fetchMany_eq_ok h
  have hanswers := hx.answers primary.statement state rows hinv (congrArg Prod.fst hrun)
  have hstays := hx.stays primary.statement state hinv
  rw [hrun] at hstays
  exact ⟨c, primary, roots, state', hprepare, hprimary, hanswers ▸ hassemble, hstays, hdispatch⟩

end Planner

end EntityFetch
