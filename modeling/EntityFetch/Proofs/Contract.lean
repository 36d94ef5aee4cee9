import EntityFetch.Proofs.Answer
import EntityFetch.Proofs.Assemble
import EntityFetch.Proofs.Fetch
import EntityFetch.Proofs.Prepare

/-!
# Rows that carry what is read

An executor keeps its contract if a row with which it answers a statement has a value at
every column that the statement reads (`Executor.Carries`). More is not needed to assemble
records: whatever the values are, each row gives a record
(`Reading.IsSound.exists_assembleRow`), and a group can be attached to any records at all
(`CompiledPlan.IsPrepared.exists_attach`).

The contract is asked for where columns are read at the aliases of the statement only
(`Statement.IsClosed`). All statements of a compiled plan are such.
-/

namespace EntityFetch

namespace Statement

/-- Whether columns are read at aliases of the statement only. -/
def IsClosed (s : Statement) : Prop :=
  ∀ c ∈ s.columns, c.aliasName ∈ s.aliases

/-- Whether a row has a value at every column that a statement reads. -/
def IsCarriedBy (s : Statement) (row : Row) : Prop :=
  ∀ c ∈ s.columns, ∃ v, row.get? c.aliasName c.column = some v

theorem IsClosed.bindKeys {s : Statement} (h : s.IsClosed) (keys : List Value) :
    (s.bindKeys keys).IsClosed :=
  h

end Statement

variable {σ : Type} {x : Executor σ} {inv : σ → Prop}

/-! ### Executors -/

namespace Executor

/-- An executor that answers a statement with an error or with rows that have a value at every
    column, while its state satisfies a condition. -/
structure Carries (x : Executor σ) (inv : σ → Prop) : Prop where
  rows : ∀ (s : Statement) (state state' : σ) (rows : List Row), inv state → s.IsClosed →
    x.execute s state = (.rows rows, state') → ∀ row ∈ rows, s.IsCarriedBy row
  stays : ∀ (s : Statement) (state state' : σ) (rows : List Row), inv state →
    x.execute s state = (.rows rows, state') → inv state'

/-- A statement is answered if the fetch is not cancelled and there are rows. -/
theorem run_eq_ok_iff {s : Statement} {state state' : σ} {rows : List Row} :
    x.run s state = (.ok rows, state') ↔
      x.isCancelled state = false ∧ x.execute s state = (.rows rows, state') := by
  rw [run]
  cases x.isCancelled state with
  | true => simp
  | false =>
    rcases x.execute s state with ⟨_ | _ | _, _⟩ <;> simp

variable {τ : Type} {tag : τ} {s : Statement} {statements rest : List (τ × Statement)}
  {results : List (τ × List Row)} {state state' : σ} {e : QueryError}

/-- Statements are answered if the first one is, and the others after it. -/
theorem runAll_cons_eq_ok (h : x.runAll ((tag, s) :: rest) state = (.ok results, state')) :
    ∃ rows mid results', x.run s state = (.ok rows, mid) ∧
      x.runAll rest mid = (.ok results', state') ∧ results = (tag, rows) :: results' := by
  rw [runAll] at h
  rcases hrun : x.run s state with ⟨_ | rows, mid⟩
  · rw [hrun] at h
    cases (Prod.mk.inj h).1
  · simp only [hrun] at h
    rcases hrest : x.runAll rest mid with ⟨_ | results', late⟩
    · rw [hrest] at h
      cases (Prod.mk.inj h).1
    · rw [hrest] at h
      obtain ⟨hresults, rfl⟩ := Prod.mk.inj h
      exact ⟨rows, mid, results', rfl, hrest, (Except.ok.inj hresults).symm⟩

/-- Statements are run up to the first one that fails. The error is that of this one. -/
theorem runAll_eq_error (h : x.runAll statements state = (.error e, state')) :
    ∃ before tag s after results mid, statements = before ++ (tag, s) :: after ∧
      x.runAll before state = (.ok results, mid) ∧ x.run s mid = (.error e, state') := by
  induction statements generalizing state with
  | nil => cases (Prod.mk.inj h).1
  | cons t rest ih =>
    obtain ⟨tag, s⟩ := t
    rw [runAll] at h
    rcases hrun : x.run s state with ⟨_ | rows, mid⟩
    · rw [hrun] at h
      obtain ⟨herror, rfl⟩ := Prod.mk.inj h
      exact ⟨[], tag, s, rest, [], state, rfl, rfl, Except.error.inj herror ▸ hrun⟩
    · simp only [hrun] at h
      rcases hrest : x.runAll rest mid with ⟨_ | _, _⟩
      · -- The first statement succeeds, so that one of the others fails.
        rw [hrest] at h
        obtain ⟨herror, rfl⟩ := Prod.mk.inj h
        obtain rfl := Except.error.inj herror
        obtain ⟨before, tag', s', after, results, late, rfl, hbefore, hfails⟩ := ih hrest
        refine ⟨(tag, s) :: before, tag', s', after, (tag, rows) :: results, late, rfl, ?_, hfails⟩
        rw [runAll, hrun]
        simp only
        rw [hbefore]
      · rw [hrest] at h
        cases (Prod.mk.inj h).1

/-- The rows for some statements carry what they read. -/
theorem Carries.of_runAll (hx : x.Carries inv) (hinv : inv state)
    (hclosed : ∀ t ∈ statements, t.2.IsClosed)
    (h : x.runAll statements state = (.ok results, state')) :
    inv state' ∧ ∀ result ∈ results, ∃ t ∈ statements, t.1 = result.1 ∧
      ∀ row ∈ result.2, t.2.IsCarriedBy row := by
  induction statements generalizing state results with
  | nil =>
    obtain ⟨hresults, rfl⟩ := Prod.mk.inj h
    obtain rfl := Except.ok.inj hresults
    exact ⟨hinv, List.forall_mem_nil _⟩
  | cons t rest ih =>
    obtain ⟨tag, s⟩ := t
    obtain ⟨rows, mid, results', hrun, hrest, rfl⟩ := runAll_cons_eq_ok h
    obtain ⟨-, hexecute⟩ := run_eq_ok_iff.1 hrun
    rw [List.forall_mem_cons] at hclosed
    obtain ⟨hinv', hcarried⟩ := ih (hx.stays s state mid rows hinv hexecute) hclosed.2 hrest
    refine ⟨hinv', List.forall_mem_cons.2
      ⟨⟨(tag, s), List.mem_cons_self, rfl, hx.rows s state mid rows hinv hclosed.1 hexecute⟩, ?_⟩⟩
    intro result hresult
    obtain ⟨t, ht, htag⟩ := hcarried result hresult
    exact ⟨t, List.mem_cons_of_mem _ ht, htag⟩

end Executor

/-! ### Stores -/

namespace Store

/-- A row of a statement has a value at every column of some aliases. -/
def Fills (s : Statement) (aliases : List String) (row : Row) : Prop :=
  ∀ c ∈ s.columns, c.aliasName ∈ aliases → ∃ v, row.get? c.aliasName c.column = some v

variable {s : Statement} {aliases : List String} {row row' : Row}

theorem Fills.nil (s : Statement) (row : Row) : Fills s [] row :=
  fun _ _ h => absurd h List.not_mem_nil

/-- The columns of one more alias are filled. -/
theorem Fills.insertAll (h : Fills s aliases row) (aliasName : String) (value : String → Value) :
    Fills s (aliases ++ [aliasName]) (row.insertAll aliasName (s.columnsOf aliasName) value) := by
  intro c hc halias
  rw [Row.get?_insertAll]
  split
  · exact ⟨_, rfl⟩
  · next hother =>
    rcases List.mem_append.1 halias with hbefore | hnew
    · exact h c hc hbefore
    · have hname := List.mem_singleton.1 hnew
      exact absurd ⟨hname, List.mem_map_of_mem
        (List.mem_filter.2 ⟨hc, beq_iff_eq.2 hname⟩)⟩ hother

/-- A join fills its columns, with nulls if there is nothing to join. -/
theorem Fills.of_joinRow (h : Fills s aliases row) {table : List TableRow} {j : Join}
    (hrow : row' ∈ joinRow s table j row) : Fills s (aliases ++ [j.aliasName]) row' := by
  simp only [joinRow] at hrow
  split at hrow
  · exact absurd hrow List.not_mem_nil
  · rw [List.mem_singleton.1 hrow]
    exact h.insertAll j.aliasName _
  · obtain ⟨candidate, -, rfl⟩ := List.mem_map.1 hrow
    exact h.insertAll j.aliasName candidate.value

/-- The rows that a store reads have a value at every column. -/
theorem isCarriedBy_of_mem_evaluate {store : Store} (hclosed : s.IsClosed)
    (h : row ∈ store.evaluate s) : s.IsCarriedBy row := by
  have hjoined : ∀ row ∈ store.joinedRows s, Fills s s.aliases row := by
    refine foldl_induct (fun before (rows : List Row) => ∀ row ∈ rows,
      Fills s (s.root.aliasName :: before.map Join.aliasName) row) (fun row hrow => ?_) ?_
    · obtain ⟨r, -, rfl⟩ := List.mem_map.1 hrow
      exact (Fills.nil s _).insertAll _ r.value
    · intro before j rows _ hrows row' hrow'
      obtain ⟨row, hrow, hrow'⟩ := List.mem_flatMap.1 hrow'
      rw [List.map_append, ← List.cons_append]
      exact (hrows row hrow).of_joinRow hrow'
  exact fun c hc => hjoined row (mem_joinedRows h) c hc (hclosed c hc)

end Store

/-- A statement is put in the log and counted, whatever the answer is. -/
theorem Session.eq_of_execute {s s' : Session} {st : Statement} {r : Reply}
    (h : Session.executor.execute st s = (r, s')) :
    s' = { s with log := st :: s.log, count := s.count + 1 } :=
  (congrArg Prod.snd h).symm

/-- The rows of a session carry what is read, unless other rows are prepared for it. -/
theorem Session.carries :
    Session.executor.Carries fun s => ∀ a ∈ s.rehearsal.answers, ∃ e, a.2 = .failure e where
  rows statement s s' rows hanswers hclosed h := by
    have hreply : s.reply statement = .rows rows := congrArg Prod.fst h
    rw [reply] at hreply
    split at hreply
    · cases hreply
    · -- What is rehearsed are failures, so that rows come from the store.
      cases hlookup : s.rehearsal.answers.lookup s.count with
      | some answer =>
        obtain ⟨e, he⟩ := hanswers _ (Assoc.mem_of_lookup hlookup)
        rw [hlookup, Option.getD_some] at hreply
        cases he.symm.trans hreply
      | none =>
        rw [hlookup, Option.getD_none] at hreply
        rw [eq_evaluate_of_storeReply hreply]
        exact fun row => Store.isCarriedBy_of_mem_evaluate hclosed
  stays statement s s' rows hanswers h := Session.eq_of_execute h ▸ hanswers

/-! ### Statements of a plan -/

namespace Reading

variable {k : Compiler} {plan : LoadPlan} {scope : QueryScope} {root : Entity} {R : Reading}

/-- A statement that is compiled reads columns at its own aliases. -/
theorem isClosed_statement (R : Reading) (scope : QueryScope) : (R.statement scope).IsClosed := by
  intro c hc
  obtain ⟨t, ht, hc⟩ := List.mem_flatMap.1 (show c ∈ R.slots.flatMap Slot.columnRefs from hc)
  obtain ⟨column, -, rfl⟩ := List.mem_map.1 hc
  rcases List.mem_cons.1 ht with rfl | ht
  · exact List.mem_cons_self
  · obtain ⟨j, hj, rfl⟩ := List.mem_map.1 ht
    exact List.mem_cons_of_mem _ (List.mem_map.2 ⟨j.join, List.mem_map_of_mem hj, rfl⟩)

/-- The row of a table that is found at a slot of a row. -/
def rowAt (row : Row) (s : Slot) : TableRow :=
  (row.alias? s.aliasName).getD []

/-- A row that carries what a statement reads gives a record, whatever the values are. -/
theorem IsSound.exists_assembleRow (h : R.IsSound k plan scope)
    (hsel : plan.IsSelected k.catalog root) (hgroup : R.group ∈ plan.groups) {row : Row}
    (hrow : (R.statement scope).IsCarriedBy row) :
    ∃ r, (R.compiled scope).assembleRow row = .ok r := by
  -- The row is read as a combination that has at every slot what is found there.
  have hread : ∀ (i : Nat) (s : Slot), R.slots[i]? = some s → s.read row =
      .ok (s.record (Combination.at? (R.slots.map fun s => some (rowAt row s)) i)) := by
    intro i s hs
    rw [Combination.at?, List.getElem?_map, hs]
    refine Slot.read_eq_ok fun c hc => ?_
    obtain ⟨v, hv⟩ := hrow { aliasName := s.aliasName, column := c }
      (List.mem_flatMap.2 ⟨s, List.mem_of_getElem? hs, List.mem_map_of_mem hc⟩)
    obtain ⟨values, hvalues, hlookup⟩ := Option.bind_eq_some_iff.1 hv
    have hvalue : cell (some (rowAt row s)) c = v := by
      rw [cell, Option.map_some, Option.getD_some, TableRow.value, rowAt, hvalues,
        Option.getD_some, hlookup]
      rfl
    exact hv.trans (congrArg some hvalue.symm)
  obtain ⟨_, r, -, -, hr⟩ := exists_isAssembled_of_read (h.isLinked hsel hgroup) hread scope
  exact ⟨r, hr⟩

/-- Rows that carry what a statement reads give records. -/
theorem IsSound.exists_assemble (h : R.IsSound k plan scope)
    (hsel : plan.IsSelected k.catalog root) (hgroup : R.group ∈ plan.groups) {rows : List Row}
    (hrows : ∀ row ∈ rows, (R.statement scope).IsCarriedBy row) :
    ∃ records, (R.compiled scope).assemble rows = .ok records := by
  obtain ⟨all, hall⟩ := exists_mapM_eq_ok fun row hrow =>
    h.exists_assembleRow hsel hgroup (hrows row hrow)
  exact ⟨_, bind_eq_ok.2 ⟨all, hall, rfl⟩⟩

end Reading

namespace CompiledPlan

variable {p : Planner} {req : FetchRequest} {root : Entity} {c : CompiledPlan} {k batchSize : Nat}
  {roots : List Record}

/-- Whether a row carries what the statement of a group reads. -/
def IsCarriedBy (c : CompiledPlan) (k : Nat) (row : Row) : Prop :=
  ∀ cs, c.statement? k = some cs → cs.statement.IsCarriedBy row

namespace IsPrepared

/-- All statements of a wave are closed. -/
theorem isClosed_of_mem (h : c.IsPrepared p req root) {wave : List Nat} {t : Nat × Statement}
    (ht : t ∈ wave.flatMap (c.groupStatements batchSize roots)) : t.2.IsClosed := by
  obtain ⟨k, -, ht⟩ := List.mem_flatMap.1 ht
  obtain ⟨cs, keys, hcs, rfl⟩ := exists_of_mem_groupStatements ht
  obtain ⟨R, -, -, rfl⟩ := h.reading k cs hcs
  exact (R.isClosed_statement _).bindKeys keys

/-- When a wave is answered, every group has rows that carry what its statement reads. -/
theorem isCarriedBy_of_runAll {x : Executor σ} {inv : σ → Prop} (h : c.IsPrepared p req root)
    (hx : x.Carries inv) {wave : List Nat} {state state' : σ} {results : List (Nat × List Row)}
    (hinv : inv state)
    (hall : x.runAll (wave.flatMap (c.groupStatements batchSize roots)) state =
      (.ok results, state')) :
    inv state' ∧ ∀ k, ∀ row ∈ rowsOf k results, c.IsCarriedBy k row := by
  obtain ⟨hinv', hcarried⟩ := hx.of_runAll hinv (fun _ => h.isClosed_of_mem) hall
  refine ⟨hinv', fun k row hrow cs hcs => ?_⟩
  obtain ⟨result, hfiltered, hmem⟩ := List.mem_flatMap.1 hrow
  obtain ⟨hresult, hk⟩ := List.mem_filter.1 hfiltered
  obtain ⟨t, ht, htag, hrows⟩ := hcarried result hresult
  obtain ⟨k', -, ht⟩ := List.mem_flatMap.1 ht
  obtain ⟨cs', keys, hcs', rfl⟩ := exists_of_mem_groupStatements ht
  obtain rfl : k' = k := htag.trans (beq_iff_eq.1 hk)
  obtain rfl := Option.some.inj (hcs.symm.trans hcs')
  exact hrows row hmem

/-- When a wave is not answered, one of its statements fails after others that are answered. -/
theorem exists_run_eq_error {x : Executor σ} {inv : σ → Prop} (h : c.IsPrepared p req root)
    (hx : x.Carries inv) {wave : List Nat} {state state' : σ} {e : QueryError}
    (hinv : inv state)
    (hall : x.runAll (wave.flatMap (c.groupStatements batchSize roots)) state =
      (.error e, state')) :
    ∃ s mid, inv mid ∧ x.run s mid = (.error e, state') := by
  obtain ⟨before, tag, s, after, results, mid, hsplit, hbefore, hfails⟩ :=
    Executor.runAll_eq_error hall
  have hclosed : ∀ t ∈ before, t.2.IsClosed := fun t ht =>
    h.isClosed_of_mem (hsplit ▸ List.mem_append_left _ ht)
  exact ⟨s, mid, (hx.of_runAll hinv hclosed hbefore).1, hfails⟩

/-- The rows that a store reads for a group carry what its statement reads. -/
theorem isCarriedBy_of_mem_evaluate (h : c.IsPrepared p req root) {store : Store} {row : Row}
    (hrow : ∃ cs, c.statement? k = some cs ∧
      ∃ keys, row ∈ store.evaluate (cs.statement.bindKeys keys)) : c.IsCarriedBy k row := by
  obtain ⟨cs, hcs, keys, hrow⟩ := hrow
  intro cs' hcs'
  obtain rfl := Option.some.inj (hcs.symm.trans hcs')
  obtain ⟨R, -, -, rfl⟩ := h.reading k cs hcs
  have hclosed := (R.isClosed_statement (p.layered req.scope)).bindKeys keys
  have hcarried := Store.isCarriedBy_of_mem_evaluate hclosed hrow
  exact hcarried

/-- A group can be attached to any records, once its rows carry what is read. -/
theorem exists_attach (h : c.IsPrepared p req root) {rows : List Row}
    (hrows : ∀ row ∈ rows, c.IsCarriedBy k row) (rs : List Record) :
    ∃ rs', c.attach rs k rows = .ok rs' := by
  rw [attach]
  split
  · next r cs hr hcs =>
    obtain ⟨R, hgroup, hsound, rfl⟩ := h.reading k cs hcs
    obtain ⟨records, hrecords⟩ := hsound.exists_assemble h.selected (List.mem_of_getElem? hgroup)
      fun row hrow => hrows row hrow _ hcs
    exact ⟨_, bind_eq_ok.2 ⟨records, hrecords, rfl⟩⟩
  · exact ⟨rs, rfl⟩

end IsPrepared

end CompiledPlan

end EntityFetch
