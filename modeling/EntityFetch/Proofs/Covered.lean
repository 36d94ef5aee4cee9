import EntityFetch.Proofs.Nested
import EntityFetch.Proofs.Wave

/-!
# Keys that are looked up

If every statement is answered, following up looks up the keys of all owners, each once, and every
owner gets its relation (`CompiledPlan.covers_of_dispatch`). The statements are noted by an
executor that keeps a log (`Executor.logged`).

The keys of a group are collected when its wave starts, but they are those of the owners that are
there in the end: what is attached in its wave or later neither adds owners nor changes their
fields (`CompiledPlan.IsPrepared.fields_owners_runWaves`).
-/

namespace EntityFetch

variable {σ : Type} {x : Executor σ} {inv : σ → Prop} {state state' : σ}

/-! ### Executors that answer everything -/

namespace Executor

/-- The executor with a log of the statements that it was given, in order. -/
def logged (x : Executor σ) : Executor (List Statement × σ) where
  execute s state := ((x.execute s state.2).1, (state.1 ++ [s], (x.execute s state.2).2))
  isCancelled state := x.isCancelled state.2

/-- An executor that is never cancelled and answers every statement with rows that have a value at
    every column, while its state satisfies a condition. -/
structure AnswersInFull (x : Executor σ) (inv : σ → Prop) : Prop extends x.Carries inv where
  goesOn : ∀ state, inv state → x.isCancelled state = false
  succeeds : ∀ s state, inv state → ∃ rows state', x.execute s state = (.rows rows, state')

/-- A statement that is answered is put at the end of the log. -/
theorem run_logged {s : Statement} {rows : List Row} (h : x.run s state = (.ok rows, state'))
    (log : List Statement) : x.logged.run s (log, state) = (.ok rows, (log ++ [s], state')) := by
  obtain ⟨hgoes, hexecute⟩ := run_eq_ok_iff.1 h
  refine run_eq_ok_iff.2 ⟨hgoes, ?_⟩
  change ((x.execute s state).1, (log ++ [s], (x.execute s state).2)) = _
  rw [hexecute]

/-- Statements that are answered are put at the end of the log, in this order. -/
theorem runAll_logged {τ : Type} {statements : List (τ × Statement)} {results : List (τ × List Row)}
    (h : x.runAll statements state = (.ok results, state')) (log : List Statement) :
    x.logged.runAll statements (log, state) =
      (.ok results, (log ++ statements.map Prod.snd, state')) := by
  induction statements generalizing state results log with
  | nil =>
    obtain ⟨hresults, rfl⟩ := Prod.mk.inj h
    obtain rfl := Except.ok.inj hresults
    rw [List.map_nil, List.append_nil]
    rfl
  | cons t rest ih =>
    obtain ⟨tag, s⟩ := t
    obtain ⟨rows, mid, results', hrun, hrest, rfl⟩ := runAll_cons_eq_ok h
    rw [runAll, run_logged hrun]
    simp only
    rw [ih hrest, List.map_cons, List.append_assoc, List.singleton_append]

/-- No statement fails. -/
theorem AnswersInFull.run_ne_error (hx : x.AnswersInFull inv) (hinv : inv state) {s : Statement}
    {e : QueryError} : x.run s state ≠ (.error e, state') := by
  intro hrun
  obtain ⟨rows, mid, hexecute⟩ := hx.succeeds s state hinv
  have hok := run_eq_ok_iff.2 ⟨hx.goesOn state hinv, hexecute⟩
  cases hok.symm.trans hrun

end Executor

/-- A session answers in full if no table of its store fails and nothing is rehearsed. -/
theorem Session.answersInFull :
    Session.executor.AnswersInFull fun s => s.store.failing = none ∧ s.rehearsal = {} where
  rows statement s s' rows := by
    rintro ⟨-, hrehearsal⟩
    refine Session.carries.rows statement s s' rows ?_
    rw [hrehearsal]
    exact List.forall_mem_nil _
  stays statement s s' rows hs h := Session.eq_of_execute h ▸ hs
  goesOn s := by
    rintro ⟨-, hrehearsal⟩
    exact Session.isCancelled_eq_false (by rw [hrehearsal])
  succeeds statement s := by
    rintro ⟨hfailing, hrehearsal⟩
    have hrun := Session.run_eq (s := s) (by rw [hrehearsal]) (by rw [hrehearsal]) statement
    rw [Store.answer, hfailing] at hrun
    exact ⟨_, _, (Executor.run_eq_ok_iff.1 hrun).2⟩

/-! ### What later groups leave as it is -/

namespace Related

variable {ρ τ : Type} {rel : Related ρ}

/-- The relation that leads to nothing. -/
def empty : Cardinality → Related ρ
  | .one => .one none
  | .many => .many []

theorem eq_empty (h : rel.isEmpty) : rel = empty rel.cardinality := by
  rcases rel with (_ | _) | _ | _ <;> first | rfl | exact nomatch h

/-- A relation without the records to which it leads. -/
def blank (rel : Related ρ) : Related Unit :=
  rel.map fun _ => ()

theorem blank_map (f : ρ → τ) (rel : Related ρ) : (rel.map f).blank = rel.blank := by
  cases rel with
  | one o => cases o <;> rfl
  | many rs => exact congrArg many List.map_map

theorem isEmpty_blank (rel : Related ρ) : rel.blank.isEmpty = rel.isEmpty := by
  rcases rel with (_ | _) | _ | _ <;> rfl

end Related

namespace CompiledPlan

variable {p : Planner} {req : FetchRequest} {root : Entity} {c : CompiledPlan}
  {k batchSize : Nat} {roots rs rs' : List Record} {q : PlannedRelation} {rows : List Row}

namespace IsPrepared

/-- A group that is loaded with a relation or later leaves the owners of the relation as they are,
    as far as it is seen. -/
theorem map_reached_attach {α : Type} {view : Record → α} (h : c.IsPrepared p req root)
    (hdot : ∀ r ∈ c.plan.relations, IsDotFree r.node.relation.name)
    (hq : q ∈ c.plan.relations) (hselect : q.strategy = .selectIn)
    (hbelow : ∀ first rest f r, view (Record.updateAt (first :: rest) f r) = view r)
    (hself : ∀ r, c.groupRoot? k = some r → c.ownerPath r = c.ownerPath q →
      ∀ o rel, view (o.setRelation r.node.relation.name rel) = view o)
    (hlate : ∀ r, c.groupRoot? k = some r → c.plan.waveOf q.group ≤ c.plan.waveOf r.group)
    (hattach : c.attach rs k rows = .ok rs') :
    (Record.reached (c.ownerPath q) rs').map view = (Record.reached (c.ownerPath q) rs).map view := by
  rw [attach] at hattach
  split at hattach
  case h_2 =>
    obtain rfl := pure_eq_ok.1 hattach
    rfl
  case h_1 r cs hr hcs =>
  obtain ⟨records, -, hattach⟩ := bind_eq_ok.1 hattach
  obtain rfl := pure_eq_ok.1 hattach
  have hrelated : ∀ (o : Record) name', name' ≠ r.node.relation.name →
      (o.setRelation r.node.relation.name (relatedTo r.node.relation records o)).related name' =
        o.related name' := fun o name' hname => by
    rw [Record.related_setRelation, if_neg (by simpa using hname)]
  refine Record.map_reached_updateAt (hbelow · · _ ·) (fun hpath o => hself r hr hpath o _)
    hrelated (fun hpath => ?_) rs
  -- Otherwise the relation would be on the way to the owners, in an earlier wave.
  exact absurd (h.waveOf_lt_of_groupRoot? hdot hr hq hselect hpath)
    (Nat.not_lt_of_le (hlate r hr))

/-- The groups of a wave are loaded no later than those of the waves that follow. -/
theorem waveOf_le_of_mem (h : c.IsPrepared p req root) {before after : List (List Nat)}
    {wave : List Nat} (hwaves : c.plan.waves = before ++ wave :: after) (hk : k ∈ wave) {g : Nat}
    (hg : g ∈ (wave :: after).flatten) : c.plan.waveOf k ≤ c.plan.waveOf g := by
  have hmem : wave ∈ c.plan.waves := hwaves ▸ List.mem_append_right _ List.mem_cons_self
  obtain ⟨w, hw⟩ := h.selected.exists_waveOf hmem
  rw [List.flatten_cons, List.mem_append] at hg
  rcases hg with hg | hg
  · exact Nat.le_of_eq ((hw k hk).2.2.trans (hw g hg).2.2.symm)
  · have horder : c.plan.order = (0 :: before.flatten ++ wave) ++ after.flatten := by
      rw [LoadPlan.order, hwaves, List.flatten_append, List.flatten_cons, List.cons_append,
        List.cons_append, List.append_assoc]
    exact h.selected.waveOf_le_of_order horder (List.mem_append_right _ hk) hg

/-- Waves that are not earlier than a relation leave the fields of its owners as they are. -/
theorem fields_owners_runWaves (h : c.IsPrepared p req root)
    (hdot : ∀ r ∈ c.plan.relations, IsDotFree r.node.relation.name)
    (hq : q ∈ c.plan.relations) (hselect : q.strategy = .selectIn) {waves : List (List Nat)}
    (hlate : ∀ g ∈ waves.flatten, c.plan.waveOf q.group ≤ c.plan.waveOf g)
    (hrun : (c.runWaves x batchSize waves roots state).1 = (rs, none)) :
    (Record.reached (c.ownerPath q) rs).map Record.fields =
      (Record.reached (c.ownerPath q) roots).map Record.fields := by
  refine runWaves_induct (I := fun _ => True) (G := fun _ _ => True)
    (P := fun _ rs => (Record.reached (c.ownerPath q) rs).map Record.fields =
      (Record.reached (c.ownerPath q) roots).map Record.fields)
    (fun done g after rows rs rs' horder _ hrs hattach => ?_)
    (fun _ _ _ _ _ _ _ => ⟨trivial, fun _ _ _ => trivial⟩) (List.nil_append _) trivial rfl hrun
  have hg : g ∈ waves.flatten := horder ▸ List.mem_append_right _ List.mem_cons_self
  refine (h.map_reached_attach hdot hq hselect (fun _ _ _ _ => rfl) (fun _ _ _ _ _ => rfl)
    (fun r hr => ?_) hattach).trans hrs
  rw [h.group_of_groupRoot? hr]
  exact hlate g hg

/-- The statements of a group depend on the fields of its owners only. -/
theorem groupStatements_congr (hroot : c.groupRoot? k = some q)
    (hfields : (Record.reached (c.ownerPath q) rs).map Record.fields =
      (Record.reached (c.ownerPath q) roots).map Record.fields) :
    c.groupStatements batchSize rs k = c.groupStatements batchSize roots k := by
  have hvalues : ∀ rs : List Record, rs.filterMap (·.get? q.node.relation.ownerColumn) =
      (rs.map Record.fields).filterMap (List.lookup q.node.relation.ownerColumn) := by
    intro rs
    rw [List.filterMap_map]
    rfl
  have hkeys : c.ownerKeys q rs = c.ownerKeys q roots := by
    rw [ownerKeys, ownerKeys, hvalues, hvalues, hfields]
  rw [groupStatements, groupStatements, hroot]
  cases c.statement? k with
  | none => rfl
  | some cs => simp only [hkeys]

/-- If waves are attached, their statements are those that the records in the end would give. -/
theorem runWaves_logged (h : c.IsPrepared p req root)
    (hdot : ∀ r ∈ c.plan.relations, IsDotFree r.node.relation.name)
    {before waves : List (List Nat)} (hwaves : c.plan.waves = before ++ waves)
    (hrun : c.runWaves x batchSize waves roots state = ((rs, none), state'))
    (log : List Statement) :
    c.runWaves x.logged batchSize waves roots (log, state) = ((rs, none),
      (log ++ (waves.flatten.flatMap (c.groupStatements batchSize rs)).map Prod.snd, state')) := by
  induction waves generalizing before roots state log with
  | nil =>
    obtain ⟨hroots, rfl⟩ := Prod.mk.inj hrun
    obtain ⟨rfl, -⟩ := Prod.mk.inj hroots
    rw [List.flatten_nil, List.flatMap_nil, List.map_nil, List.append_nil]
    rfl
  | cons wave waves ih =>
    -- The owners of a group have in the end the fields that they had when the group was loaded.
    have hsame : wave.flatMap (c.groupStatements batchSize rs) =
        wave.flatMap (c.groupStatements batchSize roots) := by
      refine List.flatMap_congr fun k hk => ?_
      have hmem : wave ∈ c.plan.waves := hwaves ▸ List.mem_append_right _ List.mem_cons_self
      obtain ⟨w, hw⟩ := h.selected.exists_waveOf hmem
      obtain ⟨q, hq, hselect, rfl, hroot, -⟩ := h.exists_groupRoot (hw k hk).1 (hw k hk).2.1
      exact groupStatements_congr hroot (h.fields_owners_runWaves hdot hq hselect
        (fun g hg => h.waveOf_le_of_mem hwaves hk hg) (congrArg Prod.fst hrun))
    obtain ⟨results, roots', mid, hall, hattach, hrest⟩ :=
      exists_of_runWaves_cons (congrArg Prod.fst hrun)
    have hsplit : c.plan.waves = before ++ [wave] ++ waves := by
      rw [hwaves, List.append_assoc, List.singleton_append]
    rw [runWaves, runWave, Executor.runAll_logged hall]
    simp only [hattach]
    rw [ih hsplit (hrest ▸ hrun), List.flatten_cons, List.flatMap_append, List.map_append, hsame,
      List.append_assoc]

/-- If every statement is answered, following up succeeds. -/
theorem exists_dispatch_eq (h : c.IsPrepared p req root) (hx : x.AnswersInFull inv)
    (hinv : inv state) (batchSize : Nat) (roots : List Record) :
    ∃ rs state', c.dispatch x batchSize roots state = ((rs, none), state') := by
  rcases h.runWaves_cases hx.toCarries hinv batchSize c.plan.waves roots with
    ⟨_, _, _, _, _, _, _, -, -, hmid, hall, -⟩ | ⟨rs, state', -, hrun⟩
  · obtain ⟨s, late, hlate, hfails⟩ := h.exists_run_eq_error hx.toCarries hmid hall
    exact absurd hfails (hx.run_ne_error hlate)
  · exact ⟨rs, state', hrun⟩

end IsPrepared

/-! ### What owners get -/

/-- Whether an owner has a relation, which leads to nothing if the owner has no key. -/
def IsGiven (r : Relation) (o : Record) : Prop :=
  ∃ rel, o.relation? r.name = some rel ∧ rel.cardinality = r.cardinality ∧
    (o.key? r.ownerColumn = none → rel.isEmpty)

/-- What is seen of an owner of a relation: the fields, and the relation without records. -/
def ownerView (r : Relation) (o : Record) : List (String × Value) × Option (Related Unit) :=
  (o.fields, (o.relation? r.name).map Related.blank)

theorem IsGiven.congr {r : Relation} {o o' : Record} (h : IsGiven r o)
    (hview : ownerView r o' = ownerView r o) : IsGiven r o' := by
  obtain ⟨rel, hrel, hcardinality, hempty⟩ := h
  obtain ⟨hfields, hblank⟩ := Prod.mk.inj hview
  rw [hrel, Option.map_some, Option.map_eq_some_iff] at hblank
  obtain ⟨rel', hrel', hblank⟩ := hblank
  refine ⟨rel', hrel', ?_, fun hkey => ?_⟩
  · rw [← hcardinality, ← rel.cardinality_map fun _ => (), ← rel'.cardinality_map fun _ => ()]
    exact congrArg Related.cardinality hblank
  · rw [Record.key?, Record.get?, hfields] at hkey
    rw [← rel'.isEmpty_blank, hblank, rel.isEmpty_blank]
    exact hempty hkey

theorem isGiven_setRelation (r : Relation) (records : List Record) (o : Record) :
    IsGiven r (o.setRelation r.name (relatedTo r records o)) := by
  refine ⟨relatedTo r records o, ?_, cardinality_relatedTo r records o, fun hkey => ?_⟩
  · rw [Record.relation?_setRelation, if_pos (beq_self_eq_true r.name)]
  · have hkey : o.key? r.ownerColumn = none := hkey
    unfold relatedTo
    rw [hkey]
    cases r.cardinality <;> rfl

namespace IsPrepared

/-- Attaching the group of a relation gives it to all owners. -/
theorem isGiven_of_attach {cs : CompiledStatement} (hroot : c.groupRoot? k = some q)
    (hcs : c.statement? k = some cs) (hattach : c.attach rs k rows = .ok rs') :
    ∀ o ∈ Record.reached (c.ownerPath q) rs', IsGiven q.node.relation o := by
  rw [attach, hroot, hcs] at hattach
  obtain ⟨records, -, hattach⟩ := bind_eq_ok.1 hattach
  obtain rfl := pure_eq_ok.1 hattach
  intro o ho
  rw [Record.reached_updateAt] at ho
  obtain ⟨o, -, rfl⟩ := List.mem_map.1 ho
  exact isGiven_setRelation q.node.relation records o

/-- Other groups of the wave or of later ones leave what owners were given. -/
theorem isGiven_of_attach_of_ne (h : c.IsPrepared p req root)
    (hdot : ∀ r ∈ c.plan.relations, IsDotFree r.node.relation.name)
    (hq : q ∈ c.plan.relations) (hselect : q.strategy = .selectIn) (hne : k ≠ q.group)
    (hlate : c.plan.waveOf q.group ≤ c.plan.waveOf k)
    (hattach : c.attach rs k rows = .ok rs')
    (hrs : ∀ o ∈ Record.reached (c.ownerPath q) rs, IsGiven q.node.relation o) :
    ∀ o ∈ Record.reached (c.ownerPath q) rs', IsGiven q.node.relation o := by
  have hview : (Record.reached (c.ownerPath q) rs').map (ownerView q.node.relation) =
      (Record.reached (c.ownerPath q) rs).map (ownerView q.node.relation) := by
    refine h.map_reached_attach hdot hq hselect (fun first rest f r => ?_)
      (fun r hr hpath o rel => ?_) (fun r hr => ?_) hattach
    · unfold ownerView
      rw [Record.relation?_updateAt]
      split
      · next heq =>
        rw [eq_of_beq heq, Option.map_map]
        exact congrArg (_, ·) (Option.map_congr fun rel _ => Related.blank_map _ rel)
      · rfl
    · -- Another relation of the same owners has another name.
      have hname : q.node.relation.name ≠ r.node.relation.name := by
        intro hname
        have hmem := mem_of_groupRoot? hr
        have hsame : r = q := h.selected.eq_of_path hmem hq (by
          rw [h.path_eq hmem, h.path_eq hq, hpath, hname])
        exact hne (hsame ▸ (h.group_of_groupRoot? hr).symm)
      unfold ownerView
      rw [Record.relation?_setRelation, if_neg (by simpa using hname)]
      rfl
    · rw [h.group_of_groupRoot? hr]
      exact hlate
  intro o ho
  have hmem := List.mem_map_of_mem (f := ownerView q.node.relation) ho
  rw [hview] at hmem
  obtain ⟨o', ho', hsame⟩ := List.mem_map.1 hmem
  exact (hrs o' ho').congr hsame.symm

/-- In the end every owner of a group has its relation. -/
theorem isGiven_of_dispatch (h : c.IsPrepared p req root)
    (hdot : ∀ r ∈ c.plan.relations, IsDotFree r.node.relation.name)
    (hq : q ∈ c.plan.relations) (hselect : q.strategy = .selectIn)
    (hmem : q.group ∈ c.plan.waves.flatten)
    (hrun : (c.dispatch x batchSize roots state).1 = (rs, none)) :
    ∀ o ∈ Record.reached (c.ownerPath q) rs, IsGiven q.node.relation o := by
  refine dispatch_induct_done (P := fun done rs => q.group ∈ done →
    ∀ o ∈ Record.reached (c.ownerPath q) rs, IsGiven q.node.relation o)
    (fun done k after rows rs rs' horder hrs hattach hdone => ?_)
    (fun hdone => absurd hdone List.not_mem_nil) hrun hmem
  -- What a group gives to its owners no later group takes from them.
  by_cases hk : k = q.group
  · subst hk
    obtain ⟨cs, hcs⟩ : ∃ cs, c.statement? q.group = some cs :=
      ⟨_, List.getElem?_eq_getElem (h.length_eq ▸ h.selected.isGrouped.group_lt q hq)⟩
    exact isGiven_of_attach (h.groupRoot?_group hq hselect) hcs hattach
  · have hbefore : q.group ∈ done :=
      (List.mem_append.1 hdone).resolve_right fun h => hk (List.mem_singleton.1 h).symm
    have hsplit : c.plan.order = (0 :: done) ++ k :: after := congrArg (0 :: ·) horder.symm
    have hlate := h.selected.waveOf_le_of_order hsplit (List.mem_cons_of_mem 0 hbefore)
      List.mem_cons_self
    exact h.isGiven_of_attach_of_ne hdot hq hselect hk hlate hattach (hrs hbefore)

end IsPrepared

/-! ### Keys and statements -/

/-- The distinct keys of values are the first ones of those that are not null. -/
theorem distinctKeys_eq_firsts (vs : List Value) :
    distinctKeys [] vs = firsts Value.key? (vs.filter fun v => !v.isNull) := by
  -- A value that is not null has a key.
  have hseen : ∀ seen, distinctKeys seen vs =
      firstBy Value.key? seen (vs.filter fun v => !v.isNull) := by
    induction vs with
    | nil => exact fun _ => rfl
    | cons v vs ih =>
      intro seen
      rw [distinctKeys]
      cases hkey : v.key? with
      | none =>
        rw [Value.key?_eq_none_iff.1 hkey]
        exact ih seen
      | some key =>
        have hkept : (v :: vs).filter (fun v => !v.isNull) = v :: vs.filter fun v => !v.isNull :=
          List.filter_cons_of_pos (by cases v <;> first | rfl | exact nomatch hkey)
        rw [hkept, firstBy, hkey]
        simp only [ih]
  rw [hseen, firstBy_eq_firsts]

/-- The condition of a statement that a column of its root has one of some keys. -/
def lookUpPredicate (s : Statement) (column : String) (keys : List Value) : Predicate :=
  { aliasName := s.root.aliasName, filter := .member column keys, source := .keyLookup }

/-- How a relation is loaded by a statement that is executed for batches of keys: what is executed
    is the statement with other keys in one of its conditions. The keys are those of the owners,
    each once and in the order in which it is found first. All batches are full but the last, and
    every owner is given the relation. Without keys nothing is executed, and the relation leads
    to nothing. -/
structure Covers (batchSize : Nat) (r : Relation) (s : Statement) (owners : List Record)
    (batches : List (List Value)) (executed : List Statement) : Prop where
  executed_eq : ∃ rest, s.predicates = lookUpPredicate s r.targetColumn [] :: rest ∧
    executed = batches.map fun keys =>
      { s with predicates := lookUpPredicate s r.targetColumn keys :: rest }
  keys_eq : batches.flatten =
    firsts Value.key? ((owners.filterMap (·.get? r.ownerColumn)).filter fun v => !v.isNull)
  ne_nil : ∀ keys ∈ batches, keys ≠ []
  length_le : ∀ keys ∈ batches, keys.length ≤ batchSize
  length_eq : ∀ keys ∈ batches.dropLast, keys.length = batchSize
  isGiven : ∀ o ∈ owners, IsGiven r o
  without_keys : (∀ o ∈ owners, o.key? r.ownerColumn = none) →
    executed = [] ∧ ∀ o ∈ owners, o.relation? r.name = some (.empty r.cardinality)

/-- The statement of a group looks up keys by its first condition. -/
theorem IsPrepared.bindKeys_eq (h : c.IsPrepared p req root) {cs : CompiledStatement}
    (hroot : c.groupRoot? k = some q) (hcs : c.statement? k = some cs) :
    ∃ rest, cs.statement.predicates =
        lookUpPredicate cs.statement q.node.relation.targetColumn [] :: rest ∧
      ∀ keys, cs.statement.bindKeys keys = { cs.statement with
        predicates := lookUpPredicate cs.statement q.node.relation.targetColumn keys :: rest } := by
  obtain ⟨R, hR, -, -, rfl⟩ := h.root_of_groupRoot? hroot hcs
  have hpredicates : (R.statement (p.layered req.scope)).predicates =
      lookUpPredicate (R.statement (p.layered req.scope)) q.node.relation.targetColumn [] ::
        R.active.map fun a =>
          { aliasName := R.aliasName, filter := a.filter, source := .globalFilter a.name } := by
    rw [Reading.statement, Reading.clauses, hR]
    rfl
  refine ⟨_, hpredicates, fun keys => ?_⟩
  rw [Statement.bindKeys, show (R.compiled (p.layered req.scope)).statement.predicates = _
    from hpredicates]
  rfl

/-- The statements of a group cover the keys of owners that were given its relation. -/
theorem IsPrepared.covers (h : c.IsPrepared p req root) {cs : CompiledStatement}
    (hroot : c.groupRoot? k = some q) (hcs : c.statement? k = some cs) (hbatch : 1 ≤ batchSize)
    (hgiven : ∀ o ∈ Record.reached (c.ownerPath q) rs, IsGiven q.node.relation o) :
    Covers batchSize q.node.relation cs.statement (Record.reached (c.ownerPath q) rs)
      (chunks batchSize (c.ownerKeys q rs)) ((c.groupStatements batchSize rs k).map Prod.snd) := by
  have hexecuted : (c.groupStatements batchSize rs k).map Prod.snd =
      (chunks batchSize (c.ownerKeys q rs)).map cs.statement.bindKeys := by
    rw [groupStatements, hroot, hcs, List.map_map]
    rfl
  have hsize : max batchSize 1 = batchSize := Nat.max_eq_left hbatch
  obtain ⟨rest, hpredicates, hbind⟩ := h.bindKeys_eq hroot hcs
  constructor
  case executed_eq =>
    exact ⟨rest, hpredicates, hexecuted.trans (List.map_congr_left fun keys _ => hbind keys)⟩
  case keys_eq => rw [flatten_chunks, ownerKeys, distinctKeys_eq_firsts]
  case ne_nil => exact fun _ hkeys => (length_of_mem_chunks hkeys).1
  case length_le => exact fun _ hkeys => hsize ▸ (length_of_mem_chunks hkeys).2
  case length_eq => exact fun _ hkeys => hsize ▸ length_of_mem_dropLast_chunks hkeys
  case isGiven => exact hgiven
  -- Without keys there is nothing to execute, and owners have nothing.
  case without_keys =>
    intro hnone
    have hkeys : c.ownerKeys q rs = [] := by
      refine List.eq_nil_iff_forall_not_mem.2 fun v hv => ?_
      obtain ⟨hvalue, key, hkey, -⟩ := (nodup_distinctKeys _ _).2 v hv
      obtain ⟨o, ho, hget⟩ := List.mem_filterMap.1 hvalue
      have := hnone o ho
      rw [Record.key?, hget, Option.bind_some, hkey] at this
      cases this
    refine ⟨by rw [hexecuted, hkeys]; rfl, fun o ho => ?_⟩
    obtain ⟨rel, hrel, hcardinality, hempty⟩ := hgiven o ho
    rw [hrel, Related.eq_empty (hempty (hnone o ho)), hcardinality]

/-- If every statement is answered with rows that carry what is read, following up succeeds, and
    the statements of every group that follows cover the keys of its owners. They are executed
    group by group, in the order of the waves. -/
theorem covers_of_dispatch (hprepare : p.prepare req = .ok c)
    (hdot : ∀ r ∈ c.plan.relations, IsDotFree r.node.relation.name)
    (hx : x.AnswersInFull inv) (hinv : inv state) (hbatch : 1 ≤ batchSize)
    (roots : List Record) :
    ∃ rs state' executed, c.dispatch x batchSize roots state = ((rs, none), state') ∧
      c.dispatch x.logged batchSize roots ([], state) =
        ((rs, none), (c.plan.waves.flatten.flatMap executed, state')) ∧
      c.plan.waves.flatten.Nodup ∧
      ∀ k, k ≠ 0 → k < c.plan.groups.length → k ∈ c.plan.waves.flatten ∧
        ∃ q cs batches, c.groupRoot? k = some q ∧ c.statement? k = some cs ∧
          Covers batchSize q.node.relation cs.statement
            (Record.reached (q.node.ancestors.map Relation.name) rs) batches (executed k) := by
  obtain ⟨root, h⟩ := Planner.isPrepared_of_prepare hprepare
  obtain ⟨rs, state', hrun⟩ := h.exists_dispatch_eq hx hinv batchSize roots
  refine ⟨rs, state', fun k => (c.groupStatements batchSize rs k).map Prod.snd, hrun, ?_,
    (List.nodup_cons.1 h.selected.nodup_order).2, fun k hne hk => ?_⟩
  · rw [dispatch, h.runWaves_logged hdot (List.nil_append c.plan.waves).symm hrun, List.nil_append,
      List.map_flatMap]
  obtain ⟨q, hq, hselect, rfl, hroot, cs, hcs⟩ := h.exists_groupRoot hk hne
  have hmem : q.group ∈ c.plan.waves.flatten :=
    (List.mem_cons.1 (h.selected.mem_order.2 hk)).resolve_left hne
  have hgiven := h.isGiven_of_dispatch hdot hq hselect hmem (congrArg Prod.fst hrun)
  exact ⟨hmem, q, cs, _, hroot, hcs,
    h.ownerPath_eq hdot hq ▸ h.covers hroot hcs hbatch hgiven⟩

/-! ### Users one by one -/

/-- Users of whom one is given twice and one has no number. -/
def repeatedUsers : List Record :=
  [.int 1, .int 2, .int 1, .null].map fun id => { entity := "User", fields := [("id", id)] }

/-- The posts of two users are looked up one after the other, and then those of their authors. -/
theorem covers_of_dispatch_writers : ∃ (c : CompiledPlan) (rs : List Record)
    (executed : Nat → List Statement) (s : Session),
    writerPlanner.prepare furtherRequest = .ok c ∧ c.plan.waves = [[1], [2]] ∧
      c.dispatch Session.executor.logged 1 repeatedUsers ([], { store := writerStore }) =
        ((rs, none), (executed 1 ++ executed 2, s)) ∧
      (executed 1 ++ executed 2).map Statement.boundKeys =
        [[.int 1], [.int 2], [.int 1], [.int 2]] ∧
      ∃ q cs batches, c.groupRoot? 1 = some q ∧ c.statement? 1 = some cs ∧
        Covers 1 q.node.relation cs.statement
          (Record.reached (q.node.ancestors.map Relation.name) rs) batches (executed 1) := by
  obtain ⟨c, hprepare, hwaves, hlength, hnames, rs', log, s', hlogged, hkeys⟩ :
      ∃ c, writerPlanner.prepare furtherRequest = .ok c ∧ c.plan.waves = [[1], [2]] ∧
        c.plan.groups.length = 3 ∧
        c.plan.relations.map (fun r => r.node.relation.name) = ["posts", "author", "posts"] ∧
        ∃ rs log s, c.dispatch Session.executor.logged 1 repeatedUsers
            ([], { store := writerStore }) = ((rs, none), (log, s)) ∧
          log.map Statement.boundKeys = [[.int 1], [.int 2], [.int 1], [.int 2]] :=
    ⟨_, rfl, rfl, rfl, rfl, _, _, _, rfl, rfl⟩
  have hdot : ∀ r ∈ c.plan.relations, IsDotFree r.node.relation.name := by
    intro r hr
    have hname := List.mem_map_of_mem (f := fun r => r.node.relation.name) hr
    rw [hnames] at hname
    have hall : ∀ name ∈ ["posts", "author", "posts"], IsDotFree name := by decide
    exact hall _ hname
  have hstart : ({ store := writerStore } : Session).store.failing = none ∧
      ({ store := writerStore } : Session).rehearsal = {} := ⟨rfl, rfl⟩
  obtain ⟨rs, s, executed, -, hrun, -, hgroups⟩ := covers_of_dispatch hprepare hdot
    Session.answersInFull hstart (Nat.le_refl 1) repeatedUsers
  rw [hwaves, show [[1], [2]].flatten.flatMap executed = executed 1 ++ executed 2 by simp] at hrun
  have hlog : log = executed 1 ++ executed 2 :=
    congrArg (fun result => result.2.1) (hlogged.symm.trans hrun)
  obtain ⟨-, hcovers⟩ := hgroups 1 Nat.one_ne_zero (by rw [hlength]; decide)
  exact ⟨c, rs, executed, s, hprepare, hwaves, hrun, hlog ▸ hkeys, hcovers⟩

end CompiledPlan

end EntityFetch
