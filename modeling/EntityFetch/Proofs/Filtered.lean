import EntityFetch.Proofs.Answer
import EntityFetch.Proofs.Assemble
import EntityFetch.Proofs.Fetch
import EntityFetch.Proofs.Prepare
import EntityFetch.Proofs.Record
import EntityFetch.Proofs.Repeat

/-!
# What filters leave out

No record of a fetch is of a row that a filter leaves out. The filters of a statement's
root are conditions of the statement, those of a joined relation are part of the join:
either way a row in a combination satisfies the filters at its slot
(`Reading.IsJoinable.holds_filtersAt`), and so does its record, wherever it is put
(`Reading.IsSound.everywhere_of_assembleRow`). Attaching records keeps what holds of
all others.
-/

namespace EntityFetch

/-- The value of a field, null if there is none. -/
def Record.value (r : Record) (field : String) : Value :=
  (r.get? field).getD .null

/-- Whether all global filters in force at a path are true of a record. -/
def QueryScope.Passes (scope : QueryScope) (filters : GlobalFilters) (names : List String)
    (r : Record) : Prop :=
  ∃ active, filters.active r.entity (scope.overridesFor (dotted names)) = .ok active ∧
    ∀ a ∈ active, a.filter.holds r.value

/-- Whether a record may be found at a path: all filters are true of it, and so are the
    criteria if it is a root. -/
def QueryScope.Admits (scope : QueryScope) (filters : GlobalFilters) (names : List String)
    (r : Record) : Prop :=
  scope.Passes filters names r ∧ (names = [] → scope.criteria.holds r.value)

/-- Names that spell the relations of a chain, up to dots in the names. -/
def Spells (names : List String) (chain : List Relation) : Prop :=
  dotted names = dotted (chain.map Relation.name) ∧ (names = [] ↔ chain = [])

theorem Spells.append_singleton {names : List String} {chain : List Relation}
    (h : Spells names chain) (e : Relation) : Spells (names ++ [e.name]) (chain ++ [e]) := by
  refine ⟨?_, by simp⟩
  rw [List.map_append, List.map_singleton]
  by_cases hchain : chain = []
  · rw [h.2.2 hchain, hchain]
    rfl
  · have hnames : names ≠ [] := fun hnil => hchain (h.2.1 hnil)
    have hmap : chain.map Relation.name ≠ [] := fun hnil => hchain (List.map_eq_nil_iff.1 hnil)
    rw [dotted_append_singleton hnames, dotted_append_singleton hmap, h.1]

namespace Reading

variable {k : Compiler} {plan : LoadPlan} {scope : QueryScope} {root : Entity} {R : Reading}
  {store : Store} {s : Statement}

/-- The global filters at a slot. -/
def filtersAt (R : Reading) : Nat → List ActiveFilter
  | 0 => R.active
  | i + 1 => ((R.joints[i]?).map Joint.filters).getD []

/-- The filters at a slot are those in force at the path to it. -/
theorem IsSound.activeAt_slot (h : R.IsSound k plan scope) {i : Nat} {e : Entity}
    (he : R.entityAt i = some e) :
    k.activeAt scope e (dotted ((R.chainAt i).map Relation.name)) = .ok (R.filtersAt i) := by
  cases i with
  | zero =>
    obtain rfl := Option.some.inj he
    have hpath : R.path = dotted ((R.chainAt 0).map Relation.name) := by
      rw [path, chainAt, relationAt]
      cases R.root <;> rfl
    exact hpath ▸ h.active
  | succ i =>
    obtain ⟨j, hj, rfl⟩ := Option.map_eq_some_iff.1 he
    rw [chainAt, relationAt, filtersAt, hj]
    exact (h.settled j (List.mem_of_getElem? hj)).filters

/-- The rows of a combination satisfy the filters at their slots. -/
theorem IsJoinable.holds_filtersAt (hR : R.IsJoinable)
    (hactive : ∀ r ∈ store.rootRows s, ∀ a ∈ R.active, a.filter.holds r.value)
    {x : Combination} (hx : x ∈ R.combinations store s) {i : Nat} {r : TableRow}
    (hr : x.at? i = some r) : ∀ a ∈ R.filtersAt i, a.filter.holds r.value := by
  obtain ⟨r', hr', hroot, hlen, hfits⟩ := hR.exists_of_mem_combinations hx
  cases i with
  | zero =>
    obtain rfl := Option.some.inj (hroot.symm.trans hr)
    exact hactive _ hr'
  | succ i =>
    cases hj : R.joints[i]? with
    | none =>
      rw [filtersAt, hj]
      exact fun a ha => absurd ha List.not_mem_nil
    | some j =>
      rw [filtersAt, hj]
      rcases hfits i j hj with ⟨t, ht, hplace⟩ | ⟨-, -, hplace⟩
      · rw [Combination.at?, hplace] at hr
        obtain rfl := Option.some.inj hr
        exact (Joint.mem_found.1 ht).2.2
      · -- A left join that finds nothing leaves no row, of which nothing has to be true.
        rw [Combination.at?, hplace] at hr
        cases hr

/-- The records below one are those found at the slots that start there. -/
theorem mem_related_withChildren {cs : List (Nat × String)} {found : Nat → Option Record}
    {r q : Record} {name : String}
    (h : q ∈ (CompiledStatement.withChildren cs found r).related name) :
    ∃ m, (m, name) ∈ cs ∧ found m = some q := by
  rw [Record.related, Record.relation?, CompiledStatement.withChildren] at h
  induction cs with
  | nil => exact absurd h List.not_mem_nil
  | cons c cs ih =>
    rw [List.map_cons, List.lookup_cons] at h
    split at h
    · next heq =>
      rw [eq_of_beq heq]
      exact ⟨c.1, List.mem_cons_self, Option.mem_toList.1 h⟩
    · obtain ⟨m, hm, hq⟩ := ih h
      exact ⟨m, List.mem_cons_of_mem _ hm, hq⟩

/-- Below a record is what is found at the slot that starts there by the relation. -/
theorem related_withChildren {cs : List (Nat × String)} {found : Nat → Option Record} {r : Record}
    {m : Nat} {name : String} (hnodup : (cs.map Prod.snd).Nodup) (hm : (m, name) ∈ cs) :
    (CompiledStatement.withChildren cs found r).related name = (found m).toList := by
  rw [Record.related, Record.relation?, CompiledStatement.withChildren]
  induction cs with
  | nil => exact absurd hm List.not_mem_nil
  | cons c cs ih =>
    rw [List.map_cons, List.nodup_cons] at hnodup
    rw [List.map_cons, List.lookup_cons]
    rcases List.mem_cons.1 hm with rfl | hm
    · rw [beq_self_eq_true]
      rfl
    · have hne : (name == c.2) = false :=
        beq_false_of_ne fun heq => hnodup.1 (heq ▸ List.mem_map_of_mem hm)
      rw [hne]
      exact ih hnodup.2 hm

/-- Where a record is put together there is a row. -/
theorem IsJoinable.exists_row (hR : R.IsJoinable) {x : Combination}
    (hx : x ∈ R.combinations store s) {out : Nat → Option Record}
    (hout : IsAssembled R.slots x out) {i : Nat} {t : Slot} {r : Record}
    (ht : R.slots[i]? = some t) (hr : out i = some r) : ∃ row, x.at? i = some row := by
  obtain ⟨r', -, hroot, -⟩ := hR.exists_of_mem_combinations hx
  cases i with
  | zero => exact ⟨r', hroot⟩
  | succ i =>
    cases hrow : x.at? (i + 1) with
    | some row => exact ⟨row, rfl⟩
    | none =>
      obtain ⟨j, hj, rfl⟩ := exists_joint_of_slot ht
      rw [hout.out_succ hj, hrow, CompiledStatement.isBlank_record_none] at hr
      simp at hr

/-- The entity at a slot is the one that is read there. -/
theorem exists_entityAt {i : Nat} {t : Slot} (ht : R.slots[i]? = some t) :
    ∃ e, R.entityAt i = some e ∧ t.entity = e.name ∧ t.primaryKey = e.primaryKey ∧
      t.columns = e.columns := by
  cases i with
  | zero =>
    obtain rfl := Option.some.inj ht
    exact ⟨R.entity, rfl, rfl, rfl, rfl⟩
  | succ i =>
    obtain ⟨j, hj, rfl⟩ := exists_joint_of_slot ht
    exact ⟨j.target, by rw [entityAt, hj]; rfl, rfl, rfl, rfl⟩

/-- Only the root of a fetch is at the end of no relation. -/
theorem eq_zero_of_chainAt {i : Nat} {t : Slot} (ht : R.slots[i]? = some t)
    (hi : R.chainAt i = []) : i = 0 ∧ R.root = none := by
  cases i with
  | zero =>
    refine ⟨rfl, ?_⟩
    rw [chainAt, relationAt] at hi
    cases hroot : R.root with
    | none => rfl
    | some r =>
      rw [hroot] at hi
      exact absurd hi r.node.chain_ne_nil
  | succ i =>
    obtain ⟨j, hj, -⟩ := exists_joint_of_slot ht
    rw [chainAt_succ hj] at hi
    exact absurd hi (Node.chain_ne_nil _)

/-- A filter is true of the record of a row if it is true of the row. -/
theorem holds_record {t : Slot} {row : TableRow} {f : Filter} (hf : ∀ c ∈ f.columns, c ∈ t.columns)
    (rels : List (String × Related Record)) (h : f.holds row.value) :
    f.holds (Record.value { t.record (some row) with relations := rels }) := by
  rw [← h]
  refine Filter.holds_congr fun c hcol => ?_
  have hget := Slot.get?_record (o := some row) (hf c hcol)
  exact congrArg (·.getD .null) hget

/-- The record of a slot may be found where the slot is. -/
theorem IsSound.admits_record (h : R.IsSound k plan scope)
    (hsel : plan.IsSelected k.catalog root) (hc : k.catalog.IsSound)
    (hactive : ∀ r ∈ store.rootRows s, ∀ a ∈ R.active, a.filter.holds r.value)
    (hcriteria : R.root = none → ∀ r ∈ store.rootRows s, scope.criteria.holds r.value)
    {x : Combination} (hx : x ∈ R.combinations store s) {i : Nat} {t : Slot} {row : TableRow}
    (ht : R.slots[i]? = some t) (hrow : x.at? i = some row) {names : List String}
    (hnames : Spells names (R.chainAt i)) (rels : List (String × Related Record)) :
    scope.Admits k.filters names { t.record (some row) with relations := rels } := by
  have hR := h.isJoinable hsel hc
  obtain ⟨e, he, hname, -, hcolumns⟩ := exists_entityAt ht
  obtain ⟨hfilters, hfiltered⟩ := Compiler.activeAt_eq_ok (h.activeAt_slot he)
  refine ⟨⟨R.filtersAt i, ?_, fun a ha => ?_⟩, fun hnil => ?_⟩
  · rw [hnames.1, ← hfilters, ← hname]
    rfl
  · exact holds_record (fun c hcol => hcolumns ▸ hfiltered a ha c hcol) rels
      (hR.holds_filtersAt hactive hx hrow a ha)
  · obtain ⟨rfl, hroot⟩ := eq_zero_of_chainAt ht (hnames.2.1 hnil)
    obtain rfl := Option.some.inj he
    obtain ⟨r, hr, hr', -⟩ := hR.exists_of_mem_combinations hx
    obtain rfl := Option.some.inj (hr'.symm.trans hrow)
    exact holds_record (fun c hcol => hcolumns ▸ h.criteria hroot c hcol) rels (hcriteria hroot _ hr)

/-- What holds of what is put together at every slot, at all paths that go with the relations
    on the way there, holds of what is put together at the first one and of all records below
    it. -/
theorem IsSound.everywhere_of_out (h : R.IsSound k plan scope)
    (hsel : plan.IsSelected k.catalog root) {S : List String → List Relation → Prop}
    (hS : ∀ names chain e, S names chain → S (names ++ [e.name]) (chain ++ [e]))
    {P : List String → Record → Prop} {out : Nat → Option Record}
    (hslot : ∀ (i : Nat) (t : Slot) (q : Record) (names : List String), R.slots[i]? = some t →
      out i = some q → S names (R.chainAt i) → P names q ∧ ∀ name, ∀ q' ∈ q.related name,
        ∃ m, (m, name) ∈ childSlots R.slots i ∧ out m = some q')
    {r : Record} (hr : out 0 = some r) {names : List String} (hnames : S names (R.chainAt 0)) :
    Record.Everywhere P names r := by
  -- Slots start at earlier ones, so that the records are complete from the last slot on.
  have hslots : ∀ d i : Nat, R.slots.length ≤ i + d → ∀ (t : Slot) (q : Record)
      (names : List String), R.slots[i]? = some t → out i = some q → S names (R.chainAt i) →
        Record.Everywhere P names q := by
    intro d
    induction d with
    | zero =>
      intro i hi t q names ht
      have := (List.getElem?_eq_some_iff.1 ht).1
      omega
    | succ d ih =>
      intro i hi t q names ht hq hnames
      obtain ⟨hq, hbelow⟩ := hslot i t q names ht hq hnames
      refine Record.everywhere_iff.2 ⟨hq, fun name q' hq' => ?_⟩
      obtain ⟨m, hchild, hout'⟩ := hbelow name q' hq'
      obtain ⟨n, j, hj, heq, rfl⟩ := mem_childSlots_iff.1 hchild
      obtain ⟨rfl, rfl⟩ := Prod.mk.inj heq
      refine ih (n + 1) ?_ j.slot q' _ (getElem?_joints hj) hout' ?_
      · have := h.parent_le n j hj
        omega
      · rw [chainAt_succ hj, h.chain_eq hsel (List.mem_of_getElem? hj)]
        exact hS names _ j.edge hnames
  exact hslots R.slots.length 0 (Nat.le_add_left _ _) R.rootSlot r names rfl hr hnames

/-- What holds of the record of every slot, at all paths that spell the way there, holds of
    the record of a combination and of all records below it. -/
theorem IsSound.everywhere_of_slots (h : R.IsSound k plan scope)
    (hsel : plan.IsSelected k.catalog root) (hc : k.catalog.IsSound)
    (hgroup : R.group ∈ plan.groups) {P : List String → Record → Prop} {x : Combination}
    (hx : x ∈ R.combinations store s)
    (hslot : ∀ (i : Nat) (t : Slot) (row : TableRow) (names : List String)
      (rels : List (String × Related Record)), R.slots[i]? = some t → x.at? i = some row →
        Spells names (R.chainAt i) → P names { t.record (some row) with relations := rels })
    {r : Record} (hr : (R.compiled scope).assembleRow (x.row R.slots) = .ok r)
    {names : List String} (hnames : Spells names (R.chainAt 0)) :
    Record.Everywhere P names r := by
  have hR := h.isJoinable hsel hc
  obtain ⟨_, -, -, hlen, -⟩ := hR.exists_of_mem_combinations hx
  obtain ⟨out, r', hout, hzero, hassemble⟩ :=
    exists_isAssembled hR (h.isLinked hsel hgroup) hlen scope
  obtain rfl := Except.ok.inj (hr.symm.trans hassemble)
  refine h.everywhere_of_out hsel (fun _ _ e hspells => hspells.append_singleton e)
    (fun i t q names ht hq hnames => ?_) hzero hnames
  obtain ⟨row, hrow⟩ := hR.exists_row hx hout ht hq
  rw [hout.eq_withChildren ht hq, hrow]
  exact ⟨hslot i t row names _ ht hrow hnames, fun _ _ => mem_related_withChildren⟩

/-- The record of a combination may be found at any path that spells the way to the
    root of the statement, and so may all records below it. -/
theorem IsSound.everywhere_of_assembleRow (h : R.IsSound k plan scope)
    (hsel : plan.IsSelected k.catalog root) (hc : k.catalog.IsSound)
    (hgroup : R.group ∈ plan.groups)
    (hactive : ∀ r ∈ store.rootRows s, ∀ a ∈ R.active, a.filter.holds r.value)
    (hcriteria : R.root = none → ∀ r ∈ store.rootRows s, scope.criteria.holds r.value)
    {x : Combination} (hx : x ∈ R.combinations store s) {r : Record}
    (hr : (R.compiled scope).assembleRow (x.row R.slots) = .ok r) {names : List String}
    (hnames : Spells names (R.chainAt 0)) :
    Record.Everywhere (scope.Admits k.filters) names r :=
  h.everywhere_of_slots hsel hc hgroup hx (fun _ _ _ _ rels ht hrow hnames =>
    h.admits_record hsel hc hactive hcriteria hx ht hrow hnames rels) hr hnames

end Reading

/-! ### Attaching -/

/-- A record that is assembled is that of one of the rows. -/
theorem CompiledStatement.exists_of_mem_assemble {cs : CompiledStatement} {rows : List Row}
    {rs : List Record} (h : cs.assemble rows = .ok rs) {r : Record} (hr : r ∈ rs) :
    ∃ row ∈ rows, cs.assembleRow row = .ok r := by
  unfold assemble at h
  obtain ⟨all, hall, h⟩ := bind_eq_ok.1 h
  obtain rfl := pure_eq_ok.1 h
  rw [firstByKey_eq] at hr
  exact exists_mem_of_mapM_eq_ok hall (mem_of_mem_firstBy hr)

namespace CompiledPlan

/-- What an owner gets is among the records. -/
theorem mem_of_mem_relatedTo {e : Relation} {records : List Record} {owner q : Record}
    (h : q ∈ (relatedTo e records owner).toList) : q ∈ records := by
  cases hkey : owner.key? e.ownerColumn <;> simp only [relatedTo, hkey] at h <;> split at h
  · exact absurd h List.not_mem_nil
  · exact absurd h List.not_mem_nil
  · exact (List.mem_filter.1 (List.mem_of_mem_head? (Option.mem_toList.1 h))).1
  · exact (List.mem_filter.1 h).1

namespace IsPrepared

variable {p : Planner} {req : FetchRequest} {root : Entity} {c : CompiledPlan} {store : Store}

/-- The path to the owners of a relation spells the relations before it. -/
theorem spells_ownerPath (h : c.IsPrepared p req root) {r : PlannedRelation}
    (hr : r ∈ c.plan.relations) : Spells (c.ownerPath r) r.node.ancestors := by
  obtain ⟨parent, hmem, hchild⟩ := h.selected.exists_parent hr
  rw [hchild.ancestors_eq, ownerPath, hchild.parent_eq]
  cases parent with
  | none => exact ⟨rfl, iff_of_true rfl rfl⟩
  | some q =>
    have hq : c.plan.relation? q.node.id = some q :=
      h.selected.isGrouped.getElem?_id (hmem q rfl)
    simp only [Option.map_some, Option.bind_some, hq, Option.getD_some]
    exact ⟨dotted_split q.path, iff_of_false (split_ne_nil _) (Node.chain_ne_nil _)⟩

/-- A group with a relation at its root has a reading with that root. -/
theorem root_of_groupRoot? (h : c.IsPrepared p req root) {group : Nat} {r : PlannedRelation}
    {cs : CompiledStatement} (hr : c.groupRoot? group = some r)
    (hcs : c.statement? group = some cs) : ∃ R : Reading, R.root = some r ∧
      R.group ∈ c.plan.groups ∧ R.IsSound p.compiler c.plan (p.layered req.scope) ∧
        cs = R.compiled (p.layered req.scope) := by
  obtain ⟨R, hgroup, hsound, heq⟩ := h.reading group cs hcs
  exact ⟨R, root_of_group hr hgroup hsound, List.mem_of_getElem? hgroup, hsound, heq⟩

/-- Attaching rows that the store reads keeps everything where it may be found. -/
theorem everywhere_of_attach (h : c.IsPrepared p req root) (hc : p.catalog.IsSound)
    {group : Nat} {rows : List Row} {rs rs' : List Record}
    (hrows : ∀ row ∈ rows, ∃ template, c.statement? group = some template ∧
      ∃ keys, row ∈ store.evaluate (template.statement.bindKeys keys))
    (hrs : ∀ r ∈ rs, r.Everywhere ((p.layered req.scope).Admits p.filters) [])
    (hattach : c.attach rs group rows = .ok rs') :
    ∀ r ∈ rs', r.Everywhere ((p.layered req.scope).Admits p.filters) [] := by
  unfold attach at hattach
  split at hattach
  case h_2 => exact pure_eq_ok.1 hattach ▸ hrs
  case h_1 q compiled hq hcompiled =>
  obtain ⟨records, hrecords, hattach⟩ := bind_eq_ok.1 hattach
  obtain rfl := pure_eq_ok.1 hattach
  obtain ⟨R, hroot, hgroup, hsound, rfl⟩ := h.root_of_groupRoot? hq hcompiled
  -- What is found passes at the end of the path; where it is put it passes, too.
  have hfound : ∀ r ∈ records, r.Everywhere ((p.layered req.scope).Admits p.filters)
      (c.ownerPath q ++ [q.node.relation.name]) := by
    intro r hr
    obtain ⟨row, hrow, hassemble⟩ := CompiledStatement.exists_of_mem_assemble hrecords hr
    obtain ⟨template, htemplate, keys, hread⟩ := hrows row hrow
    obtain rfl := Option.some.inj (hcompiled.symm.trans htemplate)
    obtain ⟨x, hx, rfl⟩ := (hsound.isJoinable h.selected hc).exists_of_mem_evaluate
      ((Statement.Reads.statement R (p.layered req.scope)).bindKeys keys) hread
    refine hsound.everywhere_of_assembleRow h.selected hc hgroup (fun t ht a ha => ?_)
      (fun hnone => ?_) hx hassemble ?_
    · rw [Reading.rootRows_bindKeys hroot, List.mem_filter, Bool.and_eq_true] at ht
      exact List.all_eq_true.1 ht.2.2 a ha
    · cases hnone.symm.trans hroot
    · rw [Reading.chainAt_root hroot]
      exact (h.spells_ownerPath (hsound.root_mem hroot)).append_singleton q.node.relation
  -- Whether a record passes does not depend on its relations.
  have hkeep : ∀ (names : List String) (r : Record) (rels : List (String × Related Record)),
      (p.layered req.scope).Admits p.filters names r →
        (p.layered req.scope).Admits p.filters names { r with relations := rels } :=
    fun _ _ _ hr => hr
  intro r' hr'
  obtain ⟨r, hr, rfl⟩ := List.mem_map.1 hr'
  refine Record.Everywhere.updateAt hkeep (fun o ho => ?_) (hrs r hr)
  exact ho.setRelation hkeep fun r' hr' => hfound r' (mem_of_mem_relatedTo hr')

end IsPrepared

end CompiledPlan

namespace Planner

variable {decls : List EntityDecl} {p : Planner} {req : FetchRequest} {s : Session}
  {records : List Record}

/-- Nothing that a filter leaves out is in the result of a fetch: the criteria are true
    of every root, and all global filters in force at a path are true of every record
    that is reached there, of its own fields. -/
theorem passes_of_fetchMany (hbuild : Catalog.build decls = .ok p.catalog)
    (hs : s.rehearsal.answers = []) (h : (p.fetchMany Session.executor req s).1 = .ok records) :
    (∀ r ∈ records, req.scope.criteria.holds r.value) ∧
      ∀ names, ∀ r ∈ Record.reached names records,
        (p.layered req.scope).Passes p.filters names r := by
  have hc := Catalog.isSound_of_build hbuild
  obtain ⟨c, primary, roots, state', hprepare, hprimary, hroots, hinv, hdispatch⟩ :=
    exists_of_fetchMany (Session.readsFrom s.store) ⟨rfl, hs⟩ h
  obtain ⟨root, hprepared⟩ := isPrepared_of_prepare hprepare
  obtain ⟨R, hprimary', hsound, hgroup, hroot, -⟩ := hprepared.exists_primary
  obtain rfl := Option.some.inj (hprimary.symm.trans hprimary')
  -- What is attached later is filtered by the statement that reads it, the roots by the first one.
  have hadmits : ∀ r ∈ records, r.Everywhere ((p.layered req.scope).Admits p.filters) [] := by
    refine CompiledPlan.dispatch_induct
      (P := fun rs => ∀ r ∈ rs, r.Everywhere ((p.layered req.scope).Admits p.filters) [])
      (fun _ _ _ _ hrows hrs hattach => hprepared.everywhere_of_attach hc hrows hrs hattach)
      (Session.readsFrom s.store) hinv (fun r hr => ?_) hdispatch
    obtain ⟨row, hrow, hassemble⟩ := CompiledStatement.exists_of_mem_assemble hroots hr
    obtain ⟨x, hx, rfl⟩ := (hsound.isJoinable hprepared.selected hc).exists_of_mem_evaluate
      (.statement R (p.layered req.scope)) hrow
    have hholds : ∀ t ∈ s.store.rootRows (R.statement (p.layered req.scope)),
        req.scope.criteria.holds t.value = true ∧ ∀ a ∈ R.active, a.filter.holds t.value := by
      intro t ht
      rw [Reading.rootRows_statement hroot, List.mem_filter, Bool.and_eq_true,
        List.all_eq_true] at ht
      exact ht.2
    refine hsound.everywhere_of_assembleRow hprepared.selected hc hgroup
      (fun t ht => (hholds t ht).2) (fun _ t ht => (hholds t ht).1) hx hassemble ?_
    rw [Reading.chainAt_zero hroot]
    exact ⟨rfl, iff_of_true rfl rfl⟩
  refine ⟨fun r hr => ?_, fun names r hr => ?_⟩
  · exact (hadmits r hr [] r (List.mem_singleton_self r)).2 rfl
  · obtain ⟨r', hr', hr⟩ := Record.mem_reached.1 hr
    exact (hadmits r' hr' names r hr).1

end Planner

/-! ### Posts of active users -/

/-- Users who are not active are left out, unless the filter is switched off. -/
def activeUsers : GlobalFilters :=
  { filters := [{ name := "active", entity := "User"
                  predicate := .fixed (.compare .eq "active" (.bool true)) }] }

/-- A planner for posts and users. -/
def postPlanner : Planner :=
  { catalog := postCatalog, filters := activeUsers, config := {} }

/-- All posts, with their authors if these are active. -/
def postRequest : FetchRequest :=
  { root := "Post" }

/-- Posts of which each has an author, one of whom is not active. -/
def authoredStore : Store :=
  { tables :=
      [("posts", [[("id", .int 1), ("author_id", .int 1)], [("id", .int 2), ("author_id", .int 2)]]),
       ("users", [[("id", .int 1), ("active", .bool true)],
         [("id", .int 2), ("active", .bool false)]])] }

namespace Planner

/-- The author who is not active is not in the result. -/
theorem passes_of_fetchMany_posts :
    ∃ records, (postPlanner.fetchMany Session.executor postRequest { store := authoredStore }).1 =
        .ok records ∧
      (∀ r ∈ records, postRequest.scope.criteria.holds r.value) ∧
      ∀ names, ∀ r ∈ Record.reached names records,
        (postPlanner.layered postRequest.scope).Passes postPlanner.filters names r := by
  have hbuild : Catalog.build postDecls = .ok postPlanner.catalog := rfl
  have hs : ({ store := authoredStore } : Session).rehearsal.answers = [] := rfl
  obtain ⟨records, hrecords⟩ : ∃ records, (postPlanner.fetchMany Session.executor postRequest
      { store := authoredStore }).1 = .ok records := ⟨_, rfl⟩
  exact ⟨records, hrecords, passes_of_fetchMany hbuild hs hrecords⟩

end Planner

end EntityFetch
