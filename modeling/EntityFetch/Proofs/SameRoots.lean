import EntityFetch.Proofs.Block
import EntityFetch.Proofs.Comparable
import EntityFetch.Proofs.Filtered

/-!
# What is loaded with the roots

Which roots a fetch gives is settled by the inner joins of its first statement. Two
fetches for the same roots may differ in them, since asking for a relation and
overriding a filter make an inner join a left one or the other way round. They give
the same roots if the relations that are joined in one way here and in the other
way there lead somewhere from every row of their owner
(`Reading.IsSound.reaches_of_reaches`, `Planner.readRows_eq`).
-/

namespace EntityFetch

/-- Whether a relation leads somewhere from every row of its owner. -/
def Catalog.AlwaysLeads (c : Catalog) (store : Store) (e : Relation) : Prop :=
  ∀ owner target, c.entity e.owner = .ok owner → c.entity e.target = .ok target →
    ∀ o ∈ store.rows owner.table, ∃ t ∈ store.rows target.table, e.Matches o t

namespace Reading

variable {k : Compiler} {plan plan' : LoadPlan} {scope scope' : QueryScope} {root : Entity}
  {R R' : Reading} {store : Store} {r : TableRow}

/-- Whether a relation is joined by an inner join, at the end of a chain. -/
def JoinsInner (R : Reading) (chain : List Relation) : Prop :=
  ∃ j ∈ R.joints, j.relation.node.chain = chain ∧ j.kind = .inner

theorem IsInner.lt_length {i : Nat} (h : R.IsInner i) : i < R.slots.length := by
  obtain ⟨t, ht, -⟩ := h
  exact (List.getElem?_eq_some_iff.1 ht).1

/-- Rows picked for the inner joins among the first ones of a reading. Where another
    reading has an inner join for the same relation they are those picked there. -/
structure PicksLike (R R' : Reading) (store : Store) (pick pick' : Nat → TableRow) (m : Nat) :
    Prop where
  agree : ∀ i i' : Nat, i ≤ m → R'.IsInner i → R.IsInner i' → R.chainAt i' = R'.chainAt i →
    pick' i = pick i'
  leads : ∀ n < m, ∀ j : Joint, R'.joints[n]? = some j → j.kind = .inner →
    pick' (n + 1) ∈ store.rows j.target.table ∧ j.edge.Matches (pick' j.parent) (pick' (n + 1))

/-- What is picked at an inner slot is a row of the entity there. -/
theorem PicksLike.mem_rows {pick pick' : Nat → TableRow} {m : Nat}
    (h : PicksLike R R' store pick pick' m) (hstart : pick' 0 ∈ store.rows R'.entity.table)
    {i : Nat} {e : Entity} (hi : i ≤ m) (hinner : R'.IsInner i) (he : R'.entityAt i = some e) :
    pick' i ∈ store.rows e.table := by
  cases i with
  | zero => exact Option.some.inj he ▸ hstart
  | succ n =>
    obtain ⟨j, hj, hkind⟩ := isInner_succ.1 hinner
    rw [entityAt, hj] at he
    exact Option.some.inj he ▸ (h.leads n hi j hj hkind).1

/-- A row is picked for one more join, if it is an inner one. -/
theorem PicksLike.succ {pick pick' : Nat → TableRow} {m : Nat}
    (h : PicksLike R R' store pick pick' m)
    (hle : ∀ (i : Nat) (j : Joint), R'.joints[i]? = some j → j.parent ≤ i) {j : Joint}
    (hj : R'.joints[m]? = some j) {t : TableRow}
    (ht : j.kind = .inner → t ∈ store.rows j.target.table ∧ j.edge.Matches (pick' j.parent) t ∧
      ∀ i, R.IsInner i → R.chainAt i = j.relation.node.chain → t = pick i) :
    PicksLike R R' store pick (fun i => if i = m + 1 then t else pick' i) (m + 1) := by
  constructor
  case agree =>
    intro i i' hi hinner hinner' heq
    by_cases hlast : i = m + 1
    · obtain rfl := hlast
      obtain ⟨j', hj', hkind⟩ := isInner_succ.1 hinner
      obtain rfl := Option.some.inj (hj.symm.trans hj')
      rw [if_pos rfl]
      exact (ht hkind).2.2 i' hinner' (heq.trans (chainAt_succ hj))
    · rw [if_neg hlast]
      exact h.agree i i' (by omega) hinner hinner' heq
  case leads =>
    intro n hn j' hj' hkind
    have hle := hle n j' hj'
    simp only [if_neg (show ¬ j'.parent = m + 1 by omega)]
    by_cases hlast : n = m
    · obtain rfl := hlast
      obtain rfl := Option.some.inj (hj.symm.trans hj')
      rw [if_pos rfl]
      exact ⟨(ht hkind).1, (ht hkind).2.1⟩
    · rw [if_neg (by omega)]
      exact h.leads n (by omega) j' hj' hkind

/-- A row for one more inner join: that of the other reading, if it has the join, or
    one to which the relation leads. -/
theorem IsSound.exists_pick (h : R.IsSound k plan scope) (hsel : plan.IsSelected k.catalog root)
    (hgroup : R.group ∈ plan.groups) (hroot : R.root = none) (h' : R'.IsSound k plan' scope')
    (hsel' : plan'.IsSelected k.catalog root) (hc : k.catalog.IsSound)
    {pick pick' : Nat → TableRow} {m : Nat} (hlike : PicksLike R R' store pick pick' m)
    (hstart : pick' 0 ∈ store.rows R'.entity.table)
    (hpick : ∀ (i : Nat) (j : Joint), R.joints[i]? = some j → j.kind = .inner →
      pick (i + 1) ∈ store.rows j.target.table ∧ j.edge.Matches (pick j.parent) (pick (i + 1)))
    {j : Joint} (hj : R'.joints[m]? = some j) (hkind : j.kind = .inner)
    (hlead : R.JoinsInner j.relation.node.chain ∨ k.catalog.AlwaysLeads store j.edge) :
    ∃ t ∈ store.rows j.target.table, j.edge.Matches (pick' j.parent) t ∧
      ∀ i, R.IsInner i → R.chainAt i = j.relation.node.chain → t = pick i := by
  have hmem := List.mem_of_getElem? hj
  have hparent := (h'.isJoinable hsel' hc).isInner_parent hmem hkind
  have hle := h'.parent_le m j hj
  by_cases hboth : R.JoinsInner j.relation.node.chain
  · obtain ⟨j₁, hmem₁, hchain, hkind₁⟩ := hboth
    obtain ⟨n, hn⟩ := List.mem_iff_getElem?.1 hmem₁
    obtain ⟨hrow, hmatch⟩ := hpick n j₁ hn hkind₁
    have hsplit := hchain
    rw [h.chain_eq hsel hmem₁, h'.chain_eq hsel' hmem] at hsplit
    obtain ⟨hway, hlast⟩ := List.append_inj' hsplit rfl
    have hedge : j₁.edge = j.edge := List.head_eq_of_cons_eq hlast
    have htarget := (h.settled j₁ hmem₁).target
    rw [hedge, (h'.settled j hmem).target] at htarget
    have hinner := (h.isJoinable hsel hc).isInner_parent hmem₁ hkind₁
    refine ⟨pick (n + 1), ?_, ?_, fun i hi hchain' => ?_⟩
    · rw [Except.ok.inj htarget]
      exact hrow
    · rw [hlike.agree _ _ hle hparent hinner hway, ← hedge]
      exact hmatch
    · have hinner₁ : R.IsInner (n + 1) := isInner_succ.2 ⟨j₁, hn, hkind₁⟩
      rw [h.chainAt_inj hsel hgroup hinner₁.lt_length hi.lt_length]
      rw [chainAt_succ hn, hchain, hchain']
  · obtain ⟨e, he, -, howner⟩ := h'.entityAt_parent hsel' hc hmem
    obtain ⟨t, ht, hmatch⟩ := hlead.resolve_left hboth e j.target howner
      (h'.settled j hmem).target _ (hlike.mem_rows hstart hle hparent he)
    refine ⟨t, ht, hmatch, fun i hi hchain => absurd ?_ hboth⟩
    cases i with
    | zero =>
      rw [chainAt_zero hroot, Node.chain] at hchain
      exact absurd hchain.symm (List.concat_ne_nil _ _)
    | succ n =>
      obtain ⟨j₁, hj₁, hkind₁⟩ := isInner_succ.1 hi
      exact ⟨j₁, List.mem_of_getElem? hj₁, chainAt_succ hj₁ ▸ hchain, hkind₁⟩

/-- Rows that are reached by the inner joins of one reading are reached by those of
    another one, if every inner join that only the latter has leads somewhere. -/
theorem IsSound.reaches_of_reaches (h : R.IsSound k plan scope)
    (hsel : plan.IsSelected k.catalog root) (hgroup : R.group ∈ plan.groups)
    (hroot : R.root = none) (h' : R'.IsSound k plan' scope')
    (hsel' : plan'.IsSelected k.catalog root) (hroot' : R'.root = none) (hc : k.catalog.IsSound)
    (hlead : ∀ j ∈ R'.joints, j.kind = .inner →
      R.JoinsInner j.relation.node.chain ∨ k.catalog.AlwaysLeads store j.edge)
    (hr : r ∈ store.rows R'.entity.table) (hreaches : R.Reaches store r) :
    R'.Reaches store r := by
  obtain ⟨pick, hstart, hpick⟩ := hreaches
  have hpicked : ∀ m ≤ R'.joints.length, ∃ pick' : Nat → TableRow, pick' 0 = r ∧
      PicksLike R R' store pick pick' m := by
    intro m
    induction m with
    | zero =>
      refine fun _ => ⟨fun _ => r, rfl, fun i i' hi _ hinner' heq => ?_,
        fun n hn => absurd hn (Nat.not_lt_zero n)⟩
      obtain rfl := Nat.le_zero.1 hi
      rw [chainAt_zero hroot', ← chainAt_zero hroot] at heq
      rw [h.chainAt_inj hsel hgroup hinner'.lt_length (Nat.succ_pos _) heq, hstart]
    | succ m ih =>
      intro hm
      obtain ⟨pick', rfl, hlike⟩ := ih (Nat.le_of_succ_le hm)
      obtain ⟨j, hj⟩ : ∃ j, R'.joints[m]? = some j := ⟨_, List.getElem?_eq_getElem hm⟩
      obtain ⟨t, ht⟩ : ∃ t : TableRow, j.kind = .inner → t ∈ store.rows j.target.table ∧
          j.edge.Matches (pick' j.parent) t ∧
            ∀ i, R.IsInner i → R.chainAt i = j.relation.node.chain → t = pick i := by
        by_cases hkind : j.kind = .inner
        · obtain ⟨t, ht⟩ := h.exists_pick hsel hgroup hroot h' hsel' hc hlike hr hpick hj hkind
            (hlead j (List.mem_of_getElem? hj) hkind)
          exact ⟨t, fun _ => ht⟩
        · exact ⟨[], fun hinner => absurd hinner hkind⟩
      exact ⟨fun i => if i = m + 1 then t else pick' i, rfl, hlike.succ h'.parent_le hj ht⟩
  obtain ⟨pick', hstart', hlike⟩ := hpicked _ (Nat.le_refl _)
  exact ⟨pick', hstart', fun n j hj =>
    hlike.leads n (List.getElem?_eq_some_iff.1 hj).1 j hj⟩

end Reading

/-! ### Root records -/

/-- The fields of the record of a row. -/
def Entity.fields (e : Entity) (r : TableRow) : List (String × Value) :=
  Assoc.ofList (e.columns.map fun c => (c, r.value c))

/-- The key of a field of a record with some fields. -/
def fieldKey? (field : String) (fields : List (String × Value)) : Option Key :=
  (fields.lookup field).bind Value.key?

theorem Entity.fieldKey?_fields {e : Entity} {c : String} (hc : c ∈ e.columns) (r : TableRow) :
    fieldKey? c (e.fields r) = (r.value c).key? := by
  rw [fieldKey?, fields, Assoc.lookup_ofList_map, if_pos hc]
  rfl

namespace Reading

variable {k : Compiler} {plan plan' : LoadPlan} {scope scope' : QueryScope} {root : Entity}
  {R R' : Reading} {store : Store} {s : Statement}

/-- The rows of the root, each as often as it is combined with others, in order. -/
def repeatedRows (R : Reading) (store : Store) (s : Statement) : List TableRow :=
  Store.sortBy (TableRow.isBelow s.orderBy) <| (store.rootRows s).flatMap fun r =>
    List.replicate (expand store R.joints [some r]).length r

/-- The record of a row with others has the fields of the row. -/
theorem IsJoinable.fields_of_expand (hR : R.IsJoinable) (hlinked : IsLinked R.slots)
    {t : TableRow} {x : Combination} (hx : x ∈ expand store R.joints [some t]) {r : Record}
    (h : (R.compiled scope).assembleRow (x.row R.slots) = .ok r) :
    r.fields = R.entity.fields t := by
  obtain ⟨hroot, hlen, -⟩ := hR.fits hx
  obtain ⟨out, r', hout, hzero, hr'⟩ := exists_isAssembled hR hlinked hlen scope
  obtain rfl := Except.ok.inj (h.symm.trans hr')
  rw [hout.eq_withChildren (t := R.rootSlot) rfl hzero, hroot]
  rfl

/-- The record of a combination has the fields of the row of the root. -/
theorem IsJoinable.fields_of_assembleRow (hR : R.IsJoinable) (hlinked : IsLinked R.slots)
    {x : Combination} (hx : x ∈ R.combinations store s) {r : Record}
    (h : (R.compiled scope).assembleRow (x.row R.slots) = .ok r) :
    r.fields = R.entity.fields x.root := by
  obtain ⟨t, -, hx⟩ := List.mem_flatMap.1 hx
  rw [hR.fields_of_expand hlinked hx h, Combination.root, (hR.fits hx).1]
  rfl

/-- The records of a statement have the fields of the rows of the root, the first
    one of every key. -/
theorem IsJoinable.fields_of_assemble (hR : R.IsJoinable) (hlinked : IsLinked R.slots)
    (hs : s.Reads R) (horder : ∀ o ∈ s.orderBy, o.column ∈ R.entity.columns)
    (hlimit : s.limit = none) (hoffset : s.offset = none) {rs : List Record}
    (h : (R.compiled scope).assemble (store.evaluate s) = .ok rs) :
    rs.map Record.fields = firstBy (fieldKey? R.entity.primaryKey) []
      ((R.repeatedRows store s).map R.entity.fields) := by
  unfold CompiledStatement.assemble at h
  obtain ⟨all, hall, h⟩ := bind_eq_ok.1 h
  obtain rfl := pure_eq_ok.1 h
  rw [hR.evaluate_eq hs horder hlimit hoffset, mapM_eq_ok, List.forall₂_map_left_iff] at hall
  have hfields : all.map Record.fields = (R.repeatedRows store s).map R.entity.fields := by
    have hroots : R.repeatedRows store s = (Store.sortBy (fun x y : Combination =>
        TableRow.isBelow s.orderBy x.root y.root) (R.combinations store s)).map
          Combination.root := by
      rw [← Store.sortBy_map, repeatedRows, combinations, List.map_flatMap]
      refine congrArg _ (List.flatMap_congr fun r hr => ?_)
      refine (List.eq_replicate_iff.2 ⟨List.length_map .., fun t ht => ?_⟩).symm
      obtain ⟨x, hx, rfl⟩ := List.mem_map.1 ht
      rw [Combination.root, (hR.fits hx).1]
      rfl
    rw [hroots, List.map_map]
    exact map_eq_map_of_forall₂ hall fun x hx r hr =>
      hR.fields_of_assembleRow hlinked ((Store.sortBy_perm _).mem_iff.1 hx) hr
  rw [firstByKey_eq, ← hfields, firstBy_map]
  rfl

end Reading

/-- Whether no two rows of an entity have the same primary key. -/
def Store.IsKeyed (store : Store) (e : Entity) : Prop :=
  ∀ a ∈ store.rows e.table, ∀ b ∈ store.rows e.table, (a.value e.primaryKey).key?.isSome →
    (a.value e.primaryKey).key? = (b.value e.primaryKey).key? → a = b

namespace Reading

variable {R : Reading} {store : Store} {s : Statement}

/-- The rows of the root that are combined with others at all. -/
def readRows (R : Reading) (store : Store) (s : Statement) : List TableRow :=
  (store.rootRows s).filter fun r => 0 < (expand store R.joints [some r]).length

/-- Which fields are read does not depend on how often a row is combined with
    others, if the rows can be sorted. -/
theorem mem_firstBy_repeatedRows
    (hordered : Store.IsPreorderOn (TableRow.compareBy s.orderBy) (store.rootRows s))
    (key : List (String × Value) → Option Key) (fields : List (String × Value)) :
    fields ∈ firstBy key [] ((R.repeatedRows store s).map R.entity.fields) ↔
      ∃ r ∈ firstBy (key ∘ R.entity.fields) []
        (Store.sortBy (TableRow.isBelow s.orderBy) (R.readRows store s)),
          R.entity.fields r = fields := by
  have hrepeats := hordered.repeats_sortBy fun r => (expand store R.joints [some r]).length
  rw [firstBy_map, List.mem_map]
  constructor
  · rintro ⟨r, hr, rfl⟩
    exact ⟨r, (hrepeats.mem_firstBy_iff [] r).1 hr, rfl⟩
  · rintro ⟨r, hr, rfl⟩
    exact ⟨r, (hrepeats.mem_firstBy_iff [] r).2 hr, rfl⟩

/-- If rows are told apart by their primary keys, their order makes no difference. -/
theorem mem_firstBy_repeatedRows_of_isKeyed (hkeyed : store.IsKeyed R.entity)
    (hprimary : R.entity.primaryKey ∈ R.entity.columns)
    (hrows : ∀ r ∈ store.rootRows s, r ∈ store.rows R.entity.table)
    (fields : List (String × Value)) :
    fields ∈ firstBy (fieldKey? R.entity.primaryKey) []
        ((R.repeatedRows store s).map R.entity.fields) ↔
      ∃ r ∈ R.readRows store s, R.entity.fields r = fields := by
  have hmem : ∀ {r}, r ∈ R.repeatedRows store s ↔ r ∈ R.readRows store s := by
    intro r
    rw [repeatedRows, (Store.sortBy_perm _).mem_iff, readRows, List.mem_filter, List.mem_flatMap]
    simp only [List.mem_replicate, decide_eq_true_eq, Nat.pos_iff_ne_zero]
    exact ⟨fun ⟨_, ht, hne, heq⟩ => heq ▸ ⟨ht, hne⟩, fun ⟨hr, hne⟩ => ⟨r, hr, hne, rfl⟩⟩
  have htable : ∀ {r}, r ∈ R.repeatedRows store s → r ∈ store.rows R.entity.table :=
    fun hr => hrows _ (List.mem_filter.1 (hmem.1 hr)).1
  rw [mem_firstBy_of_inj, List.mem_map]
  · simp only [hmem]
    exact and_iff_left fun k hk => absurd hk List.not_mem_nil
  · intro a ha b hb
    obtain ⟨r, hr, rfl⟩ := List.mem_map.1 ha
    obtain ⟨t, ht, rfl⟩ := List.mem_map.1 hb
    rw [Entity.fieldKey?_fields hprimary, Entity.fieldKey?_fields hprimary]
    exact fun hsome heq => congrArg _ (hkeyed r (htable hr) t (htable ht) hsome heq)

end Reading

/-- Attaching leaves the fields of the roots as they are. -/
theorem CompiledPlan.fields_of_attach {c : CompiledPlan} {rs rs' : List Record} {group : Nat}
    {rows : List Row} (h : c.attach rs group rows = .ok rs') :
    rs'.map Record.fields = rs.map Record.fields := by
  unfold attach at h
  split at h
  · obtain ⟨records, -, h⟩ := bind_eq_ok.1 h
    obtain rfl := pure_eq_ok.1 h
    rw [List.map_map]
    exact List.map_congr_left fun r _ =>
      Record.fields_updateAt (f := fun owner => owner.setRelation _ (relatedTo _ records owner))
        (fun _ => rfl) _ r
  · rw [pure_eq_ok.1 h]

/-- Two requests for the same roots. What is loaded with them and the overrides below
    the root may differ. -/
structure FetchRequest.SameRoot (q q' : FetchRequest) : Prop where
  root : q.root = q'.root
  criteria : q.scope.criteria = q'.scope.criteria
  filters : q.scope.filters = q'.scope.filters
  atRoot : q.scope.populateFilters.lookup "" = q'.scope.populateFilters.lookup ""

/-- Whether a request leaves out no roots. -/
structure FetchRequest.IsWhole (q : FetchRequest) : Prop where
  take : q.scope.take = none
  skip : q.scope.skip = none

/-- Whether the statement of a group joins the relation at the end of a chain by an
    inner join. -/
def CompiledPlan.JoinsInner (c : CompiledPlan) (group : Nat) (chain : List Relation) : Prop :=
  ∃ r ∈ c.plan.relations, r.node.chain = chain ∧ ∃ cs, c.statement? group = some cs ∧
    ∃ j ∈ cs.statement.joins, j.path = r.path ∧ j.kind = .inner

namespace Planner

variable {p : Planner} {q q' : FetchRequest} {root : Entity} {c c' : CompiledPlan}
  {store : Store} {s s' : Session} {rs rs' : List Record} {σ : Type} {x : Executor σ}
  {inv : σ → Prop} {state : σ}

/-- The roots of a fetch, by their fields. -/
theorem fields_of_fetchMany (hc : p.catalog.IsSound) (hprepared : c.IsPrepared p q root)
    (hprepare : p.prepare q = .ok c) (hq : q.IsWhole) {R : Reading}
    (hprimary : c.primary? = some (R.compiled (p.layered q.scope)))
    (hsound : R.IsSound p.compiler c.plan (p.layered q.scope)) (hgroup : R.group ∈ c.plan.groups)
    (hroot : R.root = none) (hx : x.ReadsFrom store inv) (hinv : inv state)
    (h : (p.fetchMany x q state).1 = .ok rs) :
    rs.map Record.fields = firstBy (fieldKey? R.entity.primaryKey) []
      ((R.repeatedRows store (R.statement (p.layered q.scope))).map R.entity.fields) := by
  obtain ⟨c', primary, roots, state', hprepare', hprimary', hroots, hinv', hdispatch⟩ :=
    exists_of_fetchMany hx hinv h
  obtain rfl := Except.ok.inj (hprepare.symm.trans hprepare')
  obtain rfl := Option.some.inj (hprimary.symm.trans hprimary')
  obtain ⟨horder, hlimit, hoffset⟩ := R.statement_of_root_eq_none hroot (p.layered q.scope)
  have hfields : roots.map Record.fields = _ :=
    (hsound.isJoinable hprepared.selected hc).fields_of_assemble
      (hsound.isLinked hprepared.selected hgroup) (.statement R (p.layered q.scope))
      (fun o ho => hsound.orderBy hroot o (horder ▸ ho)) (hlimit.trans hq.take)
      (hoffset.trans hq.skip) hroots
  rw [← hfields]
  exact CompiledPlan.dispatch_induct (P := fun rs => rs.map Record.fields = _)
    (fun _ _ _ _ _ hrs hattach => (CompiledPlan.fields_of_attach hattach).trans hrs)
    hx hinv' rfl hdispatch

/-- The inner joins of a statement are those of its reading. -/
theorem joinsInner_iff (hprepared : c.IsPrepared p q root) {R : Reading} {i : Nat}
    (hcs : c.statement? i = some (R.compiled (p.layered q.scope)))
    (hsound : R.IsSound p.compiler c.plan (p.layered q.scope)) (chain : List Relation) :
    c.JoinsInner i chain ↔ R.JoinsInner chain := by
  constructor
  · rintro ⟨r, hr, rfl, cs, hcs', j, hj, hpath, hkind⟩
    obtain rfl := Option.some.inj (hcs.symm.trans hcs')
    obtain ⟨J, hJ, rfl⟩ := List.mem_map.1 hj
    refine ⟨J, hJ, ?_, hkind⟩
    rw [hprepared.selected.eq_of_path (hsound.relation_mem hJ) hr hpath]
  · rintro ⟨J, hJ, rfl, hkind⟩
    exact ⟨J.relation, hsound.relation_mem hJ, rfl, _, hcs, J.join, List.mem_map_of_mem hJ, rfl,
      hkind⟩

/-- Two fetches for the same roots put the same conditions on the rows of the root. -/
theorem rootRows_eq (hsame : q.SameRoot q') {R R' : Reading}
    (hsound : R.IsSound p.compiler c.plan (p.layered q.scope))
    (hsound' : R'.IsSound p.compiler c'.plan (p.layered q'.scope))
    (hroot : R.root = none) (hroot' : R'.root = none) (hentity : R'.entity = R.entity) :
    store.rootRows (R.statement (p.layered q.scope)) =
      store.rootRows (R'.statement (p.layered q'.scope)) := by
  have hoverrides : (p.layered q.scope).overridesFor "" = (p.layered q'.scope).overridesFor "" := by
    simp only [QueryScope.overridesFor, layered, hsame.filters, hsame.atRoot]
  have hactive : R.active = R'.active := by
    have h := hsound.active
    have h' := hsound'.active
    rw [Reading.path, hroot] at h
    rw [Reading.path, hroot', hentity] at h'
    have h : p.compiler.activeAt (p.layered q.scope) R.entity "" = .ok R.active := h
    have h' : p.compiler.activeAt (p.layered q'.scope) R.entity "" = .ok R'.active := h'
    rw [Compiler.activeAt, hoverrides] at h
    exact Except.ok.inj (h.symm.trans h')
  rw [Reading.rootRows_statement hroot, Reading.rootRows_statement hroot', hentity, hactive]
  simp only [layered, hsame.criteria]

/-- Two fetches for the same roots read the same rows, if the relations that only one
    of them joins by an inner join lead somewhere from every row of their owner. -/
theorem readRows_eq (hc : p.catalog.IsSound) (hsame : q.SameRoot q')
    (hprepared : c.IsPrepared p q root) (hprepared' : c'.IsPrepared p q' root)
    {R R' : Reading} (hprimary : c.primary? = some (R.compiled (p.layered q.scope)))
    (hprimary' : c'.primary? = some (R'.compiled (p.layered q'.scope)))
    (hsound : R.IsSound p.compiler c.plan (p.layered q.scope))
    (hsound' : R'.IsSound p.compiler c'.plan (p.layered q'.scope))
    (hgroup : R.group ∈ c.plan.groups) (hgroup' : R'.group ∈ c'.plan.groups)
    (hroot : R.root = none) (hroot' : R'.root = none) (hentity : R'.entity = R.entity)
    (hlead : ∀ chain e, (c.JoinsInner 0 (chain ++ [e]) ↔ c'.JoinsInner 0 (chain ++ [e])) ∨
      p.catalog.AlwaysLeads store e) :
    R.readRows store (R.statement (p.layered q.scope)) =
      R'.readRows store (R'.statement (p.layered q'.scope)) := by
  rw [Reading.readRows, Reading.readRows, rootRows_eq hsame hsound hsound' hroot hroot' hentity]
  refine List.filter_congr fun r hr => ?_
  have hmem : r ∈ store.rows R'.entity.table := (List.mem_filter.1 hr).1
  rw [decide_eq_decide, List.length_pos_iff_exists_mem, List.length_pos_iff_exists_mem,
    (hsound.isJoinable hprepared.selected hc).exists_mem_expand_iff,
    (hsound'.isJoinable hprepared'.selected hc).exists_mem_expand_iff]
  -- A joint that is inner on one side only leads somewhere, so that its row can be picked there.
  have hinner := joinsInner_iff hprepared hprimary hsound
  have hinner' := joinsInner_iff hprepared' hprimary' hsound'
  constructor
  · refine hsound.reaches_of_reaches hprepared.selected hgroup hroot hsound' hprepared'.selected
      hroot' hc (fun j hj hkind => ?_) hmem
    have hchain := hsound'.chain_eq hprepared'.selected hj
    refine (hlead (R'.chainAt j.parent) j.edge).imp_left fun h => ?_
    rw [← hchain, hinner, hinner'] at h
    exact h.2 ⟨j, hj, rfl, hkind⟩
  · refine hsound'.reaches_of_reaches hprepared'.selected hgroup' hroot' hsound hprepared.selected
      hroot hc (fun j hj hkind => ?_) (hentity ▸ hmem)
    have hchain := hsound.chain_eq hprepared.selected hj
    refine (hlead (R.chainAt j.parent) j.edge).imp_left fun h => ?_
    rw [← hchain, hinner, hinner'] at h
    exact h.1 ⟨j, hj, rfl, hkind⟩

/-- Two fetches that succeed give the same roots if they ask for the same ones, however
    they differ in what is loaded with them and in the overrides below the root,
    provided that the relations that only one of them joins to the root by an inner join
    lead somewhere from every row of their owner. The order matters only where the
    primary key does not tell rows of the root apart; there it has to be the same, and by
    columns with comparable values. -/
theorem mem_roots_iff_of_sameRoot {decls : List EntityDecl}
    (hbuild : Catalog.build decls = .ok p.catalog) (hsame : q.SameRoot q') (hq : q.IsWhole)
    (hq' : q'.IsWhole) (horder : ∀ e, p.catalog.entity q.root = .ok e →
      q.scope.orderBy = q'.scope.orderBy ∧
          TableRow.AreComparable (store.rows e.table) q.scope.orderBy ∨
        store.IsKeyed e)
    (hprepare : p.prepare q = .ok c) (hprepare' : p.prepare q' = .ok c')
    (hlead : ∀ chain e, (c.JoinsInner 0 (chain ++ [e]) ↔ c'.JoinsInner 0 (chain ++ [e])) ∨
      p.catalog.AlwaysLeads store e)
    (hs : s.store = store ∧ s.rehearsal.answers = [])
    (hs' : s'.store = store ∧ s'.rehearsal.answers = [])
    (h : (p.fetchMany Session.executor q s).1 = .ok rs)
    (h' : (p.fetchMany Session.executor q' s').1 = .ok rs') (fields : List (String × Value)) :
    fields ∈ rs.map Record.fields ↔ fields ∈ rs'.map Record.fields := by
  have hc := Catalog.isSound_of_build hbuild
  obtain ⟨root, hprepared⟩ := isPrepared_of_prepare hprepare
  obtain ⟨root', hprepared'⟩ := isPrepared_of_prepare hprepare'
  have hentity : p.catalog.entity q.root = .ok root := hprepared.root_eq ▸ hprepared.selected.entity
  obtain rfl : root = root' := by
    have hentity' := hprepared'.selected.entity
    rw [hprepared'.root_eq, ← hsame.root, hentity] at hentity'
    exact Except.ok.inj hentity'
  obtain ⟨R, hprimary, hsound, hgroup, hroot, rfl⟩ := hprepared.exists_primary
  obtain ⟨R', hprimary', hsound', hgroup', hroot', hentity'⟩ := hprepared'.exists_primary
  have hrows := readRows_eq hc hsame hprepared hprepared' hprimary hprimary' hsound hsound' hgroup
    hgroup' hroot hroot' hentity' hlead
  have hby : ∀ {R : Reading} {q : FetchRequest}, R.root = none →
      (R.statement (p.layered q.scope)).orderBy = q.scope.orderBy :=
    fun hroot => (Reading.statement_of_root_eq_none hroot _).1
  have hroots : store.rootRows (R.statement (p.layered q.scope)) = _ :=
    rootRows_eq hsame hsound hsound' hroot hroot' hentity'
  have hmem : ∀ r ∈ store.rootRows (R.statement (p.layered q.scope)),
      r ∈ store.rows R.entity.table := fun r hr => (List.mem_filter.1 hr).1
  rw [fields_of_fetchMany hc hprepared hprepare hq hprimary hsound hgroup hroot
      (Session.readsFrom store) hs h,
    fields_of_fetchMany hc hprepared' hprepare' hq' hprimary' hsound' hgroup' hroot'
      (Session.readsFrom store) hs' h']
  rcases horder _ hentity with ⟨horder, hcomparable⟩ | hkeyed
  · have hordered := (hcomparable.mono hmem).isPreorderOn
    rw [Reading.mem_firstBy_repeatedRows (by rwa [hby hroot]),
      Reading.mem_firstBy_repeatedRows (by rwa [hby hroot', ← horder, ← hroots]), hby hroot,
      hby hroot', ← horder, ← hrows, hentity']
  · -- The keys tell the rows apart, so that all are left in any order.
    have hkey := hc.primaryKey_mem _ (Catalog.entity_eq_ok hentity).1
    rw [Reading.mem_firstBy_repeatedRows_of_isKeyed hkeyed hkey hmem,
      Reading.mem_firstBy_repeatedRows_of_isKeyed (hentity' ▸ hkeyed) (hentity' ▸ hkey)
        (by rwa [← hroots, hentity']), ← hrows, hentity']

end Planner

/-! ### Missing authors -/

/-- All posts, with their authors. -/
def unfilteredRequest : FetchRequest :=
  postRequest.withPathOverrides "author" (Overrides.empty.disable "active")

/-- Two posts with one primary key. -/
def twinStore : Store :=
  { tables := [("posts", [[("id", .int 1), ("author_id", .int 1)],
      [("id", .int 1), ("author_id", .int 2)]])] }

/-- All posts with their authors, those of the last author first. -/
def latestRequest : FetchRequest :=
  { root := "Post", populate := ["author"]
    scope := { orderBy := [{ column := "author_id", direction := .descending }] } }

/-- All posts, those of the first author first. -/
def earliestRequest : FetchRequest :=
  { root := "Post", scope := { orderBy := [{ column := "author_id" }] } }

/-- All posts with their authors, active or not, those of the first author first. -/
def unfilteredEarliestRequest : FetchRequest :=
  earliestRequest.withPathOverrides "author" (Overrides.empty.disable "active")

/-- Twenty posts, most of an author with a name in place of a number. The first and the tenth one
    have one primary key, and the author of the first one is there twice. -/
def namedStore : Store :=
  { tables :=
      [("posts", (List.range 20).map fun n =>
        [("id", .int (if n = 9 then 0 else n)),
         ("author_id", if n = 0 then .int 3 else if n = 1 then .int 2 else if n = 9 then .int 1
           else .str "x")]),
       ("users", [[("id", .int 1), ("active", .bool true)], [("id", .int 2), ("active", .bool true)],
         [("id", .int 3), ("active", .bool true)], [("id", .int 3), ("active", .bool false)],
         [("id", .str "x"), ("active", .bool true)]])] }

namespace Planner

/-- A relation to an author always leads somewhere if every post has an author among the users. -/
theorem alwaysLeads_author {store : Store} (h : ∀ o ∈ store.rows "posts",
    ∃ t ∈ store.rows "users", (o.value "author_id").equal? (t.value "id") = some true) :
    postPlanner.catalog.AlwaysLeads store postAuthor := by
  intro owner target howner htarget
  obtain rfl := Except.ok.inj howner
  obtain rfl := Except.ok.inj htarget
  exact h

/-- The posts are the same whether their authors are filtered or not, if no author is
    missing and the authors have an order. -/
theorem mem_roots_iff_of_sameRoot_posts :
    ∃ rs rs', (postPlanner.fetchMany Session.executor earliestRequest
        { store := authoredStore }).1 = .ok rs ∧
      (postPlanner.fetchMany Session.executor unfilteredEarliestRequest
        { store := authoredStore }).1 = .ok rs' ∧ rs.length = 2 ∧
      ∀ fields, fields ∈ rs.map Record.fields ↔ fields ∈ rs'.map Record.fields := by
  have hbuild : Catalog.build postDecls = .ok postPlanner.catalog := rfl
  obtain ⟨c, hc, hrelations⟩ : ∃ c, postPlanner.prepare earliestRequest = .ok c ∧
      c.plan.relations.map (fun r => r.node.chain) = [[postAuthor]] := ⟨_, rfl, rfl⟩
  obtain ⟨c', hc', hrelations'⟩ : ∃ c, postPlanner.prepare unfilteredEarliestRequest = .ok c ∧
      c.plan.relations.map (fun r => r.node.chain) = [[postAuthor]] := ⟨_, rfl, rfl⟩
  have hchain : ∀ {c : CompiledPlan}, c.plan.relations.map (fun r => r.node.chain) =
      [[postAuthor]] → ∀ {chain e}, c.JoinsInner 0 (chain ++ [e]) → e = postAuthor := by
    rintro c hrelations chain e ⟨r, hr, heq, -⟩
    have hmem : r.node.chain ∈ [[postAuthor]] := hrelations ▸ List.mem_map_of_mem hr
    rw [heq, List.mem_singleton] at hmem
    exact (List.append_inj' (hmem.trans (List.nil_append _).symm) rfl).2 |> List.head_eq_of_cons_eq
  have hleads : postPlanner.catalog.AlwaysLeads authoredStore postAuthor :=
    alwaysLeads_author (by decide)
  have hlead : ∀ chain e, (c.JoinsInner 0 (chain ++ [e]) ↔ c'.JoinsInner 0 (chain ++ [e])) ∨
      postPlanner.catalog.AlwaysLeads authoredStore e := by
    intro chain e
    by_cases he : e = postAuthor
    · exact Or.inr (he ▸ hleads)
    · exact Or.inl ⟨fun h => absurd (hchain hrelations h) he,
        fun h => absurd (hchain hrelations' h) he⟩
  have horder : ∀ e, postPlanner.catalog.entity earliestRequest.root = .ok e →
      earliestRequest.scope.orderBy = unfilteredEarliestRequest.scope.orderBy ∧
          TableRow.AreComparable (authoredStore.rows e.table) earliestRequest.scope.orderBy ∨
        authoredStore.IsKeyed e := by
    intro e he
    obtain rfl := Except.ok.inj he
    refine Or.inl ⟨rfl, fun o ho => Or.inl ⟨.int, ?_⟩⟩
    obtain rfl := List.mem_singleton.1 ho
    have hall : ∀ v ∈ (authoredStore.rows "posts").map (·.value "author_id"),
        v.isNullOr .int := by decide
    exact hall
  obtain ⟨rs, hrs, hlength⟩ : ∃ rs, (postPlanner.fetchMany Session.executor earliestRequest
      { store := authoredStore }).1 = .ok rs ∧ rs.length = 2 := ⟨_, rfl, rfl⟩
  obtain ⟨rs', hrs'⟩ : ∃ rs, (postPlanner.fetchMany Session.executor unfilteredEarliestRequest
      { store := authoredStore }).1 = .ok rs := ⟨_, rfl⟩
  have hsame : earliestRequest.SameRoot unfilteredEarliestRequest := ⟨rfl, rfl, rfl, rfl⟩
  have hwhole : earliestRequest.IsWhole := ⟨rfl, rfl⟩
  have hwhole' : unfilteredEarliestRequest.IsWhole := ⟨rfl, rfl⟩
  exact ⟨rs, rs', hrs, hrs', hlength, mem_roots_iff_of_sameRoot hbuild hsame hwhole hwhole'
    horder hc hc' hlead ⟨rfl, rfl⟩ ⟨rfl, rfl⟩ hrs hrs'⟩

/-- A post whose author is missing is read if inactive authors are left out, and lost
    if they are not: only then is the author joined by an inner join. Which of two posts
    with one primary key is read is settled by the order; and if the authors have none, not
    even by the order, since one row more makes the sort go other ways. -/
theorem lost_root_posts :
    Planner.make postCatalog activeUsers {} = .ok postPlanner ∧
      (postRequest.SameRoot unfilteredRequest ∧ postRequest.IsWhole ∧ unfilteredRequest.IsWhole ∧
        ∃ rs rs',
          (postPlanner.fetchMany Session.executor postRequest { store := postStore }).1 = .ok rs ∧
          (postPlanner.fetchMany Session.executor unfilteredRequest { store := postStore }).1 =
            .ok rs' ∧
          [("id", .int 2), ("author_id", .int 9)] ∈ rs.map Record.fields ∧
          [("id", .int 2), ("author_id", .int 9)] ∉ rs'.map Record.fields) ∧
      (latestRequest.SameRoot earliestRequest ∧ latestRequest.IsWhole ∧ earliestRequest.IsWhole ∧
        ∃ rs rs',
          (postPlanner.fetchMany Session.executor latestRequest { store := twinStore }).1 =
            .ok rs ∧
          (postPlanner.fetchMany Session.executor earliestRequest { store := twinStore }).1 =
            .ok rs' ∧
          [("id", .int 1), ("author_id", .int 2)] ∈ rs.map Record.fields ∧
          [("id", .int 1), ("author_id", .int 2)] ∉ rs'.map Record.fields) ∧
      (earliestRequest.SameRoot unfilteredEarliestRequest ∧ earliestRequest.IsWhole ∧
        unfilteredEarliestRequest.IsWhole ∧
        earliestRequest.scope.orderBy = unfilteredEarliestRequest.scope.orderBy ∧
        postPlanner.catalog.AlwaysLeads namedStore postAuthor ∧
        ∃ rs rs',
          (postPlanner.fetchMany Session.executor earliestRequest { store := namedStore }).1 =
            .ok rs ∧
          (postPlanner.fetchMany Session.executor unfilteredEarliestRequest
            { store := namedStore }).1 = .ok rs' ∧
          [("id", .int 0), ("author_id", .int 3)] ∈ rs.map Record.fields ∧
          [("id", .int 0), ("author_id", .int 3)] ∉ rs'.map Record.fields) := by
  obtain ⟨rs, hrs, hboth⟩ : ∃ rs, (postPlanner.fetchMany Session.executor postRequest
      { store := postStore }).1 = .ok rs ∧ rs.map Record.fields =
        [[("id", .int 1), ("author_id", .int 1)], [("id", .int 2), ("author_id", .int 9)]] :=
    ⟨_, rfl, rfl⟩
  obtain ⟨rs', hrs', hfirst⟩ : ∃ rs, (postPlanner.fetchMany Session.executor unfilteredRequest
      { store := postStore }).1 = .ok rs ∧ rs.map Record.fields =
        [[("id", .int 1), ("author_id", .int 1)]] := ⟨_, rfl, rfl⟩
  obtain ⟨ts, hts, hlatest⟩ : ∃ rs, (postPlanner.fetchMany Session.executor latestRequest
      { store := twinStore }).1 = .ok rs ∧ rs.map Record.fields =
        [[("id", .int 1), ("author_id", .int 2)]] := ⟨_, rfl, rfl⟩
  obtain ⟨ts', hts', hearliest⟩ : ∃ rs, (postPlanner.fetchMany Session.executor earliestRequest
      { store := twinStore }).1 = .ok rs ∧ rs.map Record.fields =
        [[("id", .int 1), ("author_id", .int 1)]] := ⟨_, rfl, rfl⟩
  have hleads : postPlanner.catalog.AlwaysLeads namedStore postAuthor :=
    alwaysLeads_author (by decide)
  obtain ⟨us, hus, hnamed⟩ : ∃ rs, (postPlanner.fetchMany Session.executor earliestRequest
      { store := namedStore }).1 = .ok rs ∧
        (rs.map Record.fields)[1]? = some [("id", .int 0), ("author_id", .int 3)] := ⟨_, rfl, rfl⟩
  obtain ⟨us', hus', hother⟩ : ∃ rs,
      (postPlanner.fetchMany Session.executor unfilteredEarliestRequest
        { store := namedStore }).1 = .ok rs ∧
        (rs.map Record.fields).all (fun fields => fields.lookup "author_id" != some (.int 3)) :=
    ⟨_, rfl, rfl⟩
  refine ⟨rfl, ⟨⟨rfl, rfl, rfl, rfl⟩, ⟨rfl, rfl⟩, ⟨rfl, rfl⟩, rs, rs', hrs, hrs', ?_, ?_⟩,
    ⟨⟨rfl, rfl, rfl, rfl⟩, ⟨rfl, rfl⟩, ⟨rfl, rfl⟩, ts, ts', hts, hts', ?_, ?_⟩,
    ⟨rfl, rfl, rfl, rfl⟩, ⟨rfl, rfl⟩, ⟨rfl, rfl⟩, rfl, hleads, us, us', hus, hus',
    List.mem_of_getElem? hnamed, fun hmem => ?_⟩
  · rw [hboth]
    exact List.mem_cons_of_mem _ List.mem_cons_self
  · rw [hfirst]
    simp
  · rw [hlatest]
    exact List.mem_cons_self
  · rw [hearliest]
    simp
  · exact absurd (List.all_eq_true.1 hother _ hmem) (by decide)

end Planner

end EntityFetch
