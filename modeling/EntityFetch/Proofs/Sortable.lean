import EntityFetch.Proofs.Comparable
import EntityFetch.Proofs.Scoped

/-!
# Statements that can be sorted

A statement sorts its rows by what is at their root. If the columns have comparable values
in the rows of the root of which all conditions are true, the sort comes to an end
(`Reading.IsSound.breaksOff_eq_false`), and a row of the root is read exactly if all inner
joins reach a row from it (`Compiler.root_read_iff`). Of a column with values of several
kinds not even that can be said: the sort of its rows may break off, so that nothing is read
(`Compiler.unread_items`).
-/

namespace EntityFetch

/-- A sort by an order comes to an end. -/
theorem Store.breaksOff_eq_false {store : Store} {s : Statement}
    (h : IsPreorderOn (fun a b => compareRows s.root.aliasName a b s.orderBy)
      (store.joinedRows s)) : store.breaksOff s = false := by
  have hsort : (Sorting.sort? (isBefore s) (store.joinedRows s)).isNone = false := by
    rw [show isBefore s = fun a b => compareRows s.root.aliasName a b s.orderBy == .lt from rfl,
      h.sort?_eq]
    rfl
  rw [breaksOff, hsort, Bool.and_false]

namespace Reading

variable {R : Reading} {store : Store} {s : Statement} {k : Compiler} {plan : LoadPlan}
  {scope : QueryScope} {root : Entity}

/-- A statement sorts by columns of its root: those of the scope, or the primary key. -/
theorem IsSound.column_mem_of_orderBy (h : R.IsSound k plan scope) (hc : k.catalog.IsSound) :
    ∀ o ∈ (R.statement scope).orderBy, o.column ∈ R.entity.columns := by
  have hclauses : (R.statement scope).orderBy = (R.clauses scope).2.1 := rfl
  rw [hclauses, clauses]
  cases hroot : R.root with
  | none => exact h.orderBy hroot
  | some r => exact List.forall_mem_singleton.2 (hc.primaryKey_mem _ (Catalog.entity_eq_ok h.entity).1)

/-- The rows that are read have the order that their roots have. -/
theorem IsJoinable.isPreorderOn_joinedRows (hR : R.IsJoinable) (hs : s.Reads R)
    (horder : ∀ o ∈ s.orderBy, o.column ∈ R.entity.columns)
    (hcomparable : TableRow.AreComparable (store.rootRows s) s.orderBy) :
    Store.IsPreorderOn (fun a b => Store.compareRows s.root.aliasName a b s.orderBy)
      (store.joinedRows s) := by
  have hroots : ∀ t ∈ (R.combinations store s).map Combination.root, t ∈ store.rootRows s := by
    intro t ht
    obtain ⟨x, hx, rfl⟩ := List.mem_map.1 ht
    obtain ⟨r, hr, hroot, -⟩ := hR.exists_of_mem_combinations hx
    rwa [Combination.root, hroot]
  have hordered := Store.isPreorderOn_map.1 (hcomparable.mono hroots).isPreorderOn
  rw [joinedRows_eq hR hs]
  refine Store.isPreorderOn_map.2 (hordered.congr fun x hx y hy => ?_)
  rw [hs.root_eq, Store.compareRows_eq (fun o ho => hR.get?_root hx (horder o ho))
    fun o ho => hR.get?_root hy (horder o ho)]

end Reading

/-! ### Compiled statements -/

/-- Binding keys changes what a condition says of its column, but no column and no alias. -/
theorem Statement.exists_of_mem_bindIn {keys : List Value} {ps : List Predicate} {p : Predicate}
    (h : p ∈ bindIn keys ps) :
    ∃ q ∈ ps, p.aliasName = q.aliasName ∧ p.filter.columns = q.filter.columns := by
  induction ps with
  | nil => exact absurd h List.not_mem_nil
  | cons q ps ih =>
    unfold bindIn at h
    split at h
    · next c values hsource hfilter =>
      rcases List.mem_cons.1 h with rfl | h
      · exact ⟨q, List.mem_cons_self, rfl, by rw [hfilter]; rfl⟩
      · exact ⟨p, List.mem_cons_of_mem q h, rfl, rfl⟩
    · rcases List.mem_cons.1 h with rfl | h
      · exact ⟨p, List.mem_cons_self, rfl, rfl⟩
      · obtain ⟨q', hq', hsame⟩ := ih h
        exact ⟨q', List.mem_cons_of_mem q hq', hsame⟩

/-- What holds of a statement of a compiled plan, whatever keys are looked up: it reads the
    slots of a reading, and all its conditions and orderings are on the root. -/
structure Compiler.IsRead (k : Compiler) (plan : LoadPlan) (scope : QueryScope) (R : Reading)
    (s : Statement) : Prop where
  sound : R.IsSound k plan scope
  joinable : R.IsJoinable
  reads : s.Reads R
  orderBy : ∀ o ∈ s.orderBy, o.column ∈ R.entity.columns
  aliasName : ∀ p ∈ s.predicates, p.aliasName = R.aliasName
  columns : ∀ p ∈ s.predicates, ∀ c ∈ p.filter.columns, c ∈ R.entity.columns

theorem Reading.IsSound.isRead {k : Compiler} {plan : LoadPlan} {scope : QueryScope}
    {R : Reading} {root : Entity} {s : Statement} (h : R.IsSound k plan scope)
    (hsel : plan.IsSelected k.catalog root) (hc : k.catalog.IsSound)
    (hs : s = R.statement scope ∨ ∃ keys, s = (R.statement scope).bindKeys keys) :
    k.IsRead plan scope R s := by
  have hreads := Statement.Reads.statement R scope
  have horder := h.column_mem_of_orderBy hc
  have hcolumns := h.columns_subset hsel hc
  have haliases : ∀ p ∈ (R.statement scope).predicates, p.aliasName = R.aliasName :=
    fun p hp => Reading.aliasName_of_mem_predicates hp
  rcases hs with rfl | ⟨keys, rfl⟩
  · exact ⟨h, h.isJoinable hsel hc, hreads, horder, haliases, hcolumns⟩
  · refine ⟨h, h.isJoinable hsel hc, hreads.bindKeys keys, horder, fun p hp => ?_, fun p hp => ?_⟩
    · obtain ⟨q, hq, halias, -⟩ := Statement.exists_of_mem_bindIn hp
      exact halias.trans (haliases q hq)
    · obtain ⟨q, hq, -, hsame⟩ := Statement.exists_of_mem_bindIn hp
      exact hsame ▸ hcolumns q hq

namespace Compiler

variable {decls : List EntityDecl} {k : Compiler} {maxDepth : Nat} {name : String}
  {populate : List String} {paths : List RelationPath} {g : Graph} {d : StrategyDefaults}
  {scope : QueryScope} {compiled : CompiledPlan} {cs : CompiledStatement} {s : Statement}
  {store : Store}

theorem exists_isRead (hbuild : Catalog.build decls = .ok k.catalog)
    (hparse : populate.mapM RelationPath.parse = .ok paths)
    (hresolve : Graph.resolve k.catalog maxDepth name paths = .ok g)
    (hcompile : k.compile (d.select g) scope = .ok compiled) (hcs : cs ∈ compiled.statements)
    (hs : s = cs.statement ∨ ∃ keys, s = cs.statement.bindKeys keys) :
    ∃ R, k.IsRead (d.select g) scope R s := by
  have hdot := RelationPath.isDotFree_of_mapM_parse hparse
  obtain ⟨root, hsel⟩ := LoadPlan.isSelected_of_resolve d hdot hresolve
  obtain ⟨R, -, hsound, rfl⟩ := Reading.exists_of_mem_statements hcompile hcs
  exact ⟨R, hsound.isRead hsel (Catalog.isSound_of_build hbuild) hs⟩

/-- A statement that sorts by columns with comparable values comes to an end. -/
theorem IsRead.breaksOff_eq_false {plan : LoadPlan} {R : Reading} (h : k.IsRead plan scope R s)
    (hcomparable : TableRow.AreComparable (store.rootRows s) s.orderBy) :
    store.breaksOff s = false :=
  Store.breaksOff_eq_false (h.joinable.isPreorderOn_joinedRows h.reads h.orderBy hcomparable)

/-- Which rows of its root a statement of a compiled plan reads, whatever keys are
    looked up: those of which all conditions are true and from which all inner joins
    reach a row, if the rows can be sorted at all. A join is inner exactly if its relation is
    eager, not nullable and not upgraded, if it has no filter and if its parent is the root or
    joined by an inner join. -/
theorem root_read_iff (hbuild : Catalog.build decls = .ok k.catalog)
    (hparse : populate.mapM RelationPath.parse = .ok paths)
    (hresolve : Graph.resolve k.catalog maxDepth name paths = .ok g)
    (hcompile : k.compile (d.select g) scope = .ok compiled) (hcs : cs ∈ compiled.statements)
    (hs : s = cs.statement ∨ ∃ keys, s = cs.statement.bindKeys keys)
    (hlimit : s.limit = none) (hoffset : s.offset = none)
    (hcomparable : TableRow.AreComparable (store.rootRows s) s.orderBy) :
    store.breaksOff s = false ∧
      (∀ r ∈ store.rows s.root.table,
        (∃ row ∈ store.evaluate s, ∀ c ∈ s.columnsOf s.root.aliasName,
          row.get? s.root.aliasName c = some (r.value c)) ↔
            (∀ p ∈ s.predicates, p.filter.holds r.value) ∧ s.Reaches store r) ∧
      ∀ j ∈ s.joins, ∃ q ∈ (d.select g).relations, j.path = q.path ∧
        (j.kind = .inner ↔ q.node.relation.nullable = false ∧ q.node.relation.eager = true ∧
          q.upgraded = false ∧ j.filters = [] ∧ s.IsInnerAt j.parentAlias) := by
  obtain ⟨R, h⟩ := exists_isRead hbuild hparse hresolve hcompile hcs hs
  have hroot := h.reads.columnsOf_root h.joinable.aliases_nodup
  refine ⟨h.breaksOff_eq_false hcomparable, fun r hr => ?_, fun j hj => ?_⟩
  · rw [hroot, ← h.joinable.reaches_iff h.reads,
      ← h.joinable.exists_mem_evaluate_iff h.reads h.columns hlimit hoffset hr, h.reads.root_eq]
  · rw [h.reads.joins_eq] at hj
    obtain ⟨J, hJ, rfl⟩ := List.mem_map.1 hj
    refine ⟨J.relation, h.sound.relation_mem hJ, rfl, ?_⟩
    have hkind := (h.sound.settled J hJ).kind
    rw [show J.join.parentAlias = J.owner.aliasName from rfl,
      ← h.joinable.isInner_owner_iff h.reads hJ, show J.join.kind = J.kind from rfl, hkind,
      Joint.kindOf_eq_inner]
    rfl

/-- The statement for posts in the order of their authors reads the first and not the second,
    which has no author to join. -/
theorem root_read_iff_posts :
    ∃ (g : Graph) (compiled : CompiledPlan) (cs : CompiledStatement),
      Graph.resolve postCatalog 4 "Post" [] = .ok g ∧
      compile { catalog := postCatalog, filters := {}, sql := {} }
        (StrategyDefaults.select {} g) { orderBy := [{ column := "author_id" }] } = .ok compiled ∧
      compiled.primary? = some cs ∧ postStore.breaksOff cs.statement = false ∧
      ∀ r ∈ postStore.rows cs.statement.root.table,
        (∃ row ∈ postStore.evaluate cs.statement,
          ∀ c ∈ cs.statement.columnsOf cs.statement.root.aliasName,
            row.get? cs.statement.root.aliasName c = some (r.value c)) ↔
          (∀ p ∈ cs.statement.predicates, p.filter.holds r.value) ∧
            cs.statement.Reaches postStore r := by
  have hbuild : Catalog.build postDecls = .ok postCatalog := rfl
  have hparse : [].mapM RelationPath.parse = .ok [] := rfl
  obtain ⟨g, hg, compiled, cs, hcompiled, hcs, hlimit, hoffset, horder, hrows⟩ :
      ∃ g, Graph.resolve postCatalog 4 "Post" [] = .ok g ∧
        ∃ (compiled : CompiledPlan) (cs : CompiledStatement),
          compile { catalog := postCatalog, filters := {}, sql := {} }
            (StrategyDefaults.select {} g) { orderBy := [{ column := "author_id" }] } =
              .ok compiled ∧
          compiled.primary? = some cs ∧ cs.statement.limit = none ∧ cs.statement.offset = none ∧
          cs.statement.orderBy = [{ column := "author_id" }] ∧
          (postStore.rootRows cs.statement).map (·.value "author_id") = [.int 1, .int 9] :=
    ⟨_, rfl, _, _, rfl, rfl, rfl, rfl, rfl, rfl⟩
  have hcomparable : TableRow.AreComparable (postStore.rootRows cs.statement)
      cs.statement.orderBy := by
    intro o ho
    rw [horder] at ho
    obtain rfl := List.mem_singleton.1 ho
    rw [hrows]
    exact .inl ⟨.int, by decide⟩
  obtain ⟨hend, hread, -⟩ := root_read_iff hbuild hparse hg hcompiled (List.mem_of_getElem? hcs)
    (Or.inl rfl) hlimit hoffset hcomparable
  exact ⟨g, compiled, cs, hg, hcompiled, hcs, hend, hread⟩

end Compiler

/-! ### Items of several kinds -/

/-- Items with what they cost. -/
def itemDecls : List EntityDecl :=
  [{ name := "Item", table := "items", columns := ["id", "cost"] }]

/-- The catalog of items. -/
def itemCatalog : Catalog :=
  { entities := [{ name := "Item", table := "items", primaryKey := "id",
                   columns := ["id", "cost"], relations := [] }] }

/-- Items that cost something, numbered. -/
def itemStore (costs : List Value) : Store :=
  { tables :=
      [("items", costs.zipIdx.map fun cost => [("id", .int cost.2), ("cost", cost.1)])] }

/-- All items in the order of what they cost. -/
def costScope : QueryScope :=
  { orderBy := [{ column := "cost" }] }

/-- What twenty-two items cost: three numbers that are out of order, and words. -/
def tornCosts : List Value :=
  (List.range 22).map fun n =>
    if n = 0 then .int 3 else if n = 1 then .int 1 else if n = 11 then .int 2 else .str "x"

namespace Compiler

/-- The statement for items in the order of what they cost has no conditions and no joins, and
    yet it reads none of twenty-two items: the sort breaks off. -/
theorem unread_items :
    ∃ (g : Graph) (compiled : CompiledPlan) (cs : CompiledStatement),
      Catalog.build itemDecls = .ok itemCatalog ∧ Graph.resolve itemCatalog 4 "Item" [] = .ok g ∧
      compile { catalog := itemCatalog, filters := {}, sql := {} } (StrategyDefaults.select {} g)
        costScope = .ok compiled ∧
      compiled.primary? = some cs ∧ cs.statement.limit = none ∧ cs.statement.offset = none ∧
      ((itemStore tornCosts).rows cs.statement.root.table).length = 22 ∧
      (∀ r ∈ (itemStore tornCosts).rows cs.statement.root.table,
        (∀ p ∈ cs.statement.predicates, p.filter.holds r.value) ∧
          cs.statement.Reaches (itemStore tornCosts) r) ∧
      (itemStore tornCosts).breaksOff cs.statement = true := by
  obtain ⟨g, hg, compiled, cs, hcompiled, hcs, hlimit, hoffset, hlength, hpredicates, hjoins,
      hbreaksOff⟩ :
      ∃ g, Graph.resolve itemCatalog 4 "Item" [] = .ok g ∧
        ∃ (compiled : CompiledPlan) (cs : CompiledStatement),
          compile { catalog := itemCatalog, filters := {}, sql := {} }
            (StrategyDefaults.select {} g) costScope = .ok compiled ∧
          compiled.primary? = some cs ∧ cs.statement.limit = none ∧ cs.statement.offset = none ∧
          ((itemStore tornCosts).rows cs.statement.root.table).length = 22 ∧
          cs.statement.predicates = [] ∧ cs.statement.joins = [] ∧
          (itemStore tornCosts).breaksOff cs.statement = true :=
    ⟨_, rfl, _, _, rfl, rfl, rfl, rfl, rfl, rfl, rfl, rfl⟩
  refine ⟨g, compiled, cs, rfl, hg, hcompiled, hcs, hlimit, hoffset, hlength, fun r _ => ?_,
    hbreaksOff⟩
  rw [hpredicates]
  refine ⟨fun p hp => absurd hp List.not_mem_nil, fun _ => r, rfl, fun j hj => ?_⟩
  rw [hjoins] at hj
  exact absurd hj List.not_mem_nil

end Compiler

end EntityFetch
