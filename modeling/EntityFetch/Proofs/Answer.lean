import EntityFetch.Proofs.RootRows

/-!
# Answers in order

A statement answers the combinations of its root's rows with the rows joined to
them, written out, and sorted by the rows of the root (`Reading.IsJoinable.evaluate_eq`).

* `TableRow.compareBy`: the order of two rows by some columns;
* `Reading.combinations`: what a statement reads besides its order;
* `Reading.HasRows`: it has rows of the entities at the slots.
-/

namespace EntityFetch

/-- The order of two rows by one column. -/
def OrderBy.compare (o : OrderBy) (a b : TableRow) : Ordering :=
  match o.direction with
  | .ascending => Store.compareValues (a.value o.column) (b.value o.column)
  | .descending => (Store.compareValues (a.value o.column) (b.value o.column)).swap

namespace TableRow

/-- The order of two rows by some columns, the first difference being decisive. -/
def compareBy (os : List OrderBy) (a b : TableRow) : Ordering :=
  os.foldr (fun o c => (o.compare a b).then c) .eq

/-- Whether a row comes strictly before another one. -/
def isBelow (os : List OrderBy) (a b : TableRow) : Bool :=
  compareBy os a b == .lt

end TableRow

/-- Rows that are written out at an alias are compared as they are. -/
theorem Store.compareRows_eq {aliasName : String} {row row' : Row} {a b : TableRow}
    {os : List OrderBy} (h : ∀ o ∈ os, row.get? aliasName o.column = some (a.value o.column))
    (h' : ∀ o ∈ os, row'.get? aliasName o.column = some (b.value o.column)) :
    compareRows aliasName row row' os = TableRow.compareBy os a b := by
  induction os with
  | nil => rfl
  | cons o os ih =>
    have ih := ih (fun o ho => h o (List.mem_cons_of_mem _ ho))
      fun o ho => h' o (List.mem_cons_of_mem _ ho)
    have hfold : TableRow.compareBy (o :: os) a b =
        (o.compare a b).then (TableRow.compareBy os a b) := rfl
    rw [hfold, ← ih, compareRows]
    simp only [h o List.mem_cons_self, h' o List.mem_cons_self, Option.getD_some, OrderBy.compare]
    cases o.direction <;> simp only <;>
      cases compareValues (a.value o.column) (b.value o.column) <;> rfl

/-- Rows are sorted even if nothing is said of their order. -/
theorem Store.order_eq_sortBy (s : Statement) (rows : List Row) :
    order s rows = sortBy (fun a b => compareRows s.root.aliasName a b s.orderBy == .lt) rows := by
  unfold order
  split
  · next h =>
    rw [List.isEmpty_iff.1 h]
    exact (sortBy_false rows).symm
  · rfl

/-- What is answered was read. -/
theorem Store.mem_joinedRows {store : Store} {s : Statement} {row : Row}
    (h : row ∈ store.evaluate s) : row ∈ store.joinedRows s := by
  refine (order_perm s _).mem_iff.1 ?_
  unfold evaluate paginate at h
  simp only at h
  split at h
  · exact List.mem_of_mem_drop (List.mem_of_mem_take h)
  · exact List.mem_of_mem_drop h

/-- The row of the root in a combination. -/
def Combination.root (x : Combination) : TableRow :=
  (x.at? 0).getD []

namespace Reading

variable {R : Reading} {store : Store} {s : Statement}

/-- The combinations of the rows of the root that satisfy all conditions. -/
def combinations (R : Reading) (store : Store) (s : Statement) : List Combination :=
  (store.rootRows s).flatMap fun r => expand store R.joints [some r]

/-- A row that is answered is a combination, written out. -/
theorem IsJoinable.exists_of_mem_evaluate (hR : R.IsJoinable) (hs : s.Reads R) {row : Row}
    (h : row ∈ store.evaluate s) : ∃ x ∈ R.combinations store s, x.row R.slots = row := by
  have hread := Store.mem_joinedRows h
  rw [joinedRows_eq hR hs] at hread
  exact List.mem_map.1 hread

theorem IsJoinable.exists_of_mem_combinations (hR : R.IsJoinable) {x : Combination}
    (hx : x ∈ R.combinations store s) : ∃ r ∈ store.rootRows s, x.at? 0 = some r ∧
      x.length = R.slots.length ∧
        ∀ (i : Nat) (j : Joint), R.joints[i]? = some j → j.Fits store x (i + 1) := by
  obtain ⟨r, hr, hx⟩ := List.mem_flatMap.1 hx
  exact ⟨r, hr, hR.fits hx⟩

/-- What is read of the root are the values of its row. -/
theorem IsJoinable.get?_root (hR : R.IsJoinable) {x : Combination}
    (hx : x ∈ R.combinations store s) {c : String} (hc : c ∈ R.entity.columns) :
    (x.row R.slots).get? R.aliasName c = some (x.root.value c) := by
  obtain ⟨r, -, hroot, hlen, -⟩ := hR.exists_of_mem_combinations hx
  have hpos : 0 < x.length := by
    rw [hlen]
    exact Nat.succ_pos _
  have := Combination.get?_row hR.aliases_nodup (Nat.le_of_eq hlen) hpos (s := R.rootSlot) rfl hc
  rwa [Combination.root, hroot, Option.getD_some, ← show cell (some r) c = r.value c from rfl,
    ← hroot]

/-- Without limit and offset a statement answers all its combinations, in the order
    of the rows of the root. -/
theorem IsJoinable.evaluate_eq (hR : R.IsJoinable) (hs : s.Reads R)
    (horder : ∀ o ∈ s.orderBy, o.column ∈ R.entity.columns) (hlimit : s.limit = none)
    (hoffset : s.offset = none) : store.evaluate s =
      (Store.sortBy (fun x y => TableRow.isBelow s.orderBy x.root y.root)
        (R.combinations store s)).map (Combination.row R.slots) := by
  have hrows : store.joinedRows s = (R.combinations store s).map (Combination.row R.slots) :=
    joinedRows_eq hR hs
  rw [Store.evaluate, hlimit, hoffset]
  change Store.order s (store.joinedRows s) = _
  rw [hrows, Store.order_eq_sortBy, Store.sortBy_map]
  refine congrArg _ (Store.sortBy_congr fun x hx y hy => ?_)
  rw [hs.root_eq, TableRow.isBelow, Store.compareRows_eq (fun o ho => hR.get?_root hx (horder o ho))
    fun o ho => hR.get?_root hy (horder o ho)]

/-! ### Rows of the entities -/

/-- Whether a combination has rows of the entities at its slots. -/
def HasRows (R : Reading) (store : Store) (x : Combination) : Prop :=
  ∀ i o, x.at? i = some o → ∃ e, R.entityAt i = some e ∧ o ∈ store.rows e.table

section HasRows

variable {x y : Combination} {n : Nat} {j : Joint}

theorem hasRows_singleton {r : TableRow} (hr : r ∈ store.rows R.entity.table) :
    R.HasRows store [some r] := by
  intro i o hat
  rcases i with _ | i
  · exact ⟨R.entity, rfl, Option.some.inj hat ▸ hr⟩
  · cases hat

theorem HasRows.concat (hx : R.HasRows store x) (hlen : x.length = n + 1)
    (hj : R.joints[n]? = some j) {o : Option TableRow}
    (ho : ∀ t, o = some t → t ∈ store.rows j.target.table) : R.HasRows store (x ++ [o]) := by
  intro i t hat
  rcases Nat.lt_trichotomy i x.length with hi | rfl | hi
  · rw [Combination.at?_append_left hi] at hat
    exact hx i t hat
  · rw [Combination.at?_append_length] at hat
    exact ⟨j.target, by rw [hlen, entityAt, hj]; rfl, ho t hat⟩
  · rw [Combination.at?, List.getElem?_eq_none (by simp; omega)] at hat
    cases hat

/-- What a joint adds is a row of its target. -/
theorem HasRows.of_mem_extend (hx : R.HasRows store x) (hlen : x.length = n + 1)
    (hj : R.joints[n]? = some j) (hy : y ∈ j.extend store x) : R.HasRows store y := by
  rcases Joint.mem_extend.1 hy with ⟨t, ht, rfl⟩ | ⟨-, -, rfl⟩
  · refine hx.concat hlen hj fun t' ht' => ?_
    obtain rfl := Option.some.inj ht'
    exact (Joint.mem_found.1 ht).1
  · refine hx.concat hlen hj fun t ht => ?_
    cases ht

theorem HasRows.of_mem_expand {o : Option TableRow} (hx : R.HasRows store [o])
    (hy : y ∈ expand store R.joints [o]) : R.HasRows store y := by
  refine expand_induct store (P := fun rest x => R.HasRows store x → y ∈ expand store rest x →
    R.HasRows store y) ?_ ?_ o hx hy
  · intro x hx hy
    obtain rfl := List.mem_singleton.1 hy
    exact hx
  · intro n j rest x hj hlen ih hx hy
    obtain ⟨z, hz, hy⟩ := List.mem_flatMap.1 hy
    exact ih z hz (hx.of_mem_extend hlen hj hz) hy

/-- What a statement reads are combinations of rows of the entities. -/
theorem hasRows_of_mem_combinations (hs : s.Reads R) (hx : x ∈ R.combinations store s) :
    R.HasRows store x := by
  obtain ⟨r, hr, hx⟩ := List.mem_flatMap.1 hx
  rw [Store.rootRows, hs.root_eq] at hr
  exact (hasRows_singleton (List.mem_filter.1 hr).1).of_mem_expand hx

/-- Nothing is found where there is no owner. -/
theorem found_of_none (h : x.at? j.parent = none) : j.found store x = [] := by
  refine List.eq_nil_iff_forall_not_mem.2 fun t ht => ?_
  have hequal := (Joint.mem_found.1 ht).2.1
  rw [h] at hequal
  cases hequal

end HasRows

/-! ### Conditions -/

/-- The rows of the root of a fetch are those that satisfy the criteria and the
    global filters. -/
theorem rootRows_statement (hroot : R.root = none) (scope : QueryScope) :
    store.rootRows (R.statement scope) = (store.rows R.entity.table).filter fun r =>
      scope.criteria.holds r.value && R.active.all fun a => a.filter.holds r.value := by
  refine List.filter_congr fun r _ => ?_
  have hactive : (R.active.map fun a => ({ aliasName := R.aliasName, filter := a.filter
                                           source := .globalFilter a.name } : Predicate)).all
      (fun p => Store.keeps r p.filter) = R.active.all fun a => a.filter.holds r.value := by
    rw [List.all_map]
    rfl
  rw [statement, List.all_append, hactive, clauses, hroot]
  by_cases halways : scope.criteria.isAlways
  · rw [if_pos halways, Filter.eq_always_of_isAlways halways]
    rfl
  · rw [if_neg halways, List.all_cons, List.all_nil, Bool.and_true]
    rfl

/-- The rows of the root of a follow-up are those that have one of the keys and
    satisfy the global filters. -/
theorem rootRows_bindKeys {q : PlannedRelation} (hroot : R.root = some q) (scope : QueryScope)
    (keys : List Value) : store.rootRows ((R.statement scope).bindKeys keys) =
      (store.rows R.entity.table).filter fun r =>
        (Filter.memberOf? (r.value q.node.relation.targetColumn) keys == some true) &&
          R.active.all fun a => a.filter.holds r.value := by
  refine List.filter_congr fun r _ => ?_
  have hclauses : R.clauses scope =
      Compiler.followUpClauses q.node.relation R.entity R.aliasName := by rw [clauses, hroot]
  rw [Statement.bindKeys, statement, hclauses]
  change (Store.keeps r _ && ((R.active.map _).all _)) = _
  rw [List.all_map]
  rfl

end Reading

end EntityFetch
