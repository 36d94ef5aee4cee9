import EntityFetch.Proofs.Filtered
import EntityFetch.Proofs.Sortable

/-!
# Statements by the book

What a statement means by the reading of SQL (`Statement.textbook`): the rows of the root
are combined with the rows of every join in turn, then those combined rows are kept of
which all conditions are true, each looked up through its alias, then the columns that
are asked for are taken, and then the rows are sorted and cut to size. A store evaluates
statements differently: it looks at the conditions first, at the rows of the root alone,
and writes the columns out while it joins, so that a join finds the key of its parent
among the columns that are read.

* `Compiler.evaluate_eq_textbook`: for the statements of a compiled plan both give the
  same rows, if the columns by which they sort have comparable values;
* `Compiler.unordered_items`: of values of several kinds the sorts make different things.

A combined row is a combination with an alias for each place (`Combination.labelled`).
-/

namespace EntityFetch

/-- A row of its table for every alias, none where there was nothing to join. -/
abbrev CombinedRow := List (String × Option TableRow)

/-- The value of a column of an alias, null where there is no row. -/
def CombinedRow.value (x : CombinedRow) (aliasName column : String) : Value :=
  cell (x.lookup aliasName).join column

namespace Join

/-- Whether what a join says is true of a combined row. -/
def condition (j : Join) (x : CombinedRow) : Bool :=
  (x.value j.parentAlias j.parentColumn).equal? (x.value j.aliasName j.column) == some true &&
    j.filters.all fun a => a.filter.holds (x.value j.aliasName)

/-- The combined rows that a join makes of one: one for every row of its table of which
    the condition is true or, if there is none, what the kind of the join says. -/
def combine (store : Store) (j : Join) (x : CombinedRow) : List CombinedRow :=
  match ((store.rows j.table.table).map fun r => x ++ [(j.aliasName, some r)]).filter j.condition,
    j.kind with
  | [], .inner => []
  | [], .left => [x ++ [(j.aliasName, none)]]
  | found, _ => found

end Join

namespace Statement

/-- The rows of the root, combined with those of every join in turn. -/
def combined (s : Statement) (store : Store) : List CombinedRow :=
  s.joins.foldl (fun xs j => xs.flatMap (j.combine store))
    ((store.rows s.root.table).map fun r => [(s.root.aliasName, some r)])

/-- Whether all conditions are true of a combined row. -/
def meets (s : Statement) (x : CombinedRow) : Bool :=
  s.predicates.all fun p => p.filter.holds (x.value p.aliasName)

/-- The columns of a combined row that are read. -/
def project (s : Statement) (x : CombinedRow) : Row :=
  s.columns.foldl (fun r c => r.insert c.aliasName c.column (x.value c.aliasName c.column)) {}

/-- The rows that are read, before they are sorted and cut. -/
def selected (s : Statement) (store : Store) : List Row :=
  ((s.combined store).filter s.meets).map s.project

/-- The rows that a statement means. -/
def textbook (s : Statement) (store : Store) : List Row :=
  Store.paginate s.offset s.limit <| (s.selected store).mergeSort fun a b =>
    (Store.compareRows s.root.aliasName a b s.orderBy).isLE

/-- A row that is read has the values of the combined row at all columns that are read. -/
theorem get?_project (s : Statement) (x : CombinedRow) {c : ColumnRef} (hc : c ∈ s.columns) :
    (s.project x).get? c.aliasName c.column = some (x.value c.aliasName c.column) :=
  (Row.get?_ofColumns s.columns (fun c => x.value c.aliasName c.column) c).trans (if_pos hc)

end Statement

/-! ### Combinations with aliases -/

namespace Combination

variable {slots : List Slot} {x : Combination}

/-- A combination with an alias for each place. -/
def labelled (slots : List Slot) (x : Combination) : CombinedRow :=
  (slots.zip x).map fun p => (p.1.aliasName, p.2)

theorem labelled_append {s : Slot} (h : slots[x.length]? = some s) (o : Option TableRow) :
    labelled slots (x ++ [o]) = labelled slots x ++ [(s.aliasName, o)] := by
  rw [labelled, zip_append_singleton h, List.map_append]
  rfl

/-- A row is found by the alias of its place. -/
theorem lookup_labelled (hnodup : (slots.map Slot.aliasName).Nodup) {i : Nat} {s : Slot}
    (hs : slots[i]? = some s) : (labelled slots x).lookup s.aliasName = x[i]? := by
  induction slots generalizing x i with
  | nil => cases hs
  | cons t slots ih =>
    rw [List.map_cons, List.nodup_cons] at hnodup
    cases x with
    | nil => rfl
    | cons o x =>
      rw [labelled, List.zip_cons_cons, List.map_cons, List.lookup_cons]
      cases i with
      | zero =>
        obtain rfl := Option.some.inj hs
        rw [beq_self_eq_true]
        rfl
      | succ i =>
        have hne : s.aliasName ≠ t.aliasName := fun heq =>
          hnodup.1 (heq ▸ List.mem_map_of_mem (List.mem_of_getElem? hs))
        rw [beq_eq_false_iff_ne.2 hne]
        exact ih hnodup.2 hs

theorem value_labelled (hnodup : (slots.map Slot.aliasName).Nodup) {i : Nat} {s : Slot}
    (hs : slots[i]? = some s) (column : String) :
    (labelled slots x).value s.aliasName column = cell (x.at? i) column := by
  rw [CombinedRow.value, lookup_labelled hnodup hs, at?]

/-- Taking the columns of all slots is writing the combination out. -/
theorem foldl_columnRefs (hnodup : (slots.map Slot.aliasName).Nodup)
    (hlen : x.length = slots.length) :
    (slots.flatMap Slot.columnRefs).foldl (fun r c =>
      r.insert c.aliasName c.column ((labelled slots x).value c.aliasName c.column)) {} =
        row slots x := by
  rw [row, List.foldl_flatMap]
  have hfold : ∀ (before rest : List Slot) (y : Combination) (r : Row), before ++ rest = slots →
      x.drop before.length = y → rest.foldl (fun r t => t.columnRefs.foldl (fun r c =>
        r.insert c.aliasName c.column ((labelled slots x).value c.aliasName c.column)) r) r =
          (rest.zip y).foldl (fun r p => r.insertAll p.1.aliasName p.1.columns (cell p.2)) r := by
    intro before rest
    induction rest generalizing before with
    | nil => exact fun _ _ _ _ => rfl
    | cons t rest ih =>
      intro y r hsplit hdrop
      have ht : slots[before.length]? = some t := getElem?_of_append_cons hsplit
      have hlt : before.length < x.length := hlen ▸ (List.getElem?_eq_some_iff.1 ht).1
      rw [← hdrop, List.drop_eq_getElem_cons hlt, List.zip_cons_cons, List.foldl_cons,
        List.foldl_cons]
      -- Aliases tell the slots apart, so that a column of this slot is read off its row.
      have hslot : t.columnRefs.foldl (fun r c => r.insert c.aliasName c.column
          ((labelled slots x).value c.aliasName c.column)) r =
            r.insertAll t.aliasName t.columns (cell x[before.length]) := by
        rw [Slot.columnRefs, List.foldl_map, Row.insertAll]
        simp only [value_labelled hnodup ht, at?, List.getElem?_eq_getElem hlt, Option.join_some]
      rw [hslot]
      refine ih (before ++ [t]) _ _ (by rw [← hsplit, List.append_assoc]; rfl) ?_
      rw [List.length_append, List.length_singleton]
  exact hfold [] slots x {} rfl rfl

end Combination

namespace Reading

variable {R : Reading} {store : Store} {s : Statement}

/-- With a row of the target the condition of a join is that of the search for rows. -/
theorem IsJoinable.condition_labelled (hR : R.IsJoinable) {j : Joint} (hj : j ∈ R.joints)
    {x : Combination} (hslot : R.slots[x.length]? = some j.slot) (hparent : j.parent < x.length)
    (r : TableRow) : j.join.condition (Combination.labelled R.slots (x ++ [some r])) =
      Store.matchesJoin j.join (cell (x.at? j.parent) j.edge.ownerColumn) r := by
  have hown : ∀ column, (Combination.labelled R.slots (x ++ [some r])).value j.join.aliasName
      column = r.value column := by
    intro column
    refine (Combination.value_labelled hR.aliases_nodup hslot column).trans ?_
    rw [Combination.at?_append_length]
    rfl
  have howner : (Combination.labelled R.slots (x ++ [some r])).value j.join.parentAlias
      j.join.parentColumn = cell (x.at? j.parent) j.edge.ownerColumn := by
    refine (Combination.value_labelled hR.aliases_nodup (hR.owner j hj) _).trans ?_
    rw [Combination.at?_append_left hparent]
    rfl
  rw [Join.condition, Store.matchesJoin, howner, hown, funext hown]
  rfl

/-- A join makes of a combined row what its joint makes of the combination. -/
theorem IsJoinable.combine_labelled (hR : R.IsJoinable) {i : Nat} {j : Joint}
    (hj : R.joints[i]? = some j) {x : Combination} (hx : x.length = i + 1) :
    j.join.combine store (x.labelled R.slots) =
      (j.extend store x).map (Combination.labelled R.slots) := by
  have hslot : R.slots[x.length]? = some j.slot := hx ▸ getElem?_joints hj
  have hparent : j.parent < x.length := hx ▸ Nat.lt_succ_of_le (hR.parent_le i j hj)
  have hlabelled : ∀ o, x.labelled R.slots ++ [(j.join.aliasName, o)] =
      Combination.labelled R.slots (x ++ [o]) :=
    fun o => (Combination.labelled_append hslot o).symm
  have hfound : ((store.rows j.join.table.table).map fun r =>
      x.labelled R.slots ++ [(j.join.aliasName, some r)]).filter j.join.condition =
        (j.found store x).map fun r => Combination.labelled R.slots (x ++ [some r]) := by
    simp only [hlabelled, List.filter_map, Function.comp_def,
      hR.condition_labelled (List.mem_of_getElem? hj) hslot hparent]
    rfl
  rw [Join.combine, hfound, Joint.extend, show j.join.kind = j.kind from rfl]
  cases j.found store x with
  | nil =>
    cases j.kind with
    | inner => rfl
    | left => exact congrArg (fun y => [y]) (hlabelled none)
  | cons r found =>
    simp only [List.map_cons, List.map_map]
    rfl

/-- The combined rows of a statement are all combinations of the rows of its root, whatever
    its conditions say. -/
theorem IsJoinable.combined_eq (hR : R.IsJoinable) (hs : s.Reads R) :
    s.combined store = ((store.rows s.root.table).flatMap fun r =>
      expand store R.joints [some r]).map (Combination.labelled R.slots) := by
  have hstart : ((store.rows s.root.table).map fun r => [(s.root.aliasName, some r)]) =
      ((store.rows s.root.table).map fun r => [some r]).map (Combination.labelled R.slots) := by
    rw [List.map_map, hs.root_eq]
    refine List.map_congr_left fun r _ => ?_
    rw [Function.comp_apply, Combination.labelled, slots, List.zip_cons_cons, List.zip_nil_right]
    rfl
  rw [Statement.combined, hstart, hs.joins_eq,
    foldl_flatMap_joins hR.combine_labelled (List.nil_append R.joints)]
  · rw [List.flatMap_map]
  · intro x hx
    obtain ⟨r, -, rfl⟩ := List.mem_map.1 hx
    rfl

/-- Conditions on the root alone may be looked at before anything is joined. -/
theorem IsJoinable.filter_combined (hR : R.IsJoinable) (hs : s.Reads R)
    (hroot : ∀ p ∈ s.predicates, p.aliasName = R.aliasName) :
    (s.combined store).filter s.meets =
      (R.combinations store s).map (Combination.labelled R.slots) := by
  have hmeets : ∀ r, ∀ x ∈ expand store R.joints [some r],
      (s.meets ∘ Combination.labelled R.slots) x =
        s.predicates.all fun p => Store.keeps r p.filter := by
    intro r x hx
    have hvalue : (x.labelled R.slots).value R.aliasName = r.value := by
      funext column
      refine (Combination.value_labelled hR.aliases_nodup (s := R.rootSlot) (i := 0) rfl
        column).trans ?_
      rw [(hR.fits hx).1]
      rfl
    rw [Function.comp_apply, Statement.meets, Bool.eq_iff_iff, List.all_eq_true, List.all_eq_true]
    refine forall₂_congr fun p hp => ?_
    rw [hroot p hp, hvalue]
    rfl
  rw [hR.combined_eq hs, List.filter_map, combinations, Store.rootRows]
  congr 1
  induction store.rows s.root.table with
  | nil => rfl
  | cons r rows ih =>
    rw [List.flatMap_cons, List.filter_append, ih, List.filter_cons]
    -- All combinations of one row are kept, or none of them.
    split
    · next h =>
      rw [List.flatMap_cons, List.filter_eq_self.2 fun x hx => (hmeets r x hx).trans h]
    · next h =>
      rw [List.filter_eq_nil_iff.2 fun x hx hx' => h ((hmeets r x hx).symm.trans hx'),
        List.nil_append]

/-- What is read by the book is what a store reads. -/
theorem IsJoinable.selected_eq (hR : R.IsJoinable) (hs : s.Reads R)
    (hroot : ∀ p ∈ s.predicates, p.aliasName = R.aliasName) :
    s.selected store = store.joinedRows s := by
  rw [Statement.selected, hR.filter_combined hs hroot, joinedRows_eq hR hs, List.map_map]
  refine List.map_congr_left fun x hx => ?_
  obtain ⟨-, -, -, hlen, -⟩ := hR.exists_of_mem_combinations hx
  rw [Function.comp_apply, Statement.project, hs.columns_eq]
  exact Combination.foldl_columnRefs hR.aliases_nodup hlen

end Reading

namespace Compiler

variable {decls : List EntityDecl} {k : Compiler} {maxDepth : Nat} {name : String}
  {populate : List String} {paths : List RelationPath} {g : Graph} {d : StrategyDefaults}
  {scope : QueryScope} {compiled : CompiledPlan} {cs : CompiledStatement} {s : Statement}

/-- A store evaluates every statement of a compiled plan, whatever keys are looked up, as
    the book says, if the columns by which the statement sorts have comparable values in the rows
    of its root that satisfy its conditions. The sort does not break off then, and every row has a
    value for every column that is read. -/
theorem evaluate_eq_textbook (hbuild : Catalog.build decls = .ok k.catalog)
    (hparse : populate.mapM RelationPath.parse = .ok paths)
    (hresolve : Graph.resolve k.catalog maxDepth name paths = .ok g)
    (hcompile : k.compile (d.select g) scope = .ok compiled) (hcs : cs ∈ compiled.statements)
    (hs : s = cs.statement ∨ ∃ keys, s = cs.statement.bindKeys keys) {store : Store}
    (hcomparable : TableRow.AreComparable (store.rootRows s) s.orderBy) :
    store.breaksOff s = false ∧ store.evaluate s = s.textbook store ∧
      ∀ row ∈ store.evaluate s, ∀ c ∈ s.columns, (row.get? c.aliasName c.column).isSome := by
  obtain ⟨R, h⟩ := exists_isRead hbuild hparse hresolve hcompile hcs hs
  have hselected : s.selected store = store.joinedRows s :=
    h.joinable.selected_eq h.reads h.aliasName
  have hordered := h.joinable.isPreorderOn_joinedRows h.reads h.orderBy hcomparable
  refine ⟨h.breaksOff_eq_false hcomparable, ?_, fun row hrow c hcol => ?_⟩
  · rw [Statement.textbook, hselected, ← hordered.sortBy_eq, ← Store.order_eq_sortBy]
    rfl
  · have hmem := Store.mem_joinedRows hrow
    rw [← hselected] at hmem
    obtain ⟨x, -, rfl⟩ := List.mem_map.1 hmem
    rw [Statement.get?_project s x hcol]
    rfl

end Compiler

/-! ### The last author -/

/-- One post, that of the last author. -/
def lastScope : QueryScope :=
  { criteria := .isNotNull "author_id"
    orderBy := [{ column := "author_id", direction := .descending }]
    take := some 1 }

namespace Compiler

/-- The post of the last author is read, without the author, who is not active. -/
theorem evaluate_eq_textbook_posts :
    ∃ (g : Graph) (compiled : CompiledPlan) (cs : CompiledStatement),
      Graph.resolve postCatalog 4 "Post" [] = .ok g ∧
      compile { catalog := postCatalog, filters := activeUsers, sql := {} }
        (StrategyDefaults.select {} g) lastScope = .ok compiled ∧
      compiled.primary? = some cs ∧
      (authoredStore.evaluate cs.statement).map (fun row =>
        (row.get? "post" "id", row.get? "author" "id")) = [(some (.int 2), some .null)] ∧
      authoredStore.breaksOff cs.statement = false ∧
      authoredStore.evaluate cs.statement = cs.statement.textbook authoredStore := by
  have hbuild : Catalog.build postDecls = .ok postCatalog := rfl
  have hparse : [].mapM RelationPath.parse = .ok [] := rfl
  obtain ⟨g, hg, compiled, cs, hcompiled, hcs, hrows, horder, hauthors⟩ :
      ∃ g, Graph.resolve postCatalog 4 "Post" [] = .ok g ∧
        ∃ (compiled : CompiledPlan) (cs : CompiledStatement),
          compile { catalog := postCatalog, filters := activeUsers, sql := {} }
            (StrategyDefaults.select {} g) lastScope = .ok compiled ∧
          compiled.primary? = some cs ∧
          (authoredStore.evaluate cs.statement).map (fun row =>
            (row.get? "post" "id", row.get? "author" "id")) = [(some (.int 2), some .null)] ∧
          cs.statement.orderBy = lastScope.orderBy ∧
          (authoredStore.rootRows cs.statement).map (·.value "author_id") = [.int 1, .int 2] :=
    ⟨_, rfl, _, _, rfl, rfl, rfl, rfl, rfl⟩
  have hcomparable : TableRow.AreComparable (authoredStore.rootRows cs.statement)
      cs.statement.orderBy := by
    intro o ho
    rw [horder] at ho
    obtain rfl := List.mem_singleton.1 ho
    rw [hauthors]
    exact .inl ⟨.int, by decide⟩
  obtain ⟨hend, htextbook, -⟩ := evaluate_eq_textbook hbuild hparse hg hcompiled
    (List.mem_of_getElem? hcs) (Or.inl rfl) hcomparable
  exact ⟨g, compiled, cs, hg, hcompiled, hcs, hrows, hend, htextbook⟩

/-- Two, a word and one are read as they are, since nothing that stands side by side is out of
    order; by the book they are one, two and the word. And of twenty-two items none is read, since
    the sort breaks off. -/
theorem unordered_items :
    ∃ (g : Graph) (compiled : CompiledPlan) (cs : CompiledStatement),
      Catalog.build itemDecls = .ok itemCatalog ∧ Graph.resolve itemCatalog 4 "Item" [] = .ok g ∧
      compile { catalog := itemCatalog, filters := {}, sql := {} } (StrategyDefaults.select {} g)
        costScope = .ok compiled ∧
      compiled.primary? = some cs ∧
      ((itemStore [.int 2, .str "x", .int 1]).evaluate cs.statement).map (·.get? "item" "cost") =
        [some (.int 2), some (.str "x"), some (.int 1)] ∧
      (cs.statement.textbook (itemStore [.int 2, .str "x", .int 1])).map (·.get? "item" "cost") =
        [some (.int 1), some (.int 2), some (.str "x")] ∧
      (itemStore tornCosts).breaksOff cs.statement = true ∧
      (cs.statement.textbook (itemStore tornCosts)).length = 22 := by
  obtain ⟨g, hg, compiled, cs, hcompiled, hcs, hrows, hbreaksOff, hlength, hbounds⟩ :
      ∃ g, Graph.resolve itemCatalog 4 "Item" [] = .ok g ∧
        ∃ (compiled : CompiledPlan) (cs : CompiledStatement),
          compile { catalog := itemCatalog, filters := {}, sql := {} }
            (StrategyDefaults.select {} g) costScope = .ok compiled ∧
          compiled.primary? = some cs ∧
          ((itemStore [.int 2, .str "x", .int 1]).evaluate cs.statement).map
            (·.get? "item" "cost") = [some (.int 2), some (.str "x"), some (.int 1)] ∧
          (itemStore tornCosts).breaksOff cs.statement = true ∧
          (cs.statement.selected (itemStore tornCosts)).length = 22 ∧
          cs.statement.offset = none ∧ cs.statement.limit = none ∧
          ∃ two word one,
            cs.statement.selected (itemStore [.int 2, .str "x", .int 1]) = [two, word, one] ∧
            [one, two, word].map (·.get? "item" "cost") =
              [some (.int 1), some (.int 2), some (.str "x")] ∧
            (Store.compareRows "item" two word cs.statement.orderBy).isLE = true ∧
            (Store.compareRows "item" two one cs.statement.orderBy).isLE = false ∧
            cs.statement.root.aliasName = "item" :=
    ⟨_, rfl, _, _, rfl, rfl, rfl, rfl, rfl, rfl, rfl, _, _, _, rfl, rfl, rfl, rfl, rfl⟩
  obtain ⟨hoffset, hlimit, two, word, one, hselected, hcosts, hword, hone, halias⟩ := hbounds
  refine ⟨g, compiled, cs, rfl, hg, hcompiled, hcs, hrows, ?_, hbreaksOff, ?_⟩
  · rw [Statement.textbook, hoffset, hlimit, hselected, halias, ← hcosts]
    -- The stable sort of the library compares the two numbers, since it begins with halves.
    have hsort : ([two, word, one].mergeSort fun a b =>
        (Store.compareRows "item" a b cs.statement.orderBy).isLE) = [one, two, word] := by
      simp [List.mergeSort, hword, hone]
    rw [hsort]
    rfl
  · rw [Statement.textbook, hoffset, hlimit]
    exact (List.length_mergeSort _).trans hlength

end Compiler

end EntityFetch
