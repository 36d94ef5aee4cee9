import EntityFetch.Proofs.Assemble
import EntityFetch.Proofs.Failure
import EntityFetch.Proofs.Repeat
import EntityFetch.Proofs.Upgrade

/-!
# Records by recursion

The record of a row can be told without the order in which it is put together: it has the
columns of its slot, and for every later slot that starts there a relation, in the order of the
slots, with the record of that slot, unless all columns there are null (`Slot.nested`). What is
below a slot where all columns are null is left out with it.

* `Reading.IsSound.isNested`: assembling a statement of a selected plan comes to this, provided
  that the row has all columns that are read. Otherwise the first that it does not have is at
  fault (`CompiledStatement.missing?`).
* `CompiledStatement.IsNested`: what this says of a single row, and of all rows of a result, of
  which those are left that have no key or are the first with theirs.
-/

namespace EntityFetch

/-! ### Missing columns -/

/-- What there is, unless a column is missing. -/
def unlessMissing {α : Type} (missing : Option ColumnRef) (a : α) : Except QueryError α :=
  match missing with
  | some c => .error (Fault.missingColumn c.aliasName c.column)
  | none => .ok a

/-- Whether a row has no value for a column. -/
def Row.lacks (row : Row) (c : ColumnRef) : Bool :=
  (row.get? c.aliasName c.column).isNone

/-- A computation for every element of a list stops at the first where a column is missing. -/
theorem mapM_unlessMissing {α β : Type} {f : α → Except QueryError β}
    {m : α → Option ColumnRef} {g : α → β} {as : List α}
    (h : ∀ a ∈ as, f a = unlessMissing (m a) (g a)) :
    as.mapM f = unlessMissing (as.findSome? m) (as.map g) := by
  induction as with
  | nil => rfl
  | cons a as ih =>
    rw [List.mapM_cons, h a List.mem_cons_self,
      ih fun b hb => h b (List.mem_cons_of_mem a hb), List.findSome?_cons]
    cases m a with
    | some c => rfl
    | none => cases as.findSome? m <;> rfl

namespace Slot

/-- What a row has in a column at the alias of the slot. -/
def valueAt (s : Slot) (row : Row) (column : String) : Value :=
  (row.get? s.aliasName column).getD .null

/-- The columns of the slot in a row, without relations. -/
def bare (s : Slot) (row : Row) : Record :=
  { entity := s.entity, fields := Assoc.ofList (s.columns.map fun c => (c, s.valueAt row c)) }

/-- Whether all columns of the slot are null in a row. -/
def isNull (s : Slot) (row : Row) : Bool :=
  s.columns.all fun c => (s.valueAt row c).isNull

/-- The first column of the slot that a row does not have. -/
def missing? (s : Slot) (row : Row) : Option ColumnRef :=
  s.columnRefs.find? row.lacks

theorem read_eq (s : Slot) (row : Row) :
    s.read row = unlessMissing (s.missing? row) (s.bare row) := by
  have hfirst : (s.columns.findSome? fun c =>
      Option.guard row.lacks { aliasName := s.aliasName, column := c }) = s.missing? row := by
    rw [missing?, ← List.findSome?_guard, columnRefs, List.findSome?_map]
    rfl
  rw [Slot.read, mapM_unlessMissing (g := fun c => (c, s.valueAt row c)) (m := fun c =>
    Option.guard row.lacks { aliasName := s.aliasName, column := c }), hfirst]
  · cases s.missing? row <;> rfl
  · intro c _
    cases h : row.get? s.aliasName c with
    | none => simp [Option.guard, Row.lacks, h, unlessMissing]
    | some v => simp [Option.guard, Row.lacks, h, unlessMissing, valueAt]

/-- A slot of which all columns are null is read as blank. -/
theorem isBlank_bare (s : Slot) (row : Row) :
    CompiledStatement.isBlank (s.bare row) = s.isNull row := by
  rw [Bool.eq_iff_iff, CompiledStatement.isBlank, isNull, List.all_eq_true, List.all_eq_true]
  constructor
  · intro h c hc
    have hlookup : (s.bare row).fields.lookup c = some (s.valueAt row c) :=
      (Assoc.lookup_ofList_map c).trans (if_pos hc)
    exact h (c, s.valueAt row c) (Assoc.mem_of_lookup hlookup)
  · intro h e he
    obtain ⟨hc, hv⟩ := Assoc.mem_ofList_map he
    rw [hv]
    exact h e.1 hc

/-! ### Records of slots -/

/-- The relations that start at a place, in the order of the slots: each has the record of its
    slot, with what is below, unless all columns there are null. The slots are those from a place
    on. -/
def relationsFrom (row : Row) : (place next : Nat) → List Slot → List (String × Related Record)
  | _, _, [] => []
  | place, next, s :: later =>
    let rest := relationsFrom row place (next + 1) later
    match s.link with
    | none => rest
    | some l =>
      if l.parent = place then
        let child := { s.bare row with relations := relationsFrom row next (next + 1) later }
        (l.relation, .one (if s.isNull row then none else some child)) :: rest
      else rest

/-- The record of a slot at a place, with what is below at later slots. -/
def nested (s : Slot) (row : Row) (place : Nat) (later : List Slot) : Record :=
  { s.bare row with relations := relationsFrom row place (place + 1) later }

end Slot

namespace CompiledStatement

/-- The first column that is read and that a row does not have, in the order of the slots. -/
def missing? (cs : CompiledStatement) (row : Row) : Option ColumnRef :=
  (cs.slots.flatMap Slot.columnRefs).find? row.lacks

theorem missing?_eq (cs : CompiledStatement) (row : Row) :
    cs.missing? row = cs.slots.findSome? fun s => s.missing? row :=
  List.find?_flatMap ..

/-- Reading the slots stops at the first column that the row does not have. -/
theorem foldlM_readSlot_of_missing {slots : List Slot} {row : Row} {c : ColumnRef}
    (h : (slots.findSome? fun s => s.missing? row) = some c) (before : List (Option Record)) :
    slots.foldlM (readSlot row) before = .error (Fault.missingColumn c.aliasName c.column) := by
  induction slots generalizing before with
  | nil => cases h
  | cons s slots ih =>
    rw [List.findSome?_cons] at h
    rw [List.foldlM_cons, readSlot, s.read_eq row]
    cases hs : s.missing? row with
    | some c' =>
      rw [hs] at h
      obtain rfl := Option.some.inj h
      rfl
    | none =>
      rw [hs] at h
      exact ih h _

/-- The slots that start at one come after it. -/
theorem childSlots_eq_drop {slots : List Slot} (h : IsLinked slots) {i : Nat}
    (hi : i < slots.length) : childSlots slots i =
      ((slots.drop (i + 1)).zipIdx (i + 1)).filterMap fun s =>
        s.1.link.bind fun l => if l.parent = i then some (s.2, l.relation) else none := by
  have hlength : (slots.take (i + 1)).length = i + 1 := List.length_take_of_le hi
  have hbefore : ((slots.take (i + 1)).zipIdx.filterMap fun s =>
      s.1.link.bind fun l => if l.parent = i then some (s.2, l.relation) else none) = [] := by
    refine List.filterMap_eq_nil_iff.2 ?_
    rintro ⟨s, k⟩ hmem
    have hk := List.mem_zipIdx_iff_getElem?.1 hmem
    have hlt := (List.getElem?_eq_some_iff.1 hk).1
    rw [List.getElem?_take_of_lt (by omega)] at hk
    refine Option.bind_eq_none_iff.2 fun l hl => if_neg fun hparent => ?_
    have := h.parent_lt k s l hk hl
    omega
  conv => lhs; rw [childSlots, ← List.take_append_drop (i + 1) slots]
  rw [List.zipIdx_append, List.filterMap_append, hbefore, List.nil_append, hlength, Nat.zero_add]

/-- What is put together below a slot are the relations from it on. The induction is on the
    slots that are left: what is below the first of them is below it alone. -/
theorem map_out_eq_relationsFrom {slots : List Slot} {row : Row} {out : Nat → Option Record}
    (h : IsLinked slots) (hout : IsPutTogether slots (fun s _ => s.bare row) out)
    {later : List Slot} {n : Nat} (hlater : slots.drop n = later) {i : Nat} (hi : i < n)
    (hsome : (out i).isSome) :
    ((later.zipIdx n).filterMap fun s => s.1.link.bind fun l =>
      if l.parent = i then some (s.2, l.relation) else none).map
        (fun c => (c.2, Related.one (out c.1))) = Slot.relationsFrom row i n later := by
  induction later generalizing n i with
  | nil => rfl
  | cons s later ih =>
    have hs : slots[n]? = some s := by
      rw [← List.head?_drop, hlater]
      rfl
    have hlt := (List.getElem?_eq_some_iff.1 hs).1
    have hrest : slots.drop (n + 1) = later := by
      rw [← List.tail_drop, hlater]
      rfl
    have hother := ih hrest (Nat.lt_succ_of_lt hi) hsome
    rw [List.zipIdx_cons, Slot.relationsFrom]
    cases hl : s.link with
    | none =>
      rw [List.filterMap_cons_none (by rw [hl]; rfl)]
      exact hother
    | some l =>
      by_cases hparent : l.parent = i
      · -- The slot starts here, where something is.
        have hhere : out n = if s.isNull row then none
            else some (CompiledStatement.withChildren (childSlots slots n) out (s.bare row)) := by
          rw [hout n s hs, hl]
          simp only [hparent, hsome, Slot.isBlank_bare]
          cases s.isNull row <;> rfl
        have hchild : out n = if s.isNull row then none
            else some (s.nested row n later) := by
          cases hnull : s.isNull row with
          | true => rw [hhere, hnull]; rfl
          | false =>
            rw [hnull] at hhere
            have hbelow := ih hrest (Nat.lt_succ_self n) (by rw [hhere]; rfl)
            rw [hhere, withChildren, childSlots_eq_drop h hlt, hrest, hbelow]
            rfl
        rw [List.filterMap_cons_some (by rw [hl]; exact if_pos hparent), List.map_cons, hother]
        simp only [if_pos hparent, hchild]
        rfl
      · rw [List.filterMap_cons_none (by rw [hl]; exact if_neg hparent)]
        simp only [if_neg hparent]
        exact hother

end CompiledStatement

/-! ### Rows of a result -/

/-- Null alone has no key. -/
theorem Value.key?_eq_none_iff {v : Value} : v.key? = none ↔ v = .null := by
  cases v with
  | null => exact iff_of_true rfl rfl
  | float x =>
    rw [key?]
    split <;> exact iff_of_false nofun nofun
  | _ => exact iff_of_false nofun nofun

/-- The key of what a row has at a slot. -/
def Slot.key? (s : Slot) (row : Row) : Option Key :=
  (s.valueAt row s.primaryKey).key?

theorem Slot.key?_nested {s : Slot} (hprimary : s.primaryKey ∈ s.columns) (row : Row)
    (place : Nat) (later : List Slot) :
    (s.nested row place later).key? s.primaryKey = s.key? row := by
  have hget : (s.nested row place later).get? s.primaryKey = some (s.valueAt row s.primaryKey) :=
    (Assoc.lookup_ofList_map s.primaryKey).trans (if_pos hprimary)
  rw [Record.key?, hget]
  rfl

/-- How rows are assembled at a root slot and others after it. -/
structure CompiledStatement.IsNested (cs : CompiledStatement) (root : Slot) (later : List Slot) :
    Prop where
  slots_eq : cs.slots = root :: later
  link_root : root.link = none
  /-- Every other slot starts at one before it. -/
  link_later : ∀ (i : Nat) (s : Slot), later[i]? = some s → ∃ l, s.link = some l ∧ l.parent ≤ i
  assembleRow_eq : ∀ row,
    cs.assembleRow row = unlessMissing (cs.missing? row) (root.nested row 0 later)
  /-- The first row that cannot be assembled is at fault. Otherwise rows without a key are left,
      and the first row with every key. -/
  assemble_eq : ∀ rows, cs.assemble rows = unlessMissing (rows.findSome? cs.missing?)
    ((firsts root.key? rows).map fun row => root.nested row 0 later)
  key?_eq_none_iff : ∀ row, root.key? row = none ↔ root.valueAt row root.primaryKey = .null

namespace Reading

variable {k : Compiler} {plan : LoadPlan} {scope : QueryScope} {root : Entity} {R : Reading}

/-- A row is assembled to the record of the root slot, unless a column is missing. -/
theorem assembleRow_eq (hlinked : IsLinked R.slots) (row : Row) :
    (R.compiled scope).assembleRow row = unlessMissing ((R.compiled scope).missing? row)
      (R.rootSlot.nested row 0 (R.joints.map Joint.slot)) := by
  have hslots : (R.compiled scope).slots = R.slots := rfl
  rw [CompiledStatement.missing?_eq, hslots]
  cases hmissing : R.slots.findSome? fun s => s.missing? row with
  | some c =>
    rw [CompiledStatement.assembleRow, hslots,
      CompiledStatement.foldlM_readSlot_of_missing hmissing]
    rfl
  | none =>
    -- No column is missing, so that every slot is read.
    have hread : ∀ (i : Nat) (s : Slot), R.slots[i]? = some s → s.read row = .ok (s.bare row) := by
      intro i s hs
      rw [s.read_eq, List.findSome?_eq_none_iff.1 hmissing s (List.mem_of_getElem? hs)]
      rfl
    obtain ⟨out, r, hout, hzero, hrow⟩ :=
      exists_isPutTogether_of_read hlinked (fun _ _ => rfl) hread scope
    have hroot : out 0 = some (CompiledStatement.withChildren (childSlots R.slots 0) out
        (R.rootSlot.bare row)) := hout 0 R.rootSlot rfl
    have hbelow := CompiledStatement.map_out_eq_relationsFrom hlinked hout
      (show R.slots.drop 1 = R.joints.map Joint.slot from rfl) Nat.zero_lt_one (by rw [hroot]; rfl)
    obtain rfl := Option.some.inj (hzero.symm.trans hroot)
    rw [hrow, CompiledStatement.withChildren, CompiledStatement.childSlots_eq_drop hlinked
      (Nat.succ_pos _), show R.slots.drop (0 + 1) = R.joints.map Joint.slot from rfl, hbelow]
    rfl

/-- The rows of a statement of a selected plan are assembled to the records of its root slot. -/
theorem IsSound.isNested (h : R.IsSound k plan scope) (hsel : plan.IsSelected k.catalog root)
    (hc : k.catalog.IsSound) (hgroup : R.group ∈ plan.groups) :
    (R.compiled scope).IsNested R.rootSlot (R.joints.map Joint.slot) := by
  have hlinked := h.isLinked hsel hgroup
  have hprimary : R.rootSlot.primaryKey ∈ R.rootSlot.columns :=
    hc.primaryKey_mem _ (Catalog.entity_eq_ok h.entity).1
  constructor
  case slots_eq => rfl
  case link_root => rfl
  case link_later =>
    intro i s hs
    rw [List.getElem?_map, Option.map_eq_some_iff] at hs
    obtain ⟨j, hj, rfl⟩ := hs
    exact ⟨_, rfl, h.parent_le i j hj⟩
  case assembleRow_eq => exact assembleRow_eq hlinked
  case assemble_eq =>
    intro rows
    rw [CompiledStatement.assemble, mapM_unlessMissing fun row _ => assembleRow_eq hlinked row]
    cases rows.findSome? (R.compiled scope).missing? with
    | some c => rfl
    | none =>
      -- The key of a record is that of its row, so that the same rows are the first.
      have hkey : ((·.key? R.rootSlot.primaryKey) ∘
          fun row => R.rootSlot.nested row 0 (R.joints.map Joint.slot)) = R.rootSlot.key? :=
        funext fun row => Slot.key?_nested hprimary row 0 _
      rw [← firstBy_eq_firsts, ← hkey, ← firstBy_map, ← firstByKey_eq]
      rfl
  case key?_eq_none_iff => exact fun _ => Value.key?_eq_none_iff

end Reading

namespace Compiler

variable {decls : List EntityDecl} {k : Compiler} {maxDepth : Nat} {name : String}
  {populate : List String} {paths : List RelationPath} {g : Graph} {d : StrategyDefaults}
  {scope : QueryScope} {compiled : CompiledPlan} {cs : CompiledStatement}

/-- The statements of a compiled plan read a root slot and others after it, and rows are
    assembled to the records of the root slot, each with all that is below it. -/
theorem isNested_of_compile (hbuild : Catalog.build decls = .ok k.catalog)
    (hparse : populate.mapM RelationPath.parse = .ok paths)
    (hresolve : Graph.resolve k.catalog maxDepth name paths = .ok g)
    (hcompile : k.compile (d.select g) scope = .ok compiled) (hcs : cs ∈ compiled.statements) :
    ∃ root later, cs.IsNested root later := by
  have hdot := RelationPath.isDotFree_of_mapM_parse hparse
  obtain ⟨root, hsel⟩ := LoadPlan.isSelected_of_resolve d hdot hresolve
  obtain ⟨R, hgroup, hsound, rfl⟩ := Reading.exists_of_mem_statements hcompile hcs
  exact ⟨R.rootSlot, R.joints.map Joint.slot, hsound.isNested hsel
    (Catalog.isSound_of_build hbuild) hgroup⟩

end Compiler

/-! ### Rows of articles -/

/-- A row of an article, its author and the author's team. -/
def articleRow (article author team : Value) : Row :=
  ((Row.insertAll {} "article" ["id", "author_id", "section_id"] fun c =>
      if c = "id" then article else .null).insertAll "author" ["id", "team_id"] fun _ =>
        author).insertAll "author__team" ["id"] fun _ => team

/-- Rows of two articles, the second twice, and of one without a key. -/
def articleRows : List Row :=
  [articleRow (.int 1) .null (.int 5), articleRow (.int 2) (.int 8) (.int 5),
    articleRow (.int 2) .null .null, articleRow .null .null .null]

/-- The key of an article and, if it has an author with a team, that of the team. -/
def articleTeam (r : Record) : Option Value × Option Value :=
  (r.get? "id", (r.one? "author").bind fun a => (a.one? "team").bind fun t => t.get? "id")

namespace Compiler

/-- An article without an author has no team either. The second row of an article is left out,
    but no row without a key; and a row without a team is at fault, even if there is no author. -/
theorem isNested_of_compile_articles :
    ∃ c g compiled cs, Catalog.build articleDecls = .ok c ∧
      Graph.resolve c 4 "Article" [⟨["author", "team"]⟩] = .ok g ∧
      compile ⟨c, {}, {}⟩ (StrategyDefaults.select {} g) {} = .ok compiled ∧
      compiled.primary? = some cs ∧
      (cs.assemble articleRows).map (List.map articleTeam) =
        .ok [(some (.int 1), none), (some (.int 2), some (.int 5)), (some .null, none)] ∧
      cs.assemble [articleRow (.int 1) .null .null,
          { values := (articleRow (.int 1) .null .null).values.take 2 }] =
        .error (Fault.missingColumn "author__team" "id") ∧
      ∃ root later, cs.IsNested root later := by
  obtain ⟨c, hc, g, hg, compiled, hcompiled, cs, hcs, hrows, hmissing⟩ :
      ∃ c, Catalog.build articleDecls = .ok c ∧
      ∃ g, Graph.resolve c 4 "Article" [⟨["author", "team"]⟩] = .ok g ∧
      ∃ compiled, compile ⟨c, {}, {}⟩ (StrategyDefaults.select {} g) {} = .ok compiled ∧
      ∃ cs, compiled.primary? = some cs ∧
      (cs.assemble articleRows).map (List.map articleTeam) =
        .ok [(some (.int 1), none), (some (.int 2), some (.int 5)), (some .null, none)] ∧
      cs.assemble [articleRow (.int 1) .null .null,
          { values := (articleRow (.int 1) .null .null).values.take 2 }] =
        .error (Fault.missingColumn "author__team" "id") :=
    ⟨_, rfl, _, rfl, _, rfl, _, rfl, rfl, rfl⟩
  have hparse : ["author.team"].mapM RelationPath.parse = .ok [⟨["author", "team"]⟩] := rfl
  exact ⟨c, g, compiled, cs, hc, hg, hcompiled, hcs, hrows, hmissing,
    isNested_of_compile (k := ⟨c, {}, {}⟩) hc hparse hg hcompiled (List.mem_of_getElem? hcs)⟩

end Compiler

end EntityFetch
