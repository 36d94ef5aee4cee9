import EntityFetch.Proofs.Declared
import EntityFetch.Proofs.Naming
import EntityFetch.Proofs.Nested
import EntityFetch.Proofs.Path
import EntityFetch.Proofs.Rendered
import Mathlib.Data.List.TakeDrop

/-!
# Labels

A database gives the values of a row by the labels that the statement has for them. A row is made
from these by cutting every label at its first dot. This gives back the alias and the column since
an alias has no dot, whatever is in the name of the column; and as no alias is given twice, no two
columns share a label, unless an entity has the same column twice (`Compiler.shared_label_tags`).

* `Statement.labels_scan_sqlText`: the text of a statement has the labels of its columns, in their
  order.
* `CompiledStatement.IsLabelled`: the labels of a compiled statement are distinct, and values by
  label, in any order, are read and assembled like values put into a row where they belong.
-/

namespace EntityFetch

/-! ### Cutting labels -/

/-- A text that starts with one in which there is no separator is cut behind it. -/
theorem Text.splitFirst?_append {separator : Char} {s : String} (hs : separator ∉ s.toList)
    (t : String) : splitFirst? separator (s ++ String.singleton separator ++ t) = some (s, t) := by
  have hbefore : ∀ c ∈ s.toList, (c != separator) = true :=
    fun c hc => bne_iff_ne.2 fun h => hs (h ▸ hc)
  have hchars : (s ++ String.singleton separator ++ t).toList =
      s.toList ++ separator :: t.toList := by simp
  rw [splitFirst?, hchars, List.span_eq_takeWhile_dropWhile,
    List.takeWhile_append_of_pos hbefore, List.dropWhile_append_of_pos hbefore]
  simp

namespace ColumnRef

/-- A column is read off its label, dots in its name included. -/
theorem splitFirst?_label {c : ColumnRef} (hc : IsDotFree c.aliasName) :
    Text.splitFirst? '.' c.label = some (c.aliasName, c.column) :=
  Text.splitFirst?_append hc c.column

example : Text.splitFirst? '.' { aliasName := "site", column := "geo.lat" : ColumnRef }.label =
    some ("site", "geo.lat") := by decide

theorem label_inj {c c' : ColumnRef} (hc : IsDotFree c.aliasName) (hc' : IsDotFree c'.aliasName)
    (h : c.label = c'.label) : c = c' := by
  have hsplit := splitFirst?_label hc
  rw [h, splitFirst?_label hc'] at hsplit
  cases c
  cases c'
  cases hsplit
  rfl

end ColumnRef

/-! ### Labels in the text -/

namespace Token

/-- The names after `AS` up to the word `FROM`, given whether the first token comes after `AS`. -/
def labelsAfter (labelled : Bool) : List Token → List String
  | [] => []
  | t :: ts =>
    if t = plain "FROM" then []
    else (if labelled then t.identifier?.toList else []) ++ labelsAfter (t = plain "AS") ts

/-- The labels among the tokens of a statement. -/
def labels (ts : List Token) : List String :=
  labelsAfter false ts

/-- Tables have no labels, but aliases. -/
example : labels (scan "SELECT a.\"x.y\" AS \"a.x.y\", a.z AS \"a.z\" FROM t AS a") =
    ["a.x.y", "a.z"] := by decide

/-- A column with its label. -/
theorem labelsAfter_column (aliasName column label : String) (ts : List Token) :
    labelsAfter false (Identifier.token aliasName :: plain "." :: Identifier.token column ::
      plain "AS" :: quoted label :: ts) = label :: labelsAfter false ts := by
  have hfrom (name : String) : Identifier.token name ≠ plain "FROM" := token_ne_plain name rfl
  have has (name : String) : Identifier.token name ≠ plain "AS" := token_ne_plain name rfl
  simp [labelsAfter, hfrom, has, identifier?]

end Token

namespace Statement

open Fragment

/-- The labels of columns are read in their order, up to the tables. -/
theorem labelsAfter_columns {d : Dialect} (n : Nat) (cs : List ColumnRef) (ts : List Token) :
    Token.labelsAfter false (tokens d n (separated ", " (cs.map columnFragment)) ++
      .plain "FROM" :: ts) = cs.map ColumnRef.label := by
  induction cs generalizing n with
  | nil => rfl
  | cons c cs ih =>
    cases cs with
    | nil => exact Token.labelsAfter_column c.aliasName c.column c.label _
    | cons c' cs =>
      have hcomma (ts : List Token) :
          Token.labelsAfter false (.plain "," :: ts) = Token.labelsAfter false ts := rfl
      rw [List.map_cons, List.map_cons, separated, tokens_append, List.append_assoc]
      exact (Token.labelsAfter_column c.aliasName c.column c.label _).trans
        (congrArg (c.label :: ·) ((hcomma _).trans (ih _)))

/-- The text of a statement has the labels of its columns. -/
theorem labels_scan_sqlText (s : Statement) (d : Dialect) :
    Token.labels (Token.scan (s.sqlText d)) = s.columns.map ColumnRef.label := by
  rw [sqlText, s.isSpaced_fragment.scan_text, fragment]
  simp only [List.append_assoc, List.cons_append]
  rw [tokens, tokens_append]
  exact labelsAfter_columns 1 s.columns _

end Statement

/-! ### Rows -/

namespace Row

/-- Values with labels are put where they belong. -/
theorem ofLabelled_map {cs : List ColumnRef} (hcs : ∀ c ∈ cs, IsDotFree c.aliasName)
    (value : ColumnRef → Value) :
    ofLabelled (cs.map fun c => (c.label, value c)) = ofColumns cs value := by
  rw [ofLabelled, ofColumns, List.foldl_map]
  refine List.foldl_ext _ _ _ fun r c hc => ?_
  rw [ColumnRef.splitFirst?_label (hcs c hc)]

/-- The order of the values makes no difference to what is read. -/
theorem get?_ofLabelled {cs : List ColumnRef} (hcs : ∀ c ∈ cs, IsDotFree c.aliasName)
    {value : ColumnRef → Value} {values : List (String × Value)}
    (hvalues : values.Perm (cs.map fun c => (c.label, value c))) (aliasName column : String) :
    (ofLabelled values).get? aliasName column = (ofColumns cs value).get? aliasName column := by
  have hcomp : Relation.Comp (· = List.map (fun c => (c.label, value c)) ·) List.Perm
      values cs := by
    rw [List.eq_map_comp_perm]
    exact hvalues
  obtain ⟨cs', rfl, hperm⟩ := hcomp
  rw [ofLabelled_map fun c hc => hcs c (hperm.mem_iff.1 hc)]
  have hget := fun cs => get?_ofColumns cs value { aliasName, column }
  rw [hget, hget]
  exact if_congr hperm.mem_iff rfl rfl

end Row

/-- What is assembled from a row depends on nothing but what is read of it. -/
theorem CompiledStatement.assembleRow_congr {cs : CompiledStatement} {row row' : Row}
    (h : ∀ aliasName column, row.get? aliasName column = row'.get? aliasName column) :
    cs.assembleRow row = cs.assembleRow row' := by
  have hread : ∀ s : Slot, s.read row = s.read row' := fun s => by simp only [Slot.read, h]
  have hreadSlot : readSlot row = readSlot row' :=
    funext fun before => funext fun s => by simp only [readSlot, hread]
  rw [assembleRow, assembleRow, hreadSlot]

/-! ### Compiled statements -/

/-- A statement of which the rows can be told from values with labels. -/
structure CompiledStatement.IsLabelled (cs : CompiledStatement) : Prop where
  /-- The labels in the text are those of the columns. -/
  labels_eq : ∀ d : Dialect, Token.labels (Token.scan (cs.statement.sqlText d)) =
    cs.statement.columns.map ColumnRef.label
  label_inj : ∀ c ∈ cs.statement.columns, ∀ c' ∈ cs.statement.columns, c.label = c'.label → c = c'
  /-- Whatever the values are, and in whatever order they come, every column has its own. -/
  get?_eq : ∀ (value : ColumnRef → Value) (values : List (String × Value)),
    values.Perm (cs.statement.columns.map fun c => (c.label, value c)) →
      ∀ c ∈ cs.statement.columns,
        (Row.ofLabelled values).get? c.aliasName c.column = some (value c)
  /-- Such a row can be assembled, and gives what the values give without labels. -/
  assembleRow_eq : ∀ (value : ColumnRef → Value) (values : List (String × Value)),
    values.Perm (cs.statement.columns.map fun c => (c.label, value c)) →
      ∃ r, cs.assembleRow (Row.ofLabelled values) = .ok r ∧
        cs.assembleRow (Row.ofColumns cs.statement.columns value) = .ok r

theorem IsPlain.isDotFree {s : String} (h : IsPlain s) : IsDotFree s :=
  fun hdot => absurd (h '.' hdot) (by decide)

namespace Reading

variable {k : Compiler} {plan : LoadPlan} {scope : QueryScope} {root : Entity} {R : Reading}

/-- No column is read twice, unless it is twice among the columns of a slot. -/
theorem IsSound.nodup_columns_iff (h : R.IsSound k plan scope) :
    (R.statement scope).columns.Nodup ↔ ∀ s ∈ R.slots, s.columns.Nodup := by
  have hslot : ∀ s : Slot, s.columnRefs.Nodup ↔ s.columns.Nodup := fun s =>
    List.nodup_map_iff fun c c' hcc => (ColumnRef.mk.inj hcc).2
  have hdisjoint : R.slots.Pairwise (Function.onFun List.Disjoint Slot.columnRefs) := by
    refine (List.pairwise_map.1 h.aliases_nodup).imp fun {s s'} hne => ?_
    refine List.disjoint_left.2 fun c hc hc' => ?_
    obtain ⟨_, -, rfl⟩ := List.mem_map.1 hc
    obtain ⟨_, -, heq⟩ := List.mem_map.1 hc'
    exact hne (ColumnRef.mk.inj heq).1.symm
  rw [show (R.statement scope).columns = R.slots.flatMap Slot.columnRefs from rfl,
    List.nodup_flatMap, and_iff_left hdisjoint]
  exact forall₂_congr fun s _ => hslot s

/-- Every column that is read is at an alias of the statement. -/
theorem aliasName_mem_aliases {c : ColumnRef} (hc : c ∈ (R.statement scope).columns) :
    c.aliasName ∈ (R.statement scope).aliases := by
  obtain ⟨s, hs, hc⟩ := List.mem_flatMap.1 hc
  obtain ⟨_, -, rfl⟩ := List.mem_map.1 hc
  exact R.map_aliasName_slots scope ▸ List.mem_map_of_mem hs

/-- The rows of a statement of a selected plan can be told from values with labels, if no alias has
    a dot. -/
theorem IsSound.isLabelled (h : R.IsSound k plan scope) (hsel : plan.IsSelected k.catalog root)
    (hc : k.catalog.IsSound) (hgroup : R.group ∈ plan.groups)
    (haliases : ∀ a ∈ (R.statement scope).aliases, IsDotFree a) :
    (R.compiled scope).IsLabelled := by
  have hdot : ∀ c ∈ (R.statement scope).columns, IsDotFree c.aliasName :=
    fun c hc => haliases _ (aliasName_mem_aliases hc)
  constructor
  case labels_eq => exact (R.statement scope).labels_scan_sqlText
  case label_inj => exact fun c hc c' hc' => ColumnRef.label_inj (hdot c hc) (hdot c' hc')
  case get?_eq =>
    intro value values hvalues c hmem
    rw [Row.get?_ofLabelled hdot hvalues]
    exact (Row.get?_ofColumns _ value c).trans (if_pos hmem)
  case assembleRow_eq =>
    intro value values hvalues
    -- Nothing that is read is missing from a row with a value for every column.
    have hmissing : (R.compiled scope).missing? (.ofColumns (R.statement scope).columns value) =
        none := by
      refine List.find?_eq_none.2 fun c hmem => ?_
      have hget := (Row.get?_ofColumns (R.statement scope).columns value c).trans (if_pos hmem)
      rw [Row.lacks, hget]
      exact Bool.false_ne_true
    have hassembled := (h.isNested hsel hc hgroup).assembleRow_eq
      (.ofColumns (R.statement scope).columns value)
    rw [hmissing] at hassembled
    exact ⟨_, (CompiledStatement.assembleRow_congr (Row.get?_ofLabelled hdot hvalues)).trans
      hassembled, hassembled⟩

end Reading

namespace Compiler

variable {decls : List EntityDecl} {k : Compiler} {maxDepth : Nat} {name : String}
  {populate : List String} {paths : List RelationPath} {g : Graph} {d : StrategyDefaults}
  {scope : QueryScope} {compiled : CompiledPlan} {cs : CompiledStatement}

/-- The statements of a compiled plan give every column a label of its own, by which rows are read
    and assembled as they would be without labels, whatever the names of columns are. No label is
    given twice just if no entity that is read has a column twice, as none has of which no column
    is declared twice. -/
theorem isLabelled_of_compile (hbuild : Catalog.build decls = .ok k.catalog)
    (hparse : populate.mapM RelationPath.parse = .ok paths)
    (hresolve : Graph.resolve k.catalog maxDepth name paths = .ok g)
    (hcompile : k.compile (d.select g) scope = .ok compiled) (hcs : cs ∈ compiled.statements) :
    cs.IsLabelled ∧
      ((cs.statement.columns.map ColumnRef.label).Nodup ↔ ∀ s ∈ cs.slots, s.columns.Nodup) ∧
      ((∀ d ∈ decls, d.columns.Nodup) → (cs.statement.columns.map ColumnRef.label).Nodup) := by
  have hdot := RelationPath.isDotFree_of_mapM_parse hparse
  obtain ⟨root, hsel⟩ := LoadPlan.isSelected_of_resolve d hdot hresolve
  have haliases : ∀ a ∈ cs.statement.aliases, IsDotFree a :=
    fun a ha => (isPlain_of_mem_aliases hcompile hcs a ha).isDotFree
  obtain ⟨R, hgroup, hsound, rfl⟩ := Reading.exists_of_mem_statements hcompile hcs
  have hlabelled := hsound.isLabelled hsel (Catalog.isSound_of_build hbuild) hgroup haliases
  have hiff : ((R.statement scope).columns.map ColumnRef.label).Nodup ↔
      ∀ s ∈ R.slots, s.columns.Nodup :=
    ⟨fun h => hsound.nodup_columns_iff.1 h.of_map, fun h =>
      (hsound.nodup_columns_iff.2 h).map_on hlabelled.label_inj⟩
  refine ⟨hlabelled, hiff, fun hdecls => hiff.2 fun s hs => ?_⟩
  obtain ⟨e, he, -, -, heq, -⟩ := hsound.exists_entity hsel hs
  exact heq ▸ Catalog.nodup_columns_of_build hbuild hdecls e he

end Compiler

/-! ### Sites and their owners -/

/-- A site is somewhere and has an owner. -/
def siteDecl : EntityDecl :=
  (({ name := "Site", table := "sites" } : EntityDecl).addColumns
    ["geo.lat", "owner_id"]).addRelation
      { RelationDecl.manyToOne "owner" "Owner" "owner_id" with eager := true }

/-- An owner is somewhere else. -/
def ownerDecl : EntityDecl :=
  ({ name := "Owner", table := "owners" } : EntityDecl).addColumns ["geo.lat"]

namespace Compiler

/-- Where a site and its owner are is told apart by the aliases before the first dots. -/
theorem isLabelled_of_compile_sites :
    ∃ c g compiled cs, Catalog.build [siteDecl, ownerDecl] = .ok c ∧
      Graph.resolve c 4 "Site" [] = .ok g ∧
      compile ⟨c, {}, {}⟩ (StrategyDefaults.select {} g) {} = .ok compiled ∧
      compiled.primary? = some cs ∧
      cs.statement.columns.map ColumnRef.label =
        ["site.id", "site.geo.lat", "site.owner_id", "owner.id", "owner.geo.lat"] ∧
      (cs.statement.columns.map ColumnRef.label).Nodup ∧ cs.IsLabelled ∧
      ∀ value : ColumnRef → Value,
        (Row.ofLabelled (cs.statement.columns.map fun c => (c.label, value c)).reverse).get?
          "owner" "geo.lat" = some (value ⟨"owner", "geo.lat"⟩) := by
  obtain ⟨c, hc, g, hg, compiled, hcompiled, cs, hcs, hcolumns⟩ :
      ∃ c, Catalog.build [siteDecl, ownerDecl] = .ok c ∧
      ∃ g, Graph.resolve c 4 "Site" [] = .ok g ∧
      ∃ compiled, compile ⟨c, {}, {}⟩ (StrategyDefaults.select {} g) {} = .ok compiled ∧
      ∃ cs, compiled.primary? = some cs ∧ cs.statement.columns =
        [⟨"site", "id"⟩, ⟨"site", "geo.lat"⟩, ⟨"site", "owner_id"⟩, ⟨"owner", "id"⟩,
          ⟨"owner", "geo.lat"⟩] := ⟨_, rfl, _, rfl, _, rfl, _, rfl, rfl⟩
  have hdecls : ∀ d ∈ [siteDecl, ownerDecl], d.columns.Nodup := by decide
  have hparse : [].mapM RelationPath.parse = .ok [] := rfl
  obtain ⟨hlabelled, -, hnodup⟩ := isLabelled_of_compile (k := ⟨c, {}, {}⟩) hc hparse hg hcompiled
    (List.mem_of_getElem? hcs)
  refine ⟨c, g, compiled, cs, hc, hg, hcompiled, hcs, by rw [hcolumns]; rfl, hnodup hdecls,
    hlabelled, ?_⟩
  exact fun value => hlabelled.get?_eq value _ (List.reverse_perm _) ⟨"owner", "geo.lat"⟩
    (by rw [hcolumns]; decide)

/-! ### Tags -/

/-- The statement for tags gives the column that is declared twice one label for both, by which
    the later value is read and the earlier one is lost. -/
theorem shared_label_tags :
    ∃ g compiled cs, Catalog.build [Catalog.tagDecl] = .ok Catalog.tagCatalog ∧
      Graph.resolve Catalog.tagCatalog 4 "Tag" [] = .ok g ∧
      compile ⟨Catalog.tagCatalog, {}, {}⟩ (StrategyDefaults.select {} g) {} = .ok compiled ∧
      compiled.primary? = some cs ∧
      cs.statement.columns.map ColumnRef.label = ["tag.id", "tag.label", "tag.label"] ∧
      ¬(cs.statement.columns.map ColumnRef.label).Nodup ∧
      (Row.ofLabelled ((cs.statement.columns.map ColumnRef.label).zip
        [.int 1, .str "a", .str "b"])).get? "tag" "label" = some (.str "b") := by
  obtain ⟨g, hg, compiled, hcompiled, cs, hcs, hlabels⟩ :
      ∃ g, Graph.resolve Catalog.tagCatalog 4 "Tag" [] = .ok g ∧
      ∃ compiled, compile ⟨Catalog.tagCatalog, {}, {}⟩ (StrategyDefaults.select {} g) {} =
        .ok compiled ∧
      ∃ cs, compiled.primary? = some cs ∧
        cs.statement.columns.map ColumnRef.label = ["tag.id", "tag.label", "tag.label"] :=
    ⟨_, rfl, _, rfl, _, rfl, rfl⟩
  refine ⟨g, compiled, cs, rfl, hg, hcompiled, hcs, hlabels, ?_⟩
  rw [hlabels]
  exact ⟨by decide, rfl⟩

end Compiler

end EntityFetch
