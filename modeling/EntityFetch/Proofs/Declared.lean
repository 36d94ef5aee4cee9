import EntityFetch.Proofs.Catalog
import Mathlib.Data.List.Perm.Basic

/-!
# Declarations that belong together

Of which declarations a catalog is built, and what it then has of them.

* `Catalog.IsConsistent`: names are distinct, every relation has a target, and its columns, those
  that are not declared being filled in, are there.
* `Catalog.IsEntity`: an entity is the one that is declared, with its primary key among its columns
  and both columns of every relation.
* `Catalog.isDeclared_of_build`: just the consistent declarations make a catalog, its entities are
  the declared ones, and the order of the declarations is that of the entities and nothing else.

That a column is declared twice is not noticed (`Catalog.repeated_column_tags`). It does not
happen in declarations that are made step by step.
-/

namespace EntityFetch

/-! ### Making declarations -/

namespace EntityDecl

/-- Whether a declaration was made step by step from one with nothing but a name and a table. -/
inductive IsMade : EntityDecl → Prop where
  | new (name table : String) : IsMade { name, table }
  | primaryKey {d : EntityDecl} (column : String) : IsMade d → IsMade { d with primaryKey := column }
  | columns {d : EntityDecl} (columns : List String) : IsMade d → IsMade (d.addColumns columns)
  | relation {d : EntityDecl} (r : RelationDecl) : IsMade d → IsMade (d.addRelation r)

/-- Columns that are declared step by step are distinct. -/
theorem IsMade.nodup_columns {d : EntityDecl} (h : d.IsMade) : d.columns.Nodup := by
  induction h with
  | new => exact List.nodup_nil
  | primaryKey _ _ ih => exact ih
  | columns columns _ ih => exact nodup_addAllNew ih columns
  | relation _ _ ih => exact ih

/-- Whether an entity has a column, be it declared or the primary key. -/
def HasColumn (d : EntityDecl) (column : String) : Prop :=
  column ∈ d.columns ∨ column = d.primaryKey

end EntityDecl

/-- A relation as it would be declared with both its columns. -/
def Relation.toDecl (r : Relation) : RelationDecl :=
  { name := r.name
    target := r.target
    cardinality := r.cardinality
    nullable := r.nullable
    eager := r.eager
    strategy := r.strategy
    owning := r.owning
    ownerColumn := some r.ownerColumn
    targetColumn := some r.targetColumn }

namespace Catalog

variable {decls decls' : List EntityDecl} {d t : EntityDecl} {s : RelationDecl} {r : Relation}
  {e : Entity} {c c' : Catalog} {column : String}

/-! ### What is declared and what it becomes -/

/-- Whether a relation is the one that an entity declares, with the target that is declared. Its
    columns are the declared ones. One that is not declared is the primary key, or the name of the
    relation with `_id` after it if the foreign key is on the owner. -/
structure IsRelation (d : EntityDecl) (s : RelationDecl) (t : EntityDecl) (r : Relation) :
    Prop where
  owner : r.owner = d.name
  toDecl : r.toDecl =
    { s with ownerColumn := some r.ownerColumn, targetColumn := some r.targetColumn }
  ownerColumn : ∀ column, s.ownerColumn = some column → r.ownerColumn = column
  ownerColumn_owning : s.ownerColumn = none → s.owning = true → r.ownerColumn = s.name ++ "_id"
  ownerColumn_inverse : s.ownerColumn = none → s.owning = false → r.ownerColumn = d.primaryKey
  targetColumn : ∀ column, s.targetColumn = some column → r.targetColumn = column
  targetColumn_default : s.targetColumn = none → r.targetColumn = t.primaryKey

/-- Whether an entity is the one that is declared among others. -/
structure IsEntity (decls : List EntityDecl) (d : EntityDecl) (e : Entity) : Prop where
  name : e.name = d.name
  table : e.table = d.table
  primaryKey : e.primaryKey = d.primaryKey
  columns : e.columns = if d.primaryKey ∈ d.columns then d.columns else d.primaryKey :: d.columns
  relations : List.Forall₂ (fun s r => ∃ t ∈ decls, t.name = s.target ∧ IsRelation d s t r)
    d.relations e.relations

/-- Whether declarations belong together. -/
structure IsConsistent (decls : List EntityDecl) : Prop where
  names : (decls.map EntityDecl.name).Nodup
  relations : ∀ d ∈ decls, ∀ s ∈ d.relations, ∃ t ∈ decls, t.name = s.target ∧
    ∃ r, IsRelation d s t r ∧ d.HasColumn r.ownerColumn ∧ t.HasColumn r.targetColumn

theorem IsRelation.target (h : IsRelation d s t r) : r.target = s.target :=
  congrArg RelationDecl.target h.toDecl

theorem IsRelation.ownerColumn_eq (h : IsRelation d s t r) :
    r.ownerColumn = Catalog.ownerColumn d s := by
  unfold Catalog.ownerColumn
  cases hs : s.ownerColumn with
  | some column => exact h.ownerColumn column hs
  | none =>
    cases howning : s.owning with
    | true => exact h.ownerColumn_owning hs howning
    | false => exact h.ownerColumn_inverse hs howning

theorem IsRelation.targetColumn_eq (h : IsRelation d s t r) :
    r.targetColumn = s.targetColumn.getD t.primaryKey := by
  cases hs : s.targetColumn with
  | some column => exact h.targetColumn column hs
  | none => exact h.targetColumn_default hs

/-- A declared relation becomes one relation only. -/
theorem isRelation_iff : IsRelation d s t r ↔ r =
    { name := s.name, owner := d.name, target := s.target, cardinality := s.cardinality
      nullable := s.nullable, eager := s.eager, strategy := s.strategy, owning := s.owning
      ownerColumn := Catalog.ownerColumn d s
      targetColumn := s.targetColumn.getD t.primaryKey } := by
  constructor
  · intro h
    have hdecl := h.toDecl
    rw [← h.ownerColumn_eq, ← h.targetColumn_eq, ← h.owner]
    cases r
    simp only [Relation.toDecl, RelationDecl.mk.injEq] at hdecl
    simp [hdecl]
  · rintro rfl
    refine ⟨rfl, rfl, ?_, ?_, ?_, ?_, ?_⟩ <;> simp +contextual [Catalog.ownerColumn]

theorem IsEntity.mem_columns (h : IsEntity decls d e) : column ∈ e.columns ↔ d.HasColumn column := by
  rw [h.columns, EntityDecl.HasColumn]
  split
  · next hkey =>
    refine ⟨Or.inl, ?_⟩
    rintro (hc | rfl)
    · exact hc
    · exact hkey
  · rw [List.mem_cons, or_comm]

/-- The columns of an entity are distinct if those that are declared are. -/
theorem IsEntity.nodup_columns_iff (h : IsEntity decls d e) :
    e.columns.Nodup ↔ d.columns.Nodup := by
  rw [h.columns]
  split
  · rfl
  · next hkey => rw [List.nodup_cons, and_iff_right hkey]

/-! ### Building -/

theorem resolveRelation_eq_ok (hnames : (decls.map EntityDecl.name).Nodup) :
    resolveRelation decls d s = .ok r ↔ ∃ t ∈ decls, t.name = s.target ∧ IsRelation d s t r := by
  simp only [isRelation_iff]
  unfold resolveRelation
  split
  · next hnone =>
    refine iff_of_false nofun ?_
    rintro ⟨t, ht, hname, -⟩
    exact absurd ((find?_key_eq_some_iff hnames).2 ⟨ht, hname⟩) (by rw [hnone]; nofun)
  · next t hsome =>
    obtain ⟨ht, hname⟩ := (find?_key_eq_some_iff hnames).1 hsome
    constructor
    · exact fun h => ⟨t, ht, hname, (Except.ok.inj h).symm⟩
    · rintro ⟨t', ht', hname', rfl⟩
      obtain rfl := Option.some.inj (hsome.symm.trans ((find?_key_eq_some_iff hnames).2 ⟨ht', hname'⟩))
      rfl

theorem resolveEntity_eq_ok_iff (hnames : (decls.map EntityDecl.name).Nodup) :
    resolveEntity decls d = .ok e ↔ IsEntity decls d e := by
  have hrelations : ∀ rs, d.relations.mapM (resolveRelation decls d) = .ok rs ↔
      List.Forall₂ (fun s r => ∃ t ∈ decls, t.name = s.target ∧ IsRelation d s t r)
        d.relations rs := by
    simp only [mapM_eq_ok, resolveRelation_eq_ok hnames, implies_true]
  constructor
  · intro h
    obtain ⟨rs, hrs, h⟩ := bind_eq_ok.1 h
    obtain rfl := pure_eq_ok.1 h
    refine ⟨rfl, rfl, rfl, ?_, (hrelations rs).1 hrs⟩
    simp only [EntityDecl.allColumns, List.contains_iff_mem]
  · intro h
    refine bind_eq_ok.2 ⟨e.relations, (hrelations _).2 h.relations, pure_eq_ok.2 ?_⟩
    have hcolumns : e.columns = d.allColumns := by
      rw [h.columns]
      simp only [EntityDecl.allColumns, List.contains_iff_mem]
    rw [← h.name, ← h.table, ← h.primaryKey, ← hcolumns]

/-- The entities of a built catalog are those that are declared. -/
theorem isEntity_of_build (h : build decls = .ok c) :
    List.Forall₂ (IsEntity decls) decls c.entities :=
  (mapM_eq_ok.1 (mapM_of_build h)).imp fun _ _ =>
    (resolveEntity_eq_ok_iff (build_eq_ok.1 h).1).1

theorem nodup_columns_of_build (h : build decls = .ok c) (hdecls : ∀ d ∈ decls, d.columns.Nodup) :
    ∀ e ∈ c.entities, e.columns.Nodup := by
  intro e he
  obtain ⟨d, hd, hde⟩ := exists_mem_of_mapM_eq_ok (mapM_of_build h) he
  exact ((resolveEntity_eq_ok_iff (build_eq_ok.1 h).1).1 hde).nodup_columns_iff.2 (hdecls d hd)

/-- Declarations of which a catalog is built are consistent. -/
theorem isConsistent_of_build (h : build decls = .ok c) : IsConsistent decls := by
  obtain ⟨hnames, hentities, hchecks⟩ := build_eq_ok.1 h
  refine ⟨hnames, fun d hd s hs => ?_⟩
  obtain ⟨e, he, hresolved⟩ := exists_of_mem_of_mapM_eq_ok hentities hd
  obtain ⟨r, hr, hrelation⟩ :=
    exists_of_mem_of_mapM_eq_ok (mapM_of_resolveEntity hresolved) hs
  obtain ⟨t, ht, hname, hsr⟩ := (resolveRelation_eq_ok hnames).1 hrelation
  obtain ⟨howner, t', ht', htarget⟩ := checkRelation_eq_ok.1 (hchecks e he r hr)
  -- The entity that the check finds is the one that is declared by `t`.
  obtain ⟨u, hu, htu⟩ := exists_of_mem_of_mapM_eq_ok hentities ht
  have hentity := (resolveEntity_eq_ok_iff hnames).1 htu
  have hfound : c.entity r.target = .ok u :=
    (entity_eq_ok_iff (nodup_of_build h)).2 ⟨hu, by rw [hentity.name, hname, hsr.target]⟩
  obtain rfl := Except.ok.inj (ht'.symm.trans hfound)
  exact ⟨t, ht, hname, r, hsr,
    ((resolveEntity_eq_ok_iff hnames).1 hresolved).mem_columns.1 howner,
    hentity.mem_columns.1 htarget⟩

/-- Of consistent declarations a catalog is built. -/
theorem exists_build (h : IsConsistent decls) : ∃ c, build decls = .ok c := by
  have hrelations : ∀ d ∈ decls, ∃ rs, d.relations.mapM (resolveRelation decls d) = .ok rs := by
    refine fun d hd => exists_mapM_eq_ok fun s hs => ?_
    obtain ⟨t, ht, hname, r, hr, -⟩ := h.relations d hd s hs
    exact ⟨r, (resolveRelation_eq_ok h.names).2 ⟨t, ht, hname, hr⟩⟩
  obtain ⟨es, hes⟩ : ∃ es, decls.mapM (resolveEntity decls) = .ok es := by
    refine exists_mapM_eq_ok fun d hd => ?_
    obtain ⟨rs, hrs⟩ := hrelations d hd
    exact ⟨_, bind_eq_ok.2 ⟨rs, hrs, rfl⟩⟩
  refine ⟨{ entities := es }, build_eq_ok.2 ⟨h.names, hes, fun e he r hr => ?_⟩⟩
  obtain ⟨d, hd, hresolved⟩ := exists_mem_of_mapM_eq_ok hes he
  obtain ⟨s, hs, hrelation⟩ := exists_mem_of_mapM_eq_ok (mapM_of_resolveEntity hresolved) hr
  obtain ⟨t, ht, hname, r', hr', howner, htarget⟩ := h.relations d hd s hs
  obtain rfl : r = r' := Except.ok.inj
    (hrelation.symm.trans ((resolveRelation_eq_ok h.names).2 ⟨t, ht, hname, hr'⟩))
  obtain ⟨u, hu, htu⟩ := exists_of_mem_of_mapM_eq_ok hes ht
  have hentity := (resolveEntity_eq_ok_iff h.names).1 htu
  have hes_names : (es.map Entity.name).Nodup := map_name_of_mapM hes ▸ h.names
  refine checkRelation_eq_ok.2 ⟨?_, u, ?_, hentity.mem_columns.2 htarget⟩
  · exact ((resolveEntity_eq_ok_iff h.names).1 hresolved).mem_columns.2 howner
  · exact (entity_eq_ok_iff hes_names).2 ⟨hu, by rw [hentity.name, hname, hr'.target]⟩

/-! ### The order of declarations -/

theorem IsConsistent.perm (h : IsConsistent decls) (hperm : decls'.Perm decls) :
    IsConsistent decls' := by
  refine ⟨(hperm.map _).nodup_iff.2 h.names, fun d hd s hs => ?_⟩
  obtain ⟨t, ht, hrest⟩ := h.relations d (hperm.mem_iff.1 hd) s hs
  exact ⟨t, hperm.mem_iff.2 ht, hrest⟩

theorem IsEntity.perm (h : IsEntity decls d e) (hperm : decls'.Perm decls) :
    IsEntity decls' d e := by
  refine ⟨h.name, h.table, h.primaryKey, h.columns, h.relations.imp fun s r => ?_⟩
  rintro ⟨t, ht, hr⟩
  exact ⟨t, hperm.mem_iff.2 ht, hr⟩

/-- Declarations in another order make the same entities, in that order. -/
theorem entities_perm (hperm : decls'.Perm decls) (h : build decls = .ok c)
    (h' : build decls' = .ok c') : c'.entities.Perm c.entities := by
  obtain ⟨es, hes, hesperm⟩ := List.perm_comp_forall₂ hperm (isEntity_of_build h)
  have hnames := (build_eq_ok.1 h').1
  have hes' : decls'.mapM (resolveEntity decls') = .ok es :=
    mapM_eq_ok.2 (hes.imp fun _ _ hde => (resolveEntity_eq_ok_iff hnames).2 (hde.perm hperm))
  obtain rfl := Except.ok.inj ((mapM_of_build h').symm.trans hes')
  exact hesperm

/-- A catalog is built of just the consistent declarations. Its entities are the declared ones, each
    with its primary key among its columns. These are distinct just if they were declared so, as
    they are step by step. Declarations in another order are consistent just if these are, and make
    the same entities in that order, which are found by the same names. -/
theorem isDeclared_of_build (decls : List EntityDecl) :
    ((∃ c, build decls = .ok c) ↔ IsConsistent decls) ∧
    (∀ c, build decls = .ok c →
      List.Forall₂ (fun d e => IsEntity decls d e ∧ (e.columns.Nodup ↔ d.columns.Nodup))
        decls c.entities ∧
      (∀ e ∈ c.entities, e.primaryKey ∈ e.columns) ∧
      ((∀ d ∈ decls, d.IsMade) → ∀ e ∈ c.entities, e.columns.Nodup)) ∧
    ∀ decls' : List EntityDecl, decls'.Perm decls →
      ((∃ c, build decls' = .ok c) ↔ ∃ c, build decls = .ok c) ∧
      ∀ c c', build decls = .ok c → build decls' = .ok c' →
        c'.entities.Perm c.entities ∧ ∀ name, c'.entity? name = c.entity? name := by
  have hiff : ∀ decls, (∃ c, build decls = .ok c) ↔ IsConsistent decls :=
    fun decls => ⟨fun ⟨_, h⟩ => isConsistent_of_build h, exists_build⟩
  refine ⟨hiff decls, fun c h => ⟨?_, (isSound_of_build h).primaryKey_mem, ?_⟩,
    fun decls' hperm => ⟨?_, fun c c' h h' => ⟨entities_perm hperm h h', fun name => ?_⟩⟩⟩
  · exact (isEntity_of_build h).imp fun d e hde => ⟨hde, hde.nodup_columns_iff⟩
  · exact fun hmade => nodup_columns_of_build h fun d hd => (hmade d hd).nodup_columns
  · rw [hiff, hiff]
    exact ⟨fun h => h.perm hperm.symm, fun h => h.perm hperm⟩
  · refine Option.ext fun e => ?_
    rw [entity?, find?_key_eq_some_iff (nodup_of_build h'), entity?,
      find?_key_eq_some_iff (nodup_of_build h), (entities_perm hperm h h').mem_iff]

/-! ### Teams and their members -/

/-- A team is led by one person and has many as its members. -/
def teamDecl : EntityDecl :=
  ((({ name := "Team", table := "teams", primaryKey := "slug" } : EntityDecl).addColumns
    ["label", "lead_id", "label"]).addRelation
      { name := "lead", target := "Person", cardinality := .one, owning := true }).addRelation
        (RelationDecl.hasMany "members" "Person" "team_slug")

/-- A person is in one team. -/
def personDecl : EntityDecl :=
  (({ name := "Person", table := "people" } : EntityDecl).addColumns ["team_slug"]).addRelation
    (RelationDecl.manyToOne "team" "Team" "team_slug")

/-- Teams and persons lead to each other, whichever is declared first. -/
theorem isDeclared_of_build_teams : ∃ c c',
    build [teamDecl, personDecl] = .ok c ∧ build [personDecl, teamDecl] = .ok c' ∧
    IsConsistent [teamDecl, personDecl] ∧ c'.entities.Perm c.entities ∧
    (∀ e ∈ c.entities, e.columns.Nodup) ∧
    c.entities.map Entity.columns = [["slug", "label", "lead_id"], ["id", "team_slug"]] ∧
    c.entities.map (fun e => e.relations.map fun r => (r.ownerColumn, r.targetColumn)) =
      [[("lead_id", "id"), ("slug", "team_slug")], [("team_slug", "slug")]] := by
  obtain ⟨c, hc, hcolumns, hrelations⟩ : ∃ c, build [teamDecl, personDecl] = .ok c ∧
      c.entities.map Entity.columns = [["slug", "label", "lead_id"], ["id", "team_slug"]] ∧
      c.entities.map (fun e => e.relations.map fun r => (r.ownerColumn, r.targetColumn)) =
        [[("lead_id", "id"), ("slug", "team_slug")], [("team_slug", "slug")]] :=
    ⟨_, rfl, rfl, rfl⟩
  have hmade : ∀ d ∈ [teamDecl, personDecl], d.IsMade := by
    refine List.forall_mem_cons.2 ⟨?_, List.forall_mem_singleton.2 ?_⟩
    · exact .relation _ (.relation _ (.columns _ (.primaryKey "slug" (.new "Team" "teams"))))
    · exact .relation _ (.columns _ (.new "Person" "people"))
  obtain ⟨hiff, hbuilt, hperm⟩ := isDeclared_of_build [teamDecl, personDecl]
  obtain ⟨hother, hsame⟩ := hperm [personDecl, teamDecl] (.swap _ _ _)
  obtain ⟨c', hc'⟩ := hother.2 ⟨c, hc⟩
  exact ⟨c, c', hc, hc', hiff.1 ⟨c, hc⟩, (hsame c c' hc hc').1, (hbuilt c hc).2.2 hmade,
    hcolumns, hrelations⟩

/-! ### Tags -/

/-- A tag whose label is declared twice. -/
def tagDecl : EntityDecl :=
  { name := "Tag", table := "tags", columns := ["id", "label", "label"] }

/-- The catalog of tags. -/
def tagCatalog : Catalog :=
  { entities := [{ name := "Tag", table := "tags", primaryKey := "id",
                   columns := ["id", "label", "label"], relations := [] }] }

/-- A catalog is built of tags, which have a column twice. -/
theorem repeated_column_tags :
    build [tagDecl] = .ok tagCatalog ∧ ¬∀ e ∈ tagCatalog.entities, e.columns.Nodup :=
  ⟨rfl, by decide⟩

end Catalog

end EntityFetch
