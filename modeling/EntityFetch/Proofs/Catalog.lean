import EntityFetch.Catalog
import EntityFetch.Proofs.Success

/-!
# Built catalogs

What building a catalog settles for good (`Catalog.IsSound`): entities are told
apart by their names, the primary key of an entity is one of its columns, and every
relation leads from a column of its owner to a column of an entity of the catalog.
Nothing of this is checked again when a fetch is planned.
-/

namespace EntityFetch

namespace Catalog

/-- What holds of a catalog that was built. -/
structure IsSound (c : Catalog) : Prop where
  entity_name : ∀ e ∈ c.entities, c.entity e.name = .ok e
  primaryKey_mem : ∀ e ∈ c.entities, e.primaryKey ∈ e.columns
  owner_eq : ∀ e ∈ c.entities, ∀ r ∈ e.relations, r.owner = e.name
  ownerColumn_mem : ∀ e ∈ c.entities, ∀ r ∈ e.relations, r.ownerColumn ∈ e.columns
  targetColumn_mem : ∀ e ∈ c.entities, ∀ r ∈ e.relations, ∀ t, c.entity r.target = .ok t →
    r.targetColumn ∈ t.columns
  target : ∀ e ∈ c.entities, ∀ r ∈ e.relations, ∃ t, c.entity r.target = .ok t

/-- An entity that is found is in the catalog and has the name it was found by. -/
theorem entity_eq_ok {c : Catalog} {name : String} {e : Entity} (h : c.entity name = .ok e) :
    e ∈ c.entities ∧ e.name = name := by
  unfold entity entity? at h
  split at h
  · next e' he =>
    obtain rfl := Except.ok.inj h
    exact ⟨List.mem_of_find?_eq_some he, by simpa using List.find?_some he⟩
  · exact nomatch h

/-- In a list with distinct keys each element is found by its key. -/
theorem find?_key_eq_some {α : Type} {key : α → String} {as : List α} (h : (as.map key).Nodup)
    {a : α} (ha : a ∈ as) : as.find? (key · == key a) = some a := by
  induction as with
  | nil => exact absurd ha List.not_mem_nil
  | cons b as ih =>
    rw [List.map_cons, List.nodup_cons] at h
    rcases List.mem_cons.1 ha with rfl | ha'
    · simp
    · have hne : (key b == key a) = false := by
        rw [beq_eq_false_iff_ne]
        exact fun heq => h.1 (heq ▸ List.mem_map_of_mem ha')
      rw [List.find?_cons, hne]
      exact ih h.2 ha'

/-- In a list with distinct keys an element is found just by its key. -/
theorem find?_key_eq_some_iff {α : Type} {key : α → String} {as : List α}
    (h : (as.map key).Nodup) {a : α} {name : String} :
    as.find? (key · == name) = some a ↔ a ∈ as ∧ key a = name := by
  constructor
  · exact fun ha => ⟨List.mem_of_find?_eq_some ha, by simpa using List.find?_some ha⟩
  · rintro ⟨ha, rfl⟩
    exact find?_key_eq_some h ha

/-- Names pass the check if they are distinct and none has been seen. -/
theorem checkNames_eq_ok {seen : List String} {decls : List EntityDecl} :
    checkNames seen decls = .ok () ↔
      (decls.map EntityDecl.name).Nodup ∧ ∀ d ∈ decls, d.name ∉ seen := by
  induction decls generalizing seen with
  | nil => exact ⟨fun _ => ⟨List.nodup_nil, nofun⟩, fun _ => rfl⟩
  | cons d decls ih =>
    rw [checkNames, List.map_cons, List.nodup_cons, List.forall_mem_cons]
    split
    · next hd =>
      rw [List.contains_iff_mem] at hd
      exact ⟨nofun, fun h => absurd hd h.2.1⟩
    · next hd =>
      rw [List.contains_iff_mem] at hd
      have hnew : (∀ d' ∈ decls, d'.name ∉ d.name :: seen) ↔
          d.name ∉ decls.map EntityDecl.name ∧ ∀ d' ∈ decls, d'.name ∉ seen := by
        simp only [List.mem_cons, not_or, forall_and, List.mem_map, not_exists, not_and]
      rw [ih, hnew]
      tauto

/-- The primary key is always one of the columns. -/
theorem primaryKey_mem_allColumns (d : EntityDecl) : d.primaryKey ∈ d.allColumns := by
  unfold EntityDecl.allColumns
  split
  · next h => exact List.contains_iff_mem.1 h
  · exact List.mem_cons_self

/-- What a resolved relation has of its owner. -/
theorem owner_of_resolveRelation {decls : List EntityDecl} {d : EntityDecl} {s : RelationDecl}
    {r : Relation} (h : resolveRelation decls d s = .ok r) : r.owner = d.name := by
  unfold resolveRelation at h
  split at h
  · exact nomatch h
  · obtain rfl := Except.ok.inj h
    rfl

/-- What a resolved entity has of its declaration. -/
theorem resolveEntity_eq_ok {decls : List EntityDecl} {d : EntityDecl} {e : Entity}
    (h : resolveEntity decls d = .ok e) :
    e.name = d.name ∧ e.primaryKey ∈ e.columns ∧ ∀ r ∈ e.relations, r.owner = e.name := by
  unfold resolveEntity at h
  obtain ⟨rs, hrs, h⟩ := bind_eq_ok.1 h
  obtain rfl := pure_eq_ok.1 h
  refine ⟨rfl, primaryKey_mem_allColumns d, fun r hr => ?_⟩
  obtain ⟨s, -, hs⟩ := exists_mem_of_mapM_eq_ok hrs hr
  exact owner_of_resolveRelation hs

/-- The entities of a list have the names of their declarations. -/
theorem map_name_of_mapM {decls ds : List EntityDecl} {es : List Entity}
    (h : ds.mapM (resolveEntity decls) = .ok es) :
    es.map Entity.name = ds.map EntityDecl.name := by
  rw [mapM_eq_ok] at h
  induction h with
  | nil => rfl
  | cons hd _ ih => rw [List.map_cons, List.map_cons, ih, (resolveEntity_eq_ok hd).1]

/-- What the check of a relation says. -/
theorem checkRelation_eq_ok {c : Catalog} {e : Entity} {r : Relation} :
    checkRelation c e r = .ok () ↔
      r.ownerColumn ∈ e.columns ∧ ∃ t, c.entity r.target = .ok t ∧ r.targetColumn ∈ t.columns := by
  simp only [← List.contains_iff_mem]
  unfold checkRelation Entity.hasColumn
  split
  · next howner =>
    rw [and_iff_right howner, bind_eq_ok]
    refine exists_congr fun t => and_congr_right fun _ => ?_
    split
    · next htarget => exact iff_of_true rfl htarget
    · next htarget => exact iff_of_false nofun htarget
  · next howner => exact iff_of_false nofun fun h => howner h.1

/-- What a catalog that is built is, and of what it can be built. -/
theorem build_eq_ok {decls : List EntityDecl} {c : Catalog} : build decls = .ok c ↔
    (decls.map EntityDecl.name).Nodup ∧ decls.mapM (resolveEntity decls) = .ok c.entities ∧
      ∀ e ∈ c.entities, ∀ r ∈ e.relations, checkRelation c e r = .ok () := by
  constructor
  · intro h
    obtain ⟨_, hnames, h⟩ := bind_eq_ok.1 h
    obtain ⟨es, hes, h⟩ := bind_eq_ok.1 h
    obtain ⟨_, hchecks, h⟩ := bind_eq_ok.1 h
    obtain rfl := pure_eq_ok.1 h
    exact ⟨(checkNames_eq_ok.1 hnames).1, hes,
      fun e he => forM_eq_ok.1 (forM_eq_ok.1 hchecks e he)⟩
  · rintro ⟨hnames, hes, hchecks⟩
    refine bind_eq_ok.2 ⟨(), checkNames_eq_ok.2 ⟨hnames, fun _ _ => List.not_mem_nil⟩, ?_⟩
    refine bind_eq_ok.2 ⟨c.entities, hes, bind_eq_ok.2 ⟨⟨⟩, ?_, rfl⟩⟩
    exact forM_eq_ok.2 fun e he => forM_eq_ok.2 (hchecks e he)

/-- The entities of a built catalog are the declared ones, resolved. -/
theorem mapM_of_build {decls : List EntityDecl} {c : Catalog} (h : build decls = .ok c) :
    decls.mapM (resolveEntity decls) = .ok c.entities :=
  (build_eq_ok.1 h).2.1

/-- A built catalog has entities with distinct names. -/
theorem nodup_of_build {decls : List EntityDecl} {c : Catalog} (h : build decls = .ok c) :
    (c.entities.map Entity.name).Nodup :=
  map_name_of_mapM (mapM_of_build h) ▸ (build_eq_ok.1 h).1

/-- In a catalog whose names are distinct an entity is found by its name. -/
theorem entity_eq_ok_iff {c : Catalog} (hc : (c.entities.map Entity.name).Nodup) {name : String}
    {e : Entity} : c.entity name = .ok e ↔ e ∈ c.entities ∧ e.name = name := by
  refine ⟨entity_eq_ok, ?_⟩
  rintro ⟨he, rfl⟩
  rw [entity, entity?, find?_key_eq_some hc he]

/-- A built catalog is sound. -/
theorem isSound_of_build {decls : List EntityDecl} {c : Catalog} (h : build decls = .ok c) :
    c.IsSound := by
  have hresolved : ∀ e ∈ c.entities, ∃ d, resolveEntity decls d = .ok e := fun e he =>
    let ⟨d, _, hd⟩ := exists_mem_of_mapM_eq_ok (mapM_of_build h) he
    ⟨d, hd⟩
  -- What an entity has of its own is settled when its declaration is resolved, what its relations
  -- lead to when they are checked.
  have hchecked := fun e he r hr => checkRelation_eq_ok.1 ((build_eq_ok.1 h).2.2 e he r hr)
  constructor
  case entity_name => exact fun e he => (entity_eq_ok_iff (nodup_of_build h)).2 ⟨he, rfl⟩
  case primaryKey_mem =>
    intro e he
    obtain ⟨d, hd⟩ := hresolved e he
    exact (resolveEntity_eq_ok hd).2.1
  case owner_eq =>
    intro e he
    obtain ⟨d, hd⟩ := hresolved e he
    exact (resolveEntity_eq_ok hd).2.2
  case ownerColumn_mem => exact fun e he r hr => (hchecked e he r hr).1
  case targetColumn_mem =>
    intro e he r hr t ht
    obtain ⟨t', ht', hmem⟩ := (hchecked e he r hr).2
    obtain rfl := Except.ok.inj (ht.symm.trans ht')
    exact hmem
  case target =>
    intro e he r hr
    obtain ⟨t, ht, -⟩ := (hchecked e he r hr).2
    exact ⟨t, ht⟩

/-- A resolved relation has the name with which it was declared. -/
theorem name_of_resolveRelation {decls : List EntityDecl} {d : EntityDecl} {s : RelationDecl}
    {r : Relation} (h : resolveRelation decls d s = .ok r) : r.name = s.name := by
  simp only [resolveRelation] at h
  split at h
  · exact nomatch h
  · obtain rfl := Except.ok.inj h
    rfl

/-- The relations of a resolved entity are the declared ones, resolved. -/
theorem mapM_of_resolveEntity {decls : List EntityDecl} {d : EntityDecl} {e : Entity}
    (h : resolveEntity decls d = .ok e) :
    d.relations.mapM (resolveRelation decls d) = .ok e.relations := by
  obtain ⟨rs, hrs, h⟩ := bind_eq_ok.1 h
  obtain rfl := pure_eq_ok.1 h
  exact hrs

/-- The relations of a built catalog have the names of those that were declared. -/
theorem exists_decl_of_build {decls : List EntityDecl} {c : Catalog} (h : build decls = .ok c)
    {e : Entity} (he : e ∈ c.entities) {r : Relation} (hr : r ∈ e.relations) :
    ∃ d ∈ decls, ∃ s ∈ d.relations, s.name = r.name := by
  obtain ⟨d, hd, hresolve⟩ := exists_mem_of_mapM_eq_ok (mapM_of_build h) he
  obtain ⟨s, hs, hrelation⟩ := exists_mem_of_mapM_eq_ok (mapM_of_resolveEntity hresolve) hr
  exact ⟨d, hd, s, hs, (name_of_resolveRelation hrelation).symm⟩

/-- A relation that was declared is one of the built catalog. -/
theorem exists_relation_of_build {decls : List EntityDecl} {c : Catalog} (h : build decls = .ok c)
    {d : EntityDecl} (hd : d ∈ decls) {s : RelationDecl} (hs : s ∈ d.relations) :
    ∃ e ∈ c.entities, ∃ r ∈ e.relations, r.name = s.name := by
  obtain ⟨e, he, hresolve⟩ := exists_of_mem_of_mapM_eq_ok (mapM_of_build h) hd
  obtain ⟨r, hr, hrelation⟩ := exists_of_mem_of_mapM_eq_ok (mapM_of_resolveEntity hresolve) hs
  exact ⟨e, he, r, hr, name_of_resolveRelation hrelation⟩

end Catalog

end EntityFetch
