import EntityFetch.Graph
import EntityFetch.Proofs.Catalog
import EntityFetch.Proofs.Path

/-!
# The addresses of relations

A chain of relations from an entity on, each of the entity to which the one before
leads (`Catalog.IsChain`), is addressed by the dotted text of its names. Requested
paths, overrides and the owners of what follows are all found by such texts. A
catalog puts no condition on names, though: the text of a chain gives its names back
if and only if a path can hold each of them (`Catalog.addresses_iff`). Two chains
have the same text if and only if their names have the same parts between dots.
-/

namespace EntityFetch

/-- The dotted text of a chain of relations. -/
def address (rs : List Relation) : String :=
  dotted (rs.map Relation.name)

namespace Catalog

variable {c : Catalog} {e : Entity} {rs rs' : List Relation}

/-- Relations that follow each other from an entity on: each is the one of its name
    of the entity to which the one before leads. -/
def IsChain (c : Catalog) : Entity → List Relation → Prop
  | _, [] => True
  | e, r :: rs =>
    e.relation? r.name = some r ∧ ∃ t, c.entity r.target = .ok t ∧ c.IsChain t rs

/-- A chain is found by its names. -/
theorem IsChain.eq_of_names (h : c.IsChain e rs) (h' : c.IsChain e rs')
    (hnames : rs.map Relation.name = rs'.map Relation.name) : rs = rs' := by
  induction rs generalizing e rs' with
  | nil => exact (List.map_eq_nil_iff.1 hnames.symm).symm
  | cons r rs ih =>
    cases rs' with
    | nil => exact nomatch hnames
    | cons r' rs' =>
      obtain ⟨hr, t, ht, hrs⟩ := h
      obtain ⟨hr', t', ht', hrs'⟩ := h'
      obtain ⟨hname, hrest⟩ := List.cons.inj hnames
      obtain rfl : r = r' := Option.some.inj (hr.symm.trans (hname ▸ hr'))
      obtain rfl : t = t' := Except.ok.inj (ht.symm.trans ht')
      rw [ih hrs hrs' hrest]

/-- The relations of a chain are among those of the catalog. -/
theorem IsChain.exists_entity (h : c.IsChain e rs) (he : e ∈ c.entities) :
    ∀ r ∈ rs, ∃ e ∈ c.entities, r ∈ e.relations := by
  induction rs generalizing e with
  | nil => simp
  | cons r rs ih =>
    obtain ⟨hr, t, ht, hrs⟩ := h
    rw [List.forall_mem_cons]
    exact ⟨⟨e, he, List.mem_of_find?_eq_some hr⟩, ih hrs (entity_eq_ok ht).1⟩

/-- Every name of a relation is that of a chain by itself. -/
theorem IsSound.exists_isChain (hc : c.IsSound) (he : e ∈ c.entities) {r : Relation}
    (hr : r ∈ e.relations) : ∃ r', c.IsChain e [r'] ∧ r'.name = r.name := by
  -- The relation itself may stand behind another one of the same name.
  obtain ⟨r', hr'⟩ : ∃ r', e.relation? r.name = some r' :=
    Option.isSome_iff_exists.1 (List.find?_isSome.2 ⟨r, hr, beq_self_eq_true _⟩)
  have hname : r'.name = r.name := by simpa using List.find?_some hr'
  obtain ⟨t, ht⟩ := hc.target e he r' (List.mem_of_find?_eq_some hr')
  exact ⟨r', ⟨hname ▸ hr', t, ht, trivial⟩, hname⟩

/-- Chains with one address have names with the same parts, and the other way round. -/
theorem address_eq_iff (hne : rs ≠ []) (hne' : rs' ≠ []) : address rs = address rs' ↔
    rs.flatMap (Text.split '.' ·.name) = rs'.flatMap (Text.split '.' ·.name) := by
  have hsplit : ∀ {rs : List Relation}, rs ≠ [] →
      Text.split '.' (address rs) = rs.flatMap (Text.split '.' ·.name) := fun hne => by
    rw [address, split_dotted_eq (by simpa using hne), List.flatMap_map]
  rw [← hsplit hne, ← hsplit hne']
  exact ⟨congrArg _, fun h => by rw [← dotted_split (address rs), h, dotted_split]⟩

/-- The chains of a catalog and their addresses. The names of a chain are parsed back
    from its address if and only if a path can hold them, and found by cutting it at
    its dots if and only if they have no dots; a catalog that was built gives back all
    its chains if and only if a path can hold every name that was declared. Two chains
    have one address if and only if their names have the same parts, and chains of
    names without dots are told apart by their addresses. -/
theorem addresses_iff {decls : List EntityDecl} (hbuild : build decls = .ok c) :
    (∀ e ∈ c.entities, ∀ rs, c.IsChain e rs → rs ≠ [] →
      (RelationPath.parse (address rs) = .ok ⟨rs.map Relation.name⟩ ↔
        ∀ r ∈ rs, IsSegment r.name) ∧
      (Text.split '.' (address rs) = rs.map Relation.name ↔ ∀ r ∈ rs, IsDotFree r.name)) ∧
    ((∀ e ∈ c.entities, ∀ rs, c.IsChain e rs → rs ≠ [] →
        RelationPath.parse (address rs) = .ok ⟨rs.map Relation.name⟩) ↔
      ∀ d ∈ decls, ∀ s ∈ d.relations, IsSegment s.name) ∧
    (∀ e ∈ c.entities, ∀ rs rs', c.IsChain e rs → c.IsChain e rs' → rs ≠ [] → rs' ≠ [] →
      (address rs = address rs' ↔
        rs.flatMap (Text.split '.' ·.name) = rs'.flatMap (Text.split '.' ·.name)) ∧
      ((∀ r ∈ rs ++ rs', IsDotFree r.name) → address rs = address rs' → rs = rs')) := by
  have hc := isSound_of_build hbuild
  have hparse : ∀ {rs : List Relation}, rs ≠ [] →
      (RelationPath.parse (address rs) = .ok ⟨rs.map Relation.name⟩ ↔
        ∀ r ∈ rs, IsSegment r.name) := fun hne => by
    rw [address, RelationPath.parse_dotted_iff (by simpa using hne), List.forall_mem_map]
  refine ⟨fun e he rs hrs hne => ⟨hparse hne, ?_⟩, ⟨fun h d hd s hs => ?_, ?_⟩,
    fun e he rs rs' hrs hrs' hne hne' => ⟨address_eq_iff hne hne', fun hdot heq => ?_⟩⟩
  · rw [address, split_dotted_iff (by simpa using hne), List.forall_mem_map]
  · -- Already the chain of one relation shows that a path can hold its name.
    obtain ⟨e, he, r, hr, hname⟩ := exists_relation_of_build hbuild hd hs
    obtain ⟨r', hchain, hname'⟩ := hc.exists_isChain he hr
    have hsegment := (hparse (List.cons_ne_nil _ _)).1 (h e he [r'] hchain (List.cons_ne_nil _ _))
    exact hname ▸ hname' ▸ hsegment r' List.mem_cons_self
  · intro hdecls e he rs hrs hne
    refine (hparse hne).2 fun r hr => ?_
    obtain ⟨e', he', hr'⟩ := hrs.exists_entity he r hr
    obtain ⟨d, hd, s, hs, hname⟩ := exists_decl_of_build hbuild he' hr'
    exact hname ▸ hdecls d hd s hs
  · refine hrs.eq_of_names hrs' (dotted_inj (by simpa using hne) (by simpa using hne') ?_ ?_ heq)
    · exact List.forall_mem_map.2 fun r hr => hdot r (List.mem_append_left _ hr)
    · exact List.forall_mem_map.2 fun r hr => hdot r (List.mem_append_right _ hr)

end Catalog

/-! ### Names with dots -/

/-- Posts, with the team that reviews them under a name that has a dot, and their
    authors, who are in teams. -/
def reviewDecls : List EntityDecl :=
  [{ name := "Post", table := "posts", columns := ["id", "team_id", "author_id"]
     relations :=
       [{ RelationDecl.manyToOne "author.team" "Team" "team_id" with eager := true },
        { RelationDecl.manyToOne "author" "User" "author_id" with eager := true }] },
   { name := "User", table := "users", columns := ["id", "team_id"]
     relations := [{ RelationDecl.manyToOne "team" "Team" "team_id" with eager := true }] },
   { name := "Team", table := "teams", columns := ["id"] }]

/-- An eager relation to one entity by a foreign key on the owner. -/
def eagerRelation (name owner target ownerColumn : String) : Relation :=
  { name, owner, target, cardinality := .one, nullable := false, eager := true
    strategy := none, owning := true, ownerColumn, targetColumn := "id" }

/-- The posts of the catalog of posts, users and teams. -/
def reviewPost : Entity :=
  { name := "Post", table := "posts", primaryKey := "id"
    columns := ["id", "team_id", "author_id"]
    relations :=
      [eagerRelation "author.team" "Post" "Team" "team_id",
       eagerRelation "author" "Post" "User" "author_id"] }

/-- The catalog of posts, users and teams. -/
def reviewCatalog : Catalog :=
  { entities :=
      [reviewPost,
       { name := "User", table := "users", primaryKey := "id", columns := ["id", "team_id"]
         relations := [eagerRelation "team" "User" "Team" "team_id"] },
       { name := "Team", table := "teams", primaryKey := "id", columns := ["id"]
         relations := [] }] }

namespace Catalog

/-- A path cannot hold the name with a dot, so that not all chains are parsed back. -/
theorem addresses_iff_reviews :
    build reviewDecls = .ok reviewCatalog ∧
      ¬∀ e ∈ reviewCatalog.entities, ∀ rs, reviewCatalog.IsChain e rs → rs ≠ [] →
        RelationPath.parse (address rs) = .ok ⟨rs.map Relation.name⟩ := by
  have hbuild : build reviewDecls = .ok reviewCatalog := rfl
  refine ⟨hbuild, fun h => ?_⟩
  have hsegment := (addresses_iff hbuild).2.1.1 h _ List.mem_cons_self _ List.mem_cons_self
  exact hsegment.2.1 (by decide)

/-- Two chains of one catalog have the same address, from which the names of the first
    are not parsed back. The team of the author is then left out of what is loaded with
    a post, as if it were there already. -/
theorem shared_address_reviews :
    build reviewDecls = .ok reviewCatalog ∧ reviewPost ∈ reviewCatalog.entities ∧
      ∃ rs rs', reviewCatalog.IsChain reviewPost rs ∧ reviewCatalog.IsChain reviewPost rs' ∧
        rs ≠ rs' ∧ address rs = address rs' ∧
        RelationPath.parse (address rs) ≠ .ok ⟨rs.map Relation.name⟩ ∧
        ∃ g, Graph.resolve reviewCatalog 4 "Post" [] = .ok g ∧
          rs ∈ g.nodes.map Node.chain ∧ rs' ∉ g.nodes.map Node.chain := by
  refine ⟨rfl, List.mem_cons_self, [eagerRelation "author.team" "Post" "Team" "team_id"],
    [eagerRelation "author" "Post" "User" "author_id",
     eagerRelation "team" "User" "Team" "team_id"],
    ⟨rfl, _, rfl, trivial⟩, ⟨rfl, _, rfl, rfl, _, rfl, trivial⟩, by decide, by decide, ?_,
    _, rfl, by decide, by decide⟩
  intro h
  exact absurd (congrArg (fun p => p.toOption.map RelationPath.segments) h) (by decide)

end Catalog

end EntityFetch
