import EntityFetch.Proofs.Address
import EntityFetch.Proofs.Graph

/-!
# Chains of relations

An entity has every relation under a name of its own (`Catalog.HasDistinctNames`). Then a
chain goes on from the entity at which it ends (`Catalog.EndsAt`) by each of its relations
(`Catalog.isChain_concat_iff`), and the way from the root to a node of a relation graph is a
chain (`Graph.IsTree.isChain`).
-/

namespace EntityFetch

namespace Catalog

variable {c : Catalog} {e t : Entity} {r : Relation} {rs : List Relation}

/-- Whether every entity has its relations under names of their own. -/
def HasDistinctNames (c : Catalog) : Prop :=
  ∀ e ∈ c.entities, (e.relations.map Relation.name).Nodup

/-- The names are as distinct as they were declared. -/
theorem hasDistinctNames_of_build {decls : List EntityDecl} (h : build decls = .ok c)
    (hdecls : ∀ d ∈ decls, (d.relations.map RelationDecl.name).Nodup) : c.HasDistinctNames := by
  intro e he
  obtain ⟨d, hd, hresolve⟩ := exists_mem_of_mapM_eq_ok (mapM_of_build h) he
  have hnames : e.relations.map Relation.name = d.relations.map RelationDecl.name :=
    map_eq_map_of_forall₂ (mapM_eq_ok.1 (mapM_of_resolveEntity hresolve))
      fun _ _ _ hr => name_of_resolveRelation hr
  exact hnames ▸ hdecls d hd

/-- A relation of an entity is the one of its name. -/
theorem HasDistinctNames.relation?_eq (h : c.HasDistinctNames) (he : e ∈ c.entities)
    (hr : r ∈ e.relations) : e.relation? r.name = some r :=
  find?_key_eq_some (h e he) hr

/-- Whether no relation has a name with dots. -/
def HasDotFreeNames (c : Catalog) : Prop :=
  ∀ e ∈ c.entities, ∀ r ∈ e.relations, IsDotFree r.name

theorem hasDotFreeNames_of_build {decls : List EntityDecl} (h : build decls = .ok c)
    (hdecls : ∀ d ∈ decls, ∀ s ∈ d.relations, IsDotFree s.name) : c.HasDotFreeNames := by
  intro e he r hr
  obtain ⟨d, hd, s, hs, hname⟩ := exists_decl_of_build h he hr
  exact hname ▸ hdecls d hd s hs

/-- Without dots in names, a chain is found by its address. -/
theorem HasDotFreeNames.eq_of_address {rs' : List Relation} (h : c.HasDotFreeNames)
    (he : e ∈ c.entities) (hrs : c.IsChain e rs) (hrs' : c.IsChain e rs') (hne : rs ≠ [])
    (hne' : rs' ≠ []) (haddress : address rs = address rs') : rs = rs' := by
  have hdot : ∀ {rs : List Relation}, c.IsChain e rs →
      ∀ name ∈ rs.map Relation.name, IsDotFree name := fun hrs =>
    List.forall_mem_map.2 fun r hr => by
      obtain ⟨t, ht, hr⟩ := hrs.exists_entity he r hr
      exact h t ht r hr
  exact hrs.eq_of_names hrs' (dotted_inj (by simpa using hne) (by simpa using hne') (hdot hrs)
    (hdot hrs') haddress)

/-- The entity at which a chain ends that starts at another one. -/
def EndsAt (c : Catalog) : Entity → List Relation → Entity → Prop
  | e, [], t => t = e
  | _, r :: rs, t => ∃ u, c.entity r.target = .ok u ∧ c.EndsAt u rs t

/-- A chain ends where its last relation leads. -/
theorem EndsAt.entity_target (h : c.EndsAt e (rs ++ [r]) t) : c.entity r.target = .ok t := by
  induction rs generalizing e with
  | nil =>
    obtain ⟨u, hu, rfl⟩ := h
    exact hu
  | cons s rs ih =>
    obtain ⟨u, -, h⟩ := h
    exact ih h

/-- A chain goes on by a relation of the entity at which it ends. -/
theorem isChain_concat_iff : c.IsChain e (rs ++ [r]) ↔
    ∃ t, c.IsChain e rs ∧ c.EndsAt e rs t ∧ t.relation? r.name = some r ∧
      ∃ u, c.entity r.target = .ok u := by
  induction rs generalizing e with
  | nil =>
    constructor
    · rintro ⟨hr, u, hu, -⟩
      exact ⟨e, trivial, rfl, hr, u, hu⟩
    · rintro ⟨_, -, rfl, hr, u, hu⟩
      exact ⟨hr, u, hu, trivial⟩
  | cons s rs ih =>
    constructor
    · rintro ⟨hs, u, hu, hrs⟩
      obtain ⟨t, hchain, hend, hr⟩ := ih.1 hrs
      exact ⟨t, ⟨hs, u, hu, hchain⟩, ⟨u, hu, hend⟩, hr⟩
    · rintro ⟨t, ⟨hs, u, hu, hchain⟩, ⟨u', hu', hend⟩, hr⟩
      obtain rfl := Except.ok.inj (hu.symm.trans hu')
      exact ⟨hs, u, hu, ih.2 ⟨t, hchain, hend, hr⟩⟩

/-- A chain that goes on ends at the entity to which its last relation leads. -/
theorem IsChain.endsAt (h : c.IsChain e (rs ++ [r])) (ht : c.entity r.target = .ok t) :
    c.EndsAt e (rs ++ [r]) t := by
  induction rs generalizing e with
  | nil => exact ⟨t, ht, rfl⟩
  | cons s rs ih =>
    obtain ⟨-, u, hu, h⟩ := h
    exact ⟨u, hu, ih h⟩

/-- The start of a chain is a chain. -/
theorem IsChain.of_append {rs' : List Relation} (h : c.IsChain e (rs ++ rs')) : c.IsChain e rs := by
  induction rs generalizing e with
  | nil => trivial
  | cons s rs ih =>
    obtain ⟨hs, u, hu, h⟩ := h
    exact ⟨hs, u, hu, ih h⟩

end Catalog

namespace Graph

variable {c : Catalog} {e : Entity} {nodes : List Node}

/-- The way from the root to a node is a chain. -/
theorem IsTree.isChain (h : IsTree IsOwned c e nodes) (he : e ∈ c.entities) (hc : c.IsSound)
    (hnames : c.HasDistinctNames) : ∀ n ∈ nodes, c.IsChain e n.chain := by
  refine h.induct fun n _ parent hp ih => ?_
  obtain ⟨t, ht, hr⟩ := hp.relation
  have htmem : t ∈ c.entities := by
    cases parent with
    | none =>
      obtain rfl : t = e := ht
      exact he
    | some m => exact (Catalog.entity_eq_ok ht).1
  -- As names are distinct, following the name finds this relation and no other.
  have hrelation := hnames.relation?_eq htmem hr
  rw [Node.chain, hp.ancestors_eq, Catalog.isChain_concat_iff]
  refine ⟨t, ?_, ?_, hrelation, hc.target t htmem _ hr⟩
  · cases parent with
    | none => trivial
    | some m => exact ih m rfl
  · cases parent with
    | none => exact ht
    | some m => exact (ih m rfl).endsAt ht

end Graph

end EntityFetch
