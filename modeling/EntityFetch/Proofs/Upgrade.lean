import EntityFetch.Proofs.Strategy

/-!
# What upgrading and the default for requests decide

A relation that is asked for and not joined by rule is joined in two ways: next to a relation
that is joined by rule, and then it is called upgraded, or by the default for what is asked
for. Both are settled by the groups of the plan.

* `StrategyDefaults.isFlagged_select`: what is upgraded is what can be, where a relation that is
  joined by rule starts at the root of the group. Where it is somewhere else in the group, what
  is asked for is not upgraded. This happens only if the way there leads through a relation that
  is joined by default (`unflagged_articles`).
* `StrategyDefaults.keepsDeclared_select`: a relation that is declared to have a statement of its
  own has one, unless it is asked for and either joined next to a relation that is joined by rule
  or by default. The default thus decides also where something is declared (`joined_articles`).
-/

namespace EntityFetch

namespace LoadPlan

variable {c : Catalog} {e : Entity} {d : StrategyDefaults} {p : LoadPlan} {r : PlannedRelation}

/-- When a relation is upgraded. -/
structure IsFlagged (d : StrategyDefaults) (p : LoadPlan) (r : PlannedRelation) : Prop where
  /-- There is one group that loads the owners of the relation. -/
  owners : ∃! k, p.LoadsAt k r.node.parent
  /-- What is joined is loaded by the same group as its owners. -/
  joined : r.strategy = .joined → p.LoadsAt r.group r.node.parent
  upgraded_iff : ∀ k, p.LoadsAt k r.node.parent →
    (r.upgraded = true ↔ IsUpgradable d r ∧ HasRuledChild d p k)
  /-- Any relation that is joined by rule counts if nothing is joined by default. -/
  upgraded_iff_hasRuled : d.populate = .selectIn → ∀ k, p.LoadsAt k r.node.parent →
    (r.upgraded = true ↔ IsUpgradable d r ∧ HasRuled d p k)

/-- How a relation is loaded to which a statement of its own is declared. -/
structure KeepsDeclared (d : StrategyDefaults) (p : LoadPlan) (r : PlannedRelation) : Prop where
  /-- There is one group that loads the owners of the relation. -/
  owners : ∃! k, p.LoadsAt k r.node.parent
  joined_iff : ∀ k, p.LoadsAt k r.node.parent →
    (r.strategy = .joined ↔ r.node.relation.cardinality = .one ∧ r.node.requested = true ∧
      (HasRuled d p k ∨ d.populate = .joined))
  /-- What is joined is loaded by the same group as its owners. -/
  joined : r.strategy = .joined → p.LoadsAt r.group r.node.parent
  /-- Otherwise it starts its own group. -/
  apart : r.strategy ≠ .joined →
    r.strategy = .selectIn ∧ groupRoot p.groups r.group = some r.node.id

namespace IsSelected

/-- What is joined is loaded by the group of its owners. -/
theorem loadsAt_group (h : p.IsSelected c e) (hr : r ∈ p.relations)
    (hjoined : r.strategy = .joined) : p.LoadsAt r.group r.node.parent :=
  (h.isGrouped.joined_of_owner r hr hjoined).1 ▸ h.loadsAt_ownerGroup hr

/-- Upgrading goes by the roots of the groups. -/
theorem isFlagged (h : p.IsSelected c e)
    (hchosen : d.IsChosen (d.joiningRoots p.nodes) p.relations p.groups)
    (hr : r ∈ p.relations) : IsFlagged d p r where
  owners := (h.followsRule hchosen hr).owners
  joined := h.loadsAt_group hr
  upgraded_iff k hk := by
    rw [hk.unique (h.loadsAt_ownerGroup hr)]
    exact h.upgraded_iff hchosen hr
  upgraded_iff_hasRuled hpopulate k hk := by
    rw [hk.unique (h.loadsAt_ownerGroup hr), ← h.hasRuledChild_iff hchosen hpopulate]
    exact h.upgraded_iff hchosen hr

/-- A declared statement is given up only for what is asked for. -/
theorem keepsDeclared (h : p.IsSelected c e)
    (hchosen : d.IsChosen (d.joiningRoots p.nodes) p.relations p.groups)
    (hr : r ∈ p.relations) (hdeclared : r.node.relation.strategy = some .selectIn) :
    KeepsDeclared d p r := by
  have hfollows := h.followsRule hchosen hr
  -- What is declared as a statement of its own is not joined by rule.
  have hrule : ¬d.JoinsByRule r.node.relation := by
    rintro ⟨-, hs | ⟨hs, -⟩⟩ <;> cases hdeclared.symm.trans hs
  constructor
  case owners => exact hfollows.owners
  case joined => exact h.loadsAt_group hr
  case joined_iff =>
    intro k hk
    constructor
    · intro hjoined
      have hone := (h.isGrouped.joined_of_owner r hr hjoined).2
      have hrequested : r.node.requested = true := by
        by_contra hnot
        have hapart := hfollows.unrequested hone hrule (Bool.eq_false_iff.2 hnot)
        cases hjoined.symm.trans hapart
      refine ⟨hone, hrequested, or_iff_not_imp_left.2 fun hnone => ?_⟩
      exact ((hfollows.requested hone hrule hrequested k hk).2 hnone).symm.trans hjoined
    · rintro ⟨hone, hrequested, hruled⟩
      obtain ⟨hnext, hdefault⟩ := hfollows.requested hone hrule hrequested k hk
      by_cases hnone : HasRuled d p k
      · exact hnext hnone
      · exact (hdefault hnone).trans (hruled.resolve_left hnone)
  case apart =>
    intro hnot
    cases hs : r.strategy with
    | joined => exact absurd hs hnot
    | selectIn => exact ⟨rfl, h.isGrouped.root_of_selectIn r hr hs⟩

end IsSelected

end LoadPlan

/-! ### Articles -/

/-- Articles with their authors, to whom a team is joined by declaration, and their sections,
    to which a statement of their own is declared. -/
def articleDecls : List EntityDecl :=
  [{ name := "Article", table := "articles", columns := ["id", "author_id", "section_id"]
     relations :=
       [{ RelationDecl.manyToOne "author" "User" "author_id" with eager := true },
        { RelationDecl.manyToOne "section" "Section" "section_id" with
          eager := true, strategy := some .selectIn }] },
   { name := "User", table := "users", columns := ["id", "team_id"]
     relations :=
       [{ RelationDecl.manyToOne "team" "Team" "team_id" with strategy := some .joined }] },
   { name := "Team", table := "teams" },
   { name := "Section", table := "sections" }]

namespace StrategyDefaults

/-- In the plan for a resolved graph what is upgraded is what can be, next to a relation that
    is joined by rule at the root of the group. -/
theorem isFlagged_select (d : StrategyDefaults) {c : Catalog} {maxDepth : Nat} {name : String}
    {texts : List String} {paths : List RelationPath} {g : Graph}
    (hparse : texts.mapM RelationPath.parse = .ok paths)
    (h : Graph.resolve c maxDepth name paths = .ok g) :
    (d.select g).relations.map PlannedRelation.node = g.nodes ∧
      ∀ r ∈ (d.select g).relations, LoadPlan.IsFlagged d (d.select g) r := by
  obtain ⟨root, hselected, hnodes, hchosen⟩ := d.exists_isSelected_select hparse h
  exact ⟨hnodes, fun r hr => hselected.isFlagged hchosen hr⟩

/-- The section of an article is upgraded next to the author, who is joined by rule. -/
theorem isFlagged_select_articles :
    ∃ c g, Catalog.build articleDecls = .ok c ∧
      Graph.resolve c 4 "Article" [⟨["author", "team"]⟩, ⟨["section"]⟩] = .ok g ∧
      (select {} g).relations.map (fun r => (r.path, r.upgraded)) =
        [("author", false), ("author.team", false), ("section", true)] ∧
      ∀ r ∈ (select {} g).relations, LoadPlan.IsFlagged {} (select {} g) r := by
  obtain ⟨c, hc, g, hg, hupgraded⟩ : ∃ c, Catalog.build articleDecls = .ok c ∧
      ∃ g, Graph.resolve c 4 "Article" [⟨["author", "team"]⟩, ⟨["section"]⟩] = .ok g ∧
        (select {} g).relations.map (fun r => (r.path, r.upgraded)) =
          [("author", false), ("author.team", false), ("section", true)] := ⟨_, rfl, _, rfl, rfl⟩
  have hparse : ["author.team", "section"].mapM RelationPath.parse =
      .ok [⟨["author", "team"]⟩, ⟨["section"]⟩] := rfl
  exact ⟨c, g, hc, hg, hupgraded, (isFlagged_select {} hparse hg).2⟩

/-- Where authors are joined only by default, their teams are joined by rule to the group of
    the articles; yet neither author nor section is upgraded. -/
theorem unflagged_articles :
    ∃ c g, Catalog.build articleDecls = .ok c ∧
      Graph.resolve c 4 "Article" [⟨["author", "team"]⟩, ⟨["section"]⟩] = .ok g ∧
      ∃ d : StrategyDefaults, ∃ r ∈ (d.select g).relations, LoadPlan.IsUpgradable d r ∧
        r.strategy = .joined ∧ (d.select g).LoadsAt r.group r.node.parent ∧
        LoadPlan.HasRuled d (d.select g) r.group ∧ r.upgraded = false := by
  refine ⟨_, _, rfl, rfl, { eager := .selectIn, populate := .joined }, _,
    List.mem_of_getElem? (i := 0) rfl, ⟨rfl, ?_, rfl⟩, rfl, rfl, ?_, rfl⟩
  · rintro ⟨-, hs | ⟨-, -, hd⟩⟩
    · cases hs
    · cases hd
  · exact ⟨_, rfl, 1, by decide, _, rfl, rfl, Or.inl rfl⟩

/-- In the plan for a resolved graph a relation to which a statement of its own is declared
    has one, unless it is asked for and joined next to a relation that is joined by rule, or by
    default. -/
theorem keepsDeclared_select (d : StrategyDefaults) {c : Catalog} {maxDepth : Nat}
    {name : String} {texts : List String} {paths : List RelationPath} {g : Graph}
    (hparse : texts.mapM RelationPath.parse = .ok paths)
    (h : Graph.resolve c maxDepth name paths = .ok g) :
    (d.select g).relations.map PlannedRelation.node = g.nodes ∧
      ∀ r ∈ (d.select g).relations, r.node.relation.strategy = some .selectIn →
        LoadPlan.KeepsDeclared d (d.select g) r := by
  obtain ⟨root, hselected, hnodes, hchosen⟩ := d.exists_isSelected_select hparse h
  exact ⟨hnodes, fun r hr hdeclared => hselected.keepsDeclared hchosen hr hdeclared⟩

/-- The section of an article is joined if it is asked for, next to the author, and otherwise
    has the statement that is declared. -/
theorem keepsDeclared_select_articles :
    ∃ c g g', Catalog.build articleDecls = .ok c ∧
      Graph.resolve c 4 "Article" [⟨["section"]⟩] = .ok g ∧
      Graph.resolve c 4 "Article" [] = .ok g' ∧
      (∃ r ∈ (select {} g).relations, r.node.relation.strategy = some .selectIn ∧
        r.strategy = .joined ∧ LoadPlan.KeepsDeclared {} (select {} g) r) ∧
      ∃ r ∈ (select {} g').relations, r.node.relation.strategy = some .selectIn ∧
        r.strategy = .selectIn ∧ LoadPlan.KeepsDeclared {} (select {} g') r := by
  obtain ⟨c, hc, g, hg, g', hg', r, hr, hdeclared, hjoined, r', hr', hdeclared', hapart⟩ :
      ∃ c, Catalog.build articleDecls = .ok c ∧
      ∃ g, Graph.resolve c 4 "Article" [⟨["section"]⟩] = .ok g ∧
      ∃ g', Graph.resolve c 4 "Article" [] = .ok g' ∧
      ∃ r ∈ (select {} g).relations, r.node.relation.strategy = some .selectIn ∧
        r.strategy = .joined ∧
      ∃ r ∈ (select {} g').relations, r.node.relation.strategy = some .selectIn ∧
        r.strategy = .selectIn :=
    ⟨_, rfl, _, rfl, _, rfl, _, List.mem_of_getElem? (i := 0) rfl, rfl, rfl, _,
      List.mem_of_getElem? (i := 1) rfl, rfl, rfl⟩
  have hparse : ["section"].mapM RelationPath.parse = .ok [⟨["section"]⟩] := rfl
  have hparse' : [].mapM RelationPath.parse = .ok [] := rfl
  exact ⟨c, g, g', hc, hg, hg',
    ⟨r, hr, hdeclared, hjoined, (keepsDeclared_select {} hparse hg).2 r hr hdeclared⟩,
    r', hr', hdeclared', hapart, (keepsDeclared_select {} hparse' hg').2 r' hr' hdeclared'⟩

/-- The default for what is asked for joins a section to which a statement of its own is
    declared, in a plan without a relation that is joined by rule. -/
theorem joined_articles :
    ∃ c g, Catalog.build articleDecls = .ok c ∧
      Graph.resolve c 4 "Article" [⟨["section"]⟩] = .ok g ∧
      ∃ d : StrategyDefaults, ∃ r ∈ (d.select g).relations,
        r.node.relation.strategy = some .selectIn ∧ r.strategy = .joined ∧
        ∀ k, ¬LoadPlan.HasRuled d (d.select g) k := by
  obtain ⟨c, hc, g, hg, hunruled, r, hr, hdeclared, hjoined⟩ :
      ∃ c, Catalog.build articleDecls = .ok c ∧
      ∃ g, Graph.resolve c 4 "Article" [⟨["section"]⟩] = .ok g ∧
      ((select { eager := .selectIn, populate := .joined } g).relations.map fun r =>
        r.node.relation.strategy) = [some .selectIn, none] ∧
      ∃ r ∈ (select { eager := .selectIn, populate := .joined } g).relations,
        r.node.relation.strategy = some .selectIn ∧ r.strategy = .joined :=
    ⟨_, rfl, _, rfl, rfl, _, List.mem_of_getElem? (i := 0) rfl, rfl, rfl⟩
  refine ⟨c, g, hc, hg, _, r, hr, hdeclared, hjoined, ?_⟩
  rintro k ⟨-, -, id, -, q, hq, -, hs | ⟨-, -, heager⟩⟩
  · have hmem : q.node.relation.strategy ∈ [some Strategy.selectIn, none] :=
      hunruled ▸ List.mem_map_of_mem (List.mem_of_getElem? hq)
    rw [hs] at hmem
    exact absurd hmem (by decide)
  · cases heager

end StrategyDefaults

end EntityFetch
