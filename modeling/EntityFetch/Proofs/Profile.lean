import EntityFetch.Proofs.Rearranged

/-!
# What a plan says of a path

The numbers of a plan depend on the order in which its paths are asked for. A `Profile` says
without them how the relation at a path is loaded: its group is told by the path of the
relation at its root. Plans for the same nodes load their relations alike, from the parents
on down (`LoadPlan.loadedAlike`), and so the profiles are the same for lists of paths that
ask for the same, in whatever order and however often (`StrategyDefaults.profiles_select`).
-/

namespace EntityFetch

/-- How the relation at a path is loaded. -/
structure Profile where
  relation : Relation
  depth : Nat
  requested : Bool
  strategy : Strategy
  upgraded : Bool
  /-- The path of the relation at the root of the group, none for the root of the fetch. -/
  groupRoot : Option String
  /-- The wave of the group. -/
  wave : Nat
deriving DecidableEq, Repr

namespace LoadPlan

variable {c : Catalog} {e : Entity} {d : StrategyDefaults} {p p' : LoadPlan}
  {r r' : PlannedRelation} {k k' : Nat}

/-- The nodes of the relations. -/
def nodes (p : LoadPlan) : List Node :=
  p.relations.map PlannedRelation.node

/-- The profile of a relation. -/
def profile (p : LoadPlan) (r : PlannedRelation) : Profile :=
  { relation := r.node.relation
    depth := r.node.depth
    requested := r.node.requested
    strategy := r.strategy
    upgraded := r.upgraded
    groupRoot := ((groupRoot p.groups r.group).bind p.relation?).map PlannedRelation.path
    wave := p.waveOf r.group }

/-- The profile of the relation at a path. -/
def profile? (p : LoadPlan) (path : String) : Option Profile :=
  (p.byPath? path).map p.profile

/-! ### Groups -/

/-- The root of a group is a place of the plan. -/
theorem IsSelected.isPlace (h : p.IsSelected c e) (k : Nat) :
    Graph.IsPlace p.nodes (groupRoot p.groups k) := by
  intro id hid
  obtain ⟨g, hg, hroot⟩ := Option.bind_eq_some_iff.1 hid
  rw [nodes, List.length_map]
  exact h.isGrouped.root_lt (List.mem_filterMap.2 ⟨g, List.mem_of_getElem? hg, hroot⟩)

/-- The relation at a place has the address of its chain. -/
theorem IsSelected.path_root (h : p.IsSelected c e) {place : Option Nat}
    (hplace : Graph.IsPlace p.nodes place) :
    (place.bind p.relation?).map PlannedRelation.path =
      if Graph.chainAt p.nodes place = [] then none
      else some (address (Graph.chainAt p.nodes place)) := by
  rcases h.tree.eq_none_or_exists hplace with rfl | ⟨n, hn, rfl⟩
  · rfl
  · obtain ⟨r, hr, rfl⟩ := List.mem_map.1 hn
    rw [nodes, h.tree.chainAt_id hn, if_neg r.node.chain_ne_nil, Option.bind_some, relation?,
      h.isGrouped.getElem?_id hr]
    rfl

/-- Groups that start at the same chain, in the same wave. -/
structure GroupsAlike (p p' : LoadPlan) (k k' : Nat) : Prop where
  chain_eq : Graph.chainAt p.nodes (groupRoot p.groups k) =
    Graph.chainAt p'.nodes (groupRoot p'.groups k')
  wave_eq : p.waveOf k = p'.waveOf k'

/-- The owners of a relation are in groups that are alike if its parent is. -/
theorem IsSelected.groupsAlike_ownerGroup (h : p.IsSelected c e) (h' : p'.IsSelected c e)
    (hr : r ∈ p.relations) (hr' : r' ∈ p'.relations) (hchain : r'.node.chain = r.node.chain)
    (hparent : ∀ q ∈ p.relations, r.node.parent = some q.node.id →
      ∀ q' ∈ p'.relations, q'.node.chain = q.node.chain → GroupsAlike p p' q.group q'.group) :
    GroupsAlike p p' (ownerGroup p.relations r.node) (ownerGroup p'.relations r'.node) := by
  obtain ⟨hancestors, -⟩ := List.append_inj' hchain rfl
  obtain ⟨parent, hmem, hchild⟩ := h.exists_parent hr
  obtain ⟨parent', hmem', hchild'⟩ := h'.exists_parent hr'
  rw [hchild.ancestors_eq, hchild'.ancestors_eq] at hancestors
  -- Both parents are the root, or they are relations with one chain.
  cases parent with
  | none =>
    cases parent' with
    | none =>
      have hzero : ownerGroup p.relations r.node = 0 := by
        rw [ownerGroup, hchild.parent_eq]
        rfl
      have hzero' : ownerGroup p'.relations r'.node = 0 := by
        rw [ownerGroup, hchild'.parent_eq]
        rfl
      rw [hzero, hzero']
      constructor
      · rw [groupRoot, groupRoot, h.isGrouped.primary.1, h'.isGrouped.primary.1]
        rfl
      · rw [h.waveOf_zero, h'.waveOf_zero]
    | some q' => exact absurd hancestors q'.node.chain_ne_nil
  | some q =>
    cases parent' with
    | none => exact absurd hancestors.symm q.node.chain_ne_nil
    | some q' =>
      rw [h.ownerGroup_eq (hmem q rfl) hchild.parent_eq,
        h'.ownerGroup_eq (hmem' q' rfl) hchild'.parent_eq]
      exact hparent q (hmem q rfl) hchild.parent_eq q' (hmem' q' rfl) hancestors

/-! ### Relations -/

/-- Relations that are loaded in the same way, in groups that are alike. -/
structure LoadedAlike (p p' : LoadPlan) (r r' : PlannedRelation) : Prop where
  strategy_eq : r.strategy = r'.strategy
  upgraded_eq : r.upgraded = r'.upgraded
  groups : GroupsAlike p p' r.group r'.group

/-- What is chosen by the same owners is loaded alike. -/
theorem IsSelected.loadedAlike_of_owner (h : p.IsSelected c e) (h' : p'.IsSelected c e)
    (hr : r ∈ p.relations) (hr' : r' ∈ p'.relations) (hchain : r'.node.chain = r.node.chain)
    (hstrategy : r.strategy = r'.strategy) (hupgraded : r.upgraded = r'.upgraded)
    (howner : GroupsAlike p p' (ownerGroup p.relations r.node)
      (ownerGroup p'.relations r'.node)) : LoadedAlike p p' r r' := by
  refine ⟨hstrategy, hupgraded, ?_⟩
  -- What is joined stays in the group of its owners, and anything else starts one.
  rcases h.waveOf_ownerGroup hr with ⟨hjoined, hgroup⟩ | ⟨hselect, hwave⟩
  · rw [hgroup, (h'.isGrouped.joined_of_owner r' hr' (hstrategy ▸ hjoined)).1]
    exact howner
  · have hselect' : r'.strategy = .selectIn := hstrategy ▸ hselect
    constructor
    · rw [groupRoot, groupRoot, h.isGrouped.root_of_selectIn r hr hselect,
        h'.isGrouped.root_of_selectIn r' hr' hselect', nodes, nodes,
        h.tree.chainAt_id (List.mem_map_of_mem hr), h'.tree.chainAt_id (List.mem_map_of_mem hr')]
      exact hchain.symm
    · rcases h'.waveOf_ownerGroup hr' with ⟨hjoined, -⟩ | ⟨-, hwave'⟩
      · cases hselect'.symm.trans hjoined
      · rw [hwave, hwave', howner.wave_eq]

/-- Plans for the same nodes load their relations alike. -/
theorem IsSelected.loadedAlike (h : p.IsSelected c e) (h' : p'.IsSelected c e)
    (hchosen : d.IsChosen (d.joiningRoots p.nodes) p.relations p.groups)
    (hchosen' : d.IsChosen (d.joiningRoots p'.nodes) p'.relations p'.groups)
    (hnodes : Graph.Rearranged p.nodes p'.nodes) : ∀ r ∈ p.relations, ∀ r' ∈ p'.relations,
      r'.node.chain = r.node.chain → LoadedAlike p p' r r' := by
  refine h.induct fun r hr ih r' hr' hchain => ?_
  have howner := h.groupsAlike_ownerGroup h' hr hr' hchain fun q hq hparent q' hq' hq'chain =>
    (ih q hq hparent q' hq' hq'chain).groups
  have hchoose := StrategyDefaults.choose_congr (d := d) hnodes h.tree h'.tree
    (h.isPlace _) (h'.isPlace _) howner.chain_eq (List.mem_map_of_mem hr)
    (List.mem_map_of_mem hr') hchain
  rw [hchosen r hr, hchosen' r' hr'] at hchoose
  obtain ⟨hstrategy, hupgraded⟩ := Prod.mk.inj hchoose
  exact h.loadedAlike_of_owner h' hr hr' hchain hstrategy.symm hupgraded.symm howner

/-- Relations that are loaded alike have the same profile. -/
theorem IsSelected.profile_congr (h : p.IsSelected c e) (h' : p'.IsSelected c e)
    (hchain : r'.node.chain = r.node.chain) (hrequested : r'.node.requested = r.node.requested)
    (halike : LoadedAlike p p' r r') : p.profile r = p'.profile r' := by
  obtain ⟨-, hrelation⟩ := List.append_inj' hchain rfl
  have hroot : ((groupRoot p.groups r.group).bind p.relation?).map PlannedRelation.path =
      ((groupRoot p'.groups r'.group).bind p'.relation?).map PlannedRelation.path := by
    rw [h.path_root (h.isPlace _), h'.path_root (h'.isPlace _), halike.groups.chain_eq]
  rw [profile, profile, hroot, Node.depth, Node.depth, hchain, List.singleton_inj.1 hrelation,
    hrequested, halike.strategy_eq, halike.upgraded_eq, halike.groups.wave_eq]

/-- The relation at a path is found. -/
theorem IsSelected.byPath?_eq (h : p.IsSelected c e) (hr : r ∈ p.relations) :
    p.byPath? r.path = some r := by
  obtain ⟨q, hq⟩ : ∃ q, p.byPath? r.path = some q :=
    Option.isSome_iff_exists.1 (List.find?_isSome.2 ⟨r, hr, beq_self_eq_true _⟩)
  have hpath : q.path = r.path := beq_iff_eq.1 (List.find?_some hq :)
  rw [hq, h.eq_of_path (List.mem_of_find?_eq_some hq) hr hpath]

/-- Plans for the same nodes have the same profiles. -/
theorem IsSelected.profile?_congr (h : p.IsSelected c e) (h' : p'.IsSelected c e)
    (hchosen : d.IsChosen (d.joiningRoots p.nodes) p.relations p.groups)
    (hchosen' : d.IsChosen (d.joiningRoots p'.nodes) p'.relations p'.groups)
    (hnodes : Graph.Rearranged p.nodes p'.nodes) (path : String) :
    p.profile? path = p'.profile? path := by
  -- A relation of the one plan has a partner in the other, by the relations on the way to it.
  have hpartner : ∀ r ∈ p.relations, ∃ r' ∈ p'.relations, r'.node.chain = r.node.chain ∧
      r'.node.requested = r.node.requested := by
    intro r hr
    obtain ⟨n', hn', hpartner⟩ := hnodes.exists_mem (List.mem_map_of_mem hr)
    obtain ⟨r', hr', rfl⟩ := List.mem_map.1 hn'
    exact ⟨r', hr', hpartner⟩
  cases hfind : p.byPath? path with
  | some r =>
    have hr := List.mem_of_find?_eq_some hfind
    obtain rfl : r.path = path := beq_iff_eq.1 (List.find?_some hfind :)
    obtain ⟨r', hr', hchain, hrequested⟩ := hpartner r hr
    have hpath : r'.path = r.path := congrArg address hchain
    rw [profile?, profile?, hfind, ← hpath, h'.byPath?_eq hr']
    exact congrArg some (h.profile_congr h' hchain hrequested
      (h.loadedAlike h' hchosen hchosen' hnodes r hr r' hr' hchain))
  | none =>
    -- A relation at the path in the other plan would have a partner at the path in this one.
    have hnone : p'.byPath? path = none := by
      refine List.find?_eq_none.2 fun r' hr' hpath => ?_
      obtain ⟨n, hn, hchain, -⟩ := hnodes.symm.exists_mem (List.mem_map_of_mem hr')
      obtain ⟨r, hr, rfl⟩ := List.mem_map.1 hn
      refine List.find?_eq_none.1 hfind r hr (beq_iff_eq.2 ?_)
      exact Eq.trans (congrArg address hchain) (beq_iff_eq.1 hpath)
    rw [profile?, profile?, hfind, hnone]
    rfl

end LoadPlan

namespace StrategyDefaults

/-- The plan for a resolved graph is selected by its nodes. -/
theorem isSelected_select (d : StrategyDefaults) {c : Catalog} {e : Entity} {maxDepth : Nat}
    {root : String} {paths : List RelationPath} {g : Graph} (hroot : c.entity root = .ok e)
    (hdot : ∀ p ∈ paths, ∀ n ∈ p.segments, IsDotFree n)
    (h : Graph.resolve c maxDepth root paths = .ok g) :
    (d.select g).IsSelected c e ∧ (d.select g).nodes = g.nodes ∧
      d.IsChosen (d.joiningRoots (d.select g).nodes) (d.select g).relations
        (d.select g).groups := by
  obtain ⟨e', he', htree, rfl, -⟩ := Graph.isTree_of_resolve hdot h
  obtain rfl := Except.ok.inj (hroot.symm.trans he')
  obtain ⟨hmap, hgrouped⟩ := d.isGrouped_select htree.id_eq htree.parentBelow
  have hnodes : (d.select g).nodes = g.nodes := hmap
  rw [hnodes]
  exact ⟨⟨hroot, hmap ▸ htree, hgrouped⟩, rfl, d.choose_select htree⟩

/-- The plan for a graph that was resolved from texts is selected by its nodes. -/
theorem exists_isSelected_select (d : StrategyDefaults) {c : Catalog} {maxDepth : Nat}
    {root : String} {texts : List String} {paths : List RelationPath} {g : Graph}
    (hparse : texts.mapM RelationPath.parse = .ok paths)
    (h : Graph.resolve c maxDepth root paths = .ok g) :
    ∃ e, (d.select g).IsSelected c e ∧ (d.select g).nodes = g.nodes ∧
      d.IsChosen (d.joiningRoots (d.select g).nodes) (d.select g).relations
        (d.select g).groups := by
  have hdot := RelationPath.isDotFree_of_mapM_parse hparse
  obtain ⟨e, hroot, -⟩ := Graph.isTree_of_resolve hdot h
  exact ⟨e, d.isSelected_select hroot hdot h⟩

/-- Paths may be asked for in any order and more than once, and together with those on the
    way to them: as long as each path of one list starts one of the other, either both lists
    are resolved or none is, and the plans say the same of every path. -/
theorem profiles_select (d : StrategyDefaults) {decls : List EntityDecl} {c : Catalog}
    (hbuild : Catalog.build decls = .ok c)
    (hnames : ∀ d ∈ decls, (d.relations.map RelationDecl.name).Nodup)
    (hdotFree : ∀ d ∈ decls, ∀ s ∈ d.relations, IsDotFree s.name) (maxDepth : Nat)
    (root : String) {texts texts' : List String} {paths paths' : List RelationPath}
    (hparse : texts.mapM RelationPath.parse = .ok paths)
    (hparse' : texts'.mapM RelationPath.parse = .ok paths')
    (hsteps : Graph.AreSteps paths paths') (hsteps' : Graph.AreSteps paths' paths) :
    ((∃ g, Graph.resolve c maxDepth root paths = .ok g) ↔
      ∃ g, Graph.resolve c maxDepth root paths' = .ok g) ∧
    ∀ g g', Graph.resolve c maxDepth root paths = .ok g →
      Graph.resolve c maxDepth root paths' = .ok g' →
        ∀ path, (d.select g).profile? path = (d.select g').profile? path := by
  have hc := Catalog.isSound_of_build hbuild
  have hdistinct := Catalog.hasDistinctNames_of_build hbuild hnames
  have hplain := Catalog.hasDotFreeNames_of_build hbuild hdotFree
  have hdot := RelationPath.isDotFree_of_mapM_parse hparse
  have hdot' := RelationPath.isDotFree_of_mapM_parse hparse'
  -- Without an entity for the root both lists fail.
  cases hroot : c.entity root with
  | error err =>
    have hfail : ∀ paths g, Graph.resolve c maxDepth root paths ≠ .ok g := by
      intro paths g h
      obtain ⟨e, he, -⟩ := bind_eq_ok.1 h
      cases hroot.symm.trans he
    exact ⟨⟨fun ⟨g, hg⟩ => absurd hg (hfail paths g), fun ⟨g, hg⟩ => absurd hg (hfail paths' g)⟩,
      fun g _ hg => absurd hg (hfail paths g)⟩
  | ok e =>
    have he := (Catalog.entity_eq_ok hroot).1
    refine ⟨?_, fun g g' hg hg' => ?_⟩
    · rw [Graph.exists_resolve_iff hc hroot hdot, Graph.exists_resolve_iff hc hroot hdot']
      exact ⟨hsteps'.exists_isChain, hsteps.exists_isChain⟩
    · have hgrown := (Graph.isGrown_of_resolve hc hdistinct hroot hdot hg).2
      have hgrown' := (Graph.isGrown_of_resolve hc hdistinct hroot hdot' hg').2
      have hnodes : Graph.Rearranged g.nodes g'.nodes :=
        (hgrown.isClosure he hplain).rearranged (hgrown'.isClosure he hplain)
          fun names => ⟨hsteps.isAsked, hsteps'.isAsked⟩
      obtain ⟨hselected, hmap, hchosen⟩ := d.isSelected_select hroot hdot hg
      obtain ⟨hselected', hmap', hchosen'⟩ := d.isSelected_select hroot hdot' hg'
      rw [← hmap, ← hmap'] at hnodes
      exact hselected.profile?_congr hselected' hchosen hchosen' hnodes

/-- The paths are asked for in another order, one of them twice and one together with what is
    on the way to it. -/
theorem profiles_select_tasks : ∃ c g g', Catalog.build taskDecls = .ok c ∧
    Graph.resolve c 4 "Task" [⟨["comments", "author"]⟩, ⟨["project"]⟩] = .ok g ∧
    Graph.resolve c 4 "Task"
      [⟨["project"]⟩, ⟨["comments"]⟩, ⟨["comments", "author"]⟩, ⟨["project"]⟩] = .ok g' ∧
    g.nodes.map Node.path = ["comments", "comments.author", "project", "owner"] ∧
    g'.nodes.map Node.path = ["project", "comments", "comments.author", "owner"] ∧
    ((select {} g).profile? "project").map Profile.upgraded = some true ∧
    ∀ path, (select {} g).profile? path = (select {} g').profile? path := by
  obtain ⟨c, hc, g, hg, g', hg', hpaths, hpaths', hupgraded⟩ :
      ∃ c, Catalog.build taskDecls = .ok c ∧
      ∃ g, Graph.resolve c 4 "Task" [⟨["comments", "author"]⟩, ⟨["project"]⟩] = .ok g ∧
      ∃ g', Graph.resolve c 4 "Task"
        [⟨["project"]⟩, ⟨["comments"]⟩, ⟨["comments", "author"]⟩, ⟨["project"]⟩] = .ok g' ∧
        g.nodes.map Node.path = ["comments", "comments.author", "project", "owner"] ∧
        g'.nodes.map Node.path = ["project", "comments", "comments.author", "owner"] ∧
        ((select {} g).profile? "project").map Profile.upgraded = some true :=
    ⟨_, rfl, _, rfl, _, rfl, rfl, rfl, rfl⟩
  have hparse : ["comments.author", "project"].mapM RelationPath.parse =
      .ok [⟨["comments", "author"]⟩, ⟨["project"]⟩] := rfl
  have hparse' : ["project", "comments", "comments.author", "project"].mapM RelationPath.parse =
      .ok [⟨["project"]⟩, ⟨["comments"]⟩, ⟨["comments", "author"]⟩, ⟨["project"]⟩] := rfl
  exact ⟨c, g, g', hc, hg, hg', hpaths, hpaths', hupgraded,
    (profiles_select {} hc (by decide) (by decide) 4 "Task" hparse hparse' (by decide)
      (by decide)).2 g g' hg hg'⟩

end StrategyDefaults

end EntityFetch
