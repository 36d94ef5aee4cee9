import EntityFetch.Proofs.Profile

/-!
# Strategies by the groups of the plan

The rule for a relation that is asked for speaks of the group that loads its owners: it is
joined if that group has a relation that is joined by rule. When selection decides, it does
not know the groups. It looks instead at where the group of the owners starts, and whether
that is the anchor of some relation. A relation between an anchor and what is anchored there
may be joined by rule or not, and then be joined or not; still both questions have one answer
where it matters.

* `LoadPlan.IsSelected.mem_joiningRoots_iff`: a group starts at an anchor if a relation that is
  joined by rule starts at its root. The way up to the anchor goes through relations joined by
  rule only, and the first of them is the one at the root. Hence what is upgraded is what can
  be and has its owners in such a group (`LoadPlan.IsSelected.upgraded_iff`).
* `LoadPlan.IsSelected.hasRuledChild_iff`: every group with a relation that is joined by rule
  has one at its root, provided that relations that are asked for have statements of their own
  by default. Otherwise it may have none there, but then they are joined in any case.
* `StrategyDefaults.followsRule_select`: every relation of a selected plan is loaded as the
  rule says, in terms of the groups of the plan (`LoadPlan.FollowsRule`).
-/

namespace EntityFetch

namespace StrategyDefaults

variable {d : StrategyDefaults} {n : Node}

/-- A relation is joined by rule if it leads to one row and is declared to be joined, or
    declares nothing, is eager, and eager relations are joined by default. -/
def JoinsByRule (d : StrategyDefaults) (r : Relation) : Prop :=
  r.cardinality = .one ∧
    (r.strategy = some .joined ∨ r.strategy = none ∧ r.eager = true ∧ d.eager = .joined)

theorem ruling_eq_joined_iff : d.ruling n = .joined ↔ d.JoinsByRule n.relation := by
  rw [ruling, JoinsByRule]
  cases n.relation.cardinality with
  | many => simp
  | one =>
    cases n.relation.strategy with
    | none => simp
    | some s => cases s <;> simp

/-- Nothing else is settled about a relation to one row. -/
theorem ruling_eq_undecided (hone : n.relation.cardinality = .one)
    (hrule : ¬d.JoinsByRule n.relation) : d.ruling n = .undecided n.requested := by
  rw [← ruling_eq_joined_iff, ruling, hone] at hrule
  rw [ruling, hone]
  cases hs : n.relation.strategy with
  | none =>
    rw [hs] at hrule
    exact if_neg fun h => hrule (if_pos h)
  | some s =>
    cases s with
    | joined => exact absurd (by rw [hs]) hrule
    | selectIn => rfl

/-! The three ways in which a relation can be chosen. -/

variable {joining : List (Option Nat)} {root : Option Nat}

theorem choose_of_many (hmany : n.relation.cardinality = .many) :
    d.choose joining root n = (.selectIn, false) := by
  rw [choose, ruling, hmany]

theorem choose_of_ruled (hrule : d.JoinsByRule n.relation) :
    d.choose joining root n = (.joined, false) := by
  rw [choose, ruling_eq_joined_iff.2 hrule]

theorem choose_of_undecided (hone : n.relation.cardinality = .one)
    (hrule : ¬d.JoinsByRule n.relation) : d.choose joining root n =
      if n.requested then if joining.contains root then (.joined, true) else (d.populate, false)
      else (.selectIn, false) := by
  rw [choose, ruling_eq_undecided hone hrule]
  cases n.requested <;> rfl

end StrategyDefaults

namespace LoadPlan

variable {c : Catalog} {e : Entity} {d : StrategyDefaults} {p : LoadPlan}
  {r : PlannedRelation} {k k' : Nat} {place : Option Nat}

/-- A group has, among those it joins, a relation that is joined by rule. -/
def HasRuled (d : StrategyDefaults) (p : LoadPlan) (k : Nat) : Prop :=
  ∃ g, p.groups[k]? = some g ∧ ∃ id ∈ g.joined, ∃ q, p.relation? id = some q ∧
    d.JoinsByRule q.node.relation

/-- One of the relations that are joined by rule in a group starts at the root of the group. -/
def HasRuledChild (d : StrategyDefaults) (p : LoadPlan) (k : Nat) : Prop :=
  ∃ g, p.groups[k]? = some g ∧ ∃ id ∈ g.joined, ∃ q, p.relation? id = some q ∧
    q.node.parent = g.root ∧ d.JoinsByRule q.node.relation

theorem HasRuledChild.hasRuled (h : HasRuledChild d p k) : HasRuled d p k := by
  obtain ⟨g, hg, id, hid, q, hq, -, hrule⟩ := h
  exact ⟨g, hg, id, hid, q, hq, hrule⟩

/-- A relation that is upgraded where its group has one that is joined by rule: it is asked
    for, leads to one row and is not joined by rule itself. -/
structure IsUpgradable (d : StrategyDefaults) (r : PlannedRelation) : Prop where
  one : r.node.relation.cardinality = .one
  unruled : ¬d.JoinsByRule r.node.relation
  requested : r.node.requested = true

/-- The way a relation is loaded is the one that the rule gives for it. -/
structure FollowsRule (d : StrategyDefaults) (p : LoadPlan) (r : PlannedRelation) : Prop where
  /-- There is one group that loads the owners of the relation. -/
  owners : ∃! k, p.LoadsAt k r.node.parent
  many : r.node.relation.cardinality = .many → r.strategy = .selectIn
  ruled : d.JoinsByRule r.node.relation → r.strategy = .joined ∧ r.upgraded = false
  unrequested : r.node.relation.cardinality = .one → ¬d.JoinsByRule r.node.relation →
    r.node.requested = false → r.strategy = .selectIn
  requested : r.node.relation.cardinality = .one → ¬d.JoinsByRule r.node.relation →
    r.node.requested = true → ∀ k, p.LoadsAt k r.node.parent →
      (HasRuled d p k → r.strategy = .joined) ∧ (¬HasRuled d p k → r.strategy = d.populate)
  /-- Only what is asked for next to a relation that is joined by rule is upgraded. -/
  upgraded : r.upgraded = true → r.strategy = .joined ∧ r.node.requested = true ∧
    ¬d.JoinsByRule r.node.relation ∧ ∀ k, p.LoadsAt k r.node.parent → HasRuled d p k

/-- A relation that can be upgraded is so or is loaded by default. -/
theorem IsUpgradable.strategy_eq {joining : List (Option Nat)} (hup : IsUpgradable d r)
    (hchosen : d.IsChosen joining p.relations p.groups) (hr : r ∈ p.relations) :
    r.strategy = if r.upgraded then .joined else d.populate := by
  have hchoose := hchosen r hr
  rw [StrategyDefaults.choose_of_undecided hup.one hup.unruled, if_pos hup.requested] at hchoose
  split at hchoose
  · rw [← (Prod.mk.inj hchoose).1, ← (Prod.mk.inj hchoose).2, if_pos rfl]
  · rw [← (Prod.mk.inj hchoose).1, ← (Prod.mk.inj hchoose).2, if_neg Bool.false_ne_true]

/-- What is at a place is loaded by one group. -/
theorem LoadsAt.unique (h : p.LoadsAt k place) (h' : p.LoadsAt k' place) : k = k' := by
  cases place with
  | none => exact Eq.trans h (Eq.symm h')
  | some id =>
    obtain ⟨q, hq, rfl⟩ := h
    obtain ⟨q', hq', rfl⟩ := h'
    rw [Option.some.inj (hq.symm.trans hq')]

namespace IsSelected

variable (h : p.IsSelected c e)
include h

theorem relation?_id (hr : r ∈ p.relations) : p.relation? r.node.id = some r :=
  h.isGrouped.getElem?_id hr

theorem isPlace_parent (hr : r ∈ p.relations) : Graph.IsPlace p.nodes r.node.parent := by
  intro i hi
  rw [nodes, List.length_map]
  exact h.isGrouped.parentBelow hr i hi

theorem chainAt_id (hr : r ∈ p.relations) :
    Graph.chainAt p.nodes (some r.node.id) = r.node.chain :=
  h.tree.chainAt_id (List.mem_map_of_mem hr)

theorem chainAt_parent (hr : r ∈ p.relations) :
    Graph.chainAt p.nodes r.node.parent = r.node.ancestors :=
  h.tree.chainAt_parent (List.mem_map_of_mem hr)

/-- A chain ends with a relation that is joined by rule if the one that it ends with is. -/
theorem joinsAt_iff (hr : r ∈ p.relations) :
    d.JoinsAt p.nodes r.node.chain ↔ d.ruling r.node = .joined := by
  refine ⟨fun ⟨n, hn, hchain, hruling⟩ => ?_, fun hruling =>
    ⟨r.node, List.mem_map_of_mem hr, rfl, hruling⟩⟩
  rwa [← h.tree.eq_of_chain hn (List.mem_map_of_mem hr) hchain]

/-- A group loads what is at its root. -/
theorem loadsAt_groupRoot (hk : k < p.groups.length) : p.LoadsAt k (groupRoot p.groups k) := by
  by_cases hzero : k = 0
  · subst hzero
    rw [groupRoot, h.isGrouped.primary.1]
    rfl
  · obtain ⟨g, r, hg, hr, hroot, -, hgroup, -⟩ := h.exists_root hk hzero
    rw [groupRoot, hg, Option.bind_some, hroot]
    exact ⟨r, h.relation?_id hr, hgroup⟩

/-- A relation that is joined by rule is one of those that the group of its owners joins. -/
theorem mem_joined_of_loadsAt
    (hchosen : d.IsChosen (d.joiningRoots p.nodes) p.relations p.groups) (hr : r ∈ p.relations)
    (hruling : d.ruling r.node = .joined) (hk : p.LoadsAt k r.node.parent) :
    r.group = k ∧ ∃ g, p.groups[k]? = some g ∧ r.node.id ∈ g.joined := by
  have hjoined : r.strategy = .joined := by
    have hchoose := hchosen r hr
    rw [StrategyDefaults.choose_of_ruled (StrategyDefaults.ruling_eq_joined_iff.1 hruling)]
      at hchoose
    exact (Prod.mk.inj hchoose).1.symm
  have hgroup : r.group = k :=
    (h.isGrouped.joined_of_owner r hr hjoined).1.trans ((h.loadsAt_ownerGroup hr).unique hk)
  obtain ⟨g, hg⟩ := h.exists_group hr
  rw [hgroup] at hg
  exact ⟨hgroup, g, hg, (h.isGrouped.mem_joined k g hg _).2 ⟨r, hr, rfl, hjoined, hgroup⟩⟩

/-- No group starts at a relation that is joined by rule. -/
theorem not_joinsAt_groupRoot
    (hchosen : d.IsChosen (d.joiningRoots p.nodes) p.relations p.groups)
    (hk : k < p.groups.length) :
    ¬d.JoinsAt p.nodes (Graph.chainAt p.nodes (groupRoot p.groups k)) := by
  by_cases hzero : k = 0
  · subst hzero
    rw [groupRoot, h.isGrouped.primary.1]
    rintro ⟨n, -, hchain, -⟩
    exact n.chain_ne_nil hchain
  · obtain ⟨g, r, hg, hr, hroot, hselect, -, -⟩ := h.exists_root hk hzero
    rw [groupRoot, hg, Option.bind_some, hroot, h.chainAt_id hr, h.joinsAt_iff hr,
      StrategyDefaults.ruling_eq_joined_iff]
    intro hrule
    have hchoose := hchosen r hr
    rw [StrategyDefaults.choose_of_ruled hrule, hselect] at hchoose
    cases (Prod.mk.inj hchoose).1

/-- Groups that have a relation joined by rule at their root are those that start at an
    anchor. -/
theorem mem_joiningRoots_iff
    (hchosen : d.IsChosen (d.joiningRoots p.nodes) p.relations p.groups)
    (hk : k < p.groups.length) :
    groupRoot p.groups k ∈ d.joiningRoots p.nodes ↔ HasRuledChild d p k := by
  refine (StrategyDefaults.mem_joiningRoots_iff h.tree (h.isPlace k)).trans ⟨?_, ?_⟩
  · rintro ⟨n, hn, hruling, hanchored⟩
    -- The way up to the root goes through relations joined by rule; the first starts there.
    obtain ⟨m, hm, hancestors, hmruling⟩ := hanchored.exists_first n hn rfl hruling
    obtain ⟨r, hr, rfl⟩ := List.mem_map.1 hm
    have hparent : r.node.parent = groupRoot p.groups k :=
      h.tree.eq_of_chainAt (h.isPlace_parent hr) (h.isPlace k)
        ((h.chainAt_parent hr).trans hancestors)
    obtain ⟨-, g, hg, hmem⟩ :=
      h.mem_joined_of_loadsAt hchosen hr hmruling (hparent ▸ h.loadsAt_groupRoot hk)
    refine ⟨g, hg, _, hmem, r, h.relation?_id hr, ?_,
      StrategyDefaults.ruling_eq_joined_iff.1 hmruling⟩
    rw [hparent, groupRoot, hg, Option.bind_some]
  · rintro ⟨g, hg, id, -, r, hrelation, hparent, hrule⟩
    have hr : r ∈ p.relations := List.mem_of_getElem? hrelation
    have hroot : groupRoot p.groups k = r.node.parent := by
      rw [hparent, groupRoot, hg, Option.bind_some]
    refine ⟨r.node, List.mem_map_of_mem hr, StrategyDefaults.ruling_eq_joined_iff.2 hrule, ?_⟩
    rw [← h.chainAt_parent hr, ← hroot]
    exact .stop (h.not_joinsAt_groupRoot hchosen hk)

/-- A relation is upgraded if it can be and its owners are loaded by a group with a relation
    joined by rule at its root. -/
theorem upgraded_iff (hchosen : d.IsChosen (d.joiningRoots p.nodes) p.relations p.groups)
    (hr : r ∈ p.relations) : r.upgraded = true ↔
      IsUpgradable d r ∧ HasRuledChild d p (ownerGroup p.relations r.node) := by
  have hchoose : (d.choose (d.joiningRoots p.nodes)
      (groupRoot p.groups (ownerGroup p.relations r.node)) r.node).2 = r.upgraded :=
    congrArg Prod.snd (hchosen r hr)
  rw [← h.mem_joiningRoots_iff hchosen (h.isGrouped.ownerGroup_lt _), ← hchoose]
  constructor
  · intro hupgraded
    cases hone : r.node.relation.cardinality with
    | many =>
      rw [StrategyDefaults.choose_of_many hone] at hupgraded
      cases hupgraded
    | one =>
      -- A relation that is joined by rule is not upgraded, nor is one that is not asked for.
      by_cases hrule : d.JoinsByRule r.node.relation
      · rw [StrategyDefaults.choose_of_ruled hrule] at hupgraded
        cases hupgraded
      · rw [StrategyDefaults.choose_of_undecided hone hrule] at hupgraded
        split at hupgraded
        · next hrequested =>
          split at hupgraded
          · next hcontains =>
            exact ⟨⟨hone, hrule, hrequested⟩, List.contains_iff_mem.1 hcontains⟩
          · cases hupgraded
        · cases hupgraded
  · rintro ⟨⟨hone, hrule, hrequested⟩, hmem⟩
    rw [StrategyDefaults.choose_of_undecided hone hrule, if_pos hrequested,
      if_pos (List.contains_iff_mem.2 hmem)]

/-- The group of a relation that is joined by rule has one at its root, if what is asked for
    has a statement of its own by default. -/
theorem hasRuledChild_of_ruled
    (hchosen : d.IsChosen (d.joiningRoots p.nodes) p.relations p.groups)
    (hpopulate : d.populate = .selectIn) : ∀ r ∈ p.relations, d.JoinsByRule r.node.relation →
      HasRuledChild d p r.group := by
  refine h.induct fun r hr ih hrule => ?_
  have hloads := h.loadsAt_ownerGroup hr
  obtain ⟨hgroup, g, hg, hmem⟩ :=
    h.mem_joined_of_loadsAt hchosen hr (StrategyDefaults.ruling_eq_joined_iff.2 hrule) hloads
  -- It is at the root itself if that is where its owners are.
  have hstarts : r.node.parent = groupRoot p.groups r.group → HasRuledChild d p r.group := by
    intro hroot
    rw [hgroup, groupRoot, hg, Option.bind_some] at hroot
    exact ⟨g, hgroup ▸ hg, _, hmem, r, h.relation?_id hr, hroot, hrule⟩
  obtain ⟨parent, hparent, hchild⟩ := h.exists_parent hr
  cases parent with
  | none =>
    refine hstarts ?_
    rw [hgroup, ownerGroup, hchild.parent_eq]
    exact h.isGrouped.primary.1.symm
  | some m =>
    have hm := hparent m rfl
    rw [h.ownerGroup_eq hm hchild.parent_eq] at hgroup
    cases hs : m.strategy with
    | selectIn =>
      refine hstarts ?_
      rw [hchild.parent_eq, hgroup]
      exact (h.isGrouped.root_of_selectIn m hm hs).symm
    | joined =>
      rw [hgroup]
      by_cases hmrule : d.JoinsByRule m.node.relation
      · exact ih m hm hchild.parent_eq hmrule
      · -- An owner that is joined otherwise is upgraded, being next to one joined by rule.
        obtain ⟨hmgroup, hone⟩ := h.isGrouped.joined_of_owner m hm hs
        have hmchoose := hchosen m hm
        rw [StrategyDefaults.choose_of_undecided hone hmrule, hs] at hmchoose
        split at hmchoose
        · next hrequested =>
          have hmup : IsUpgradable d m := ⟨hone, hmrule, hrequested⟩
          have hmstrategy := hmup.strategy_eq hchosen hm
          rw [hs, hpopulate] at hmstrategy
          cases hup : m.upgraded with
          | true => exact hmgroup ▸ ((h.upgraded_iff hchosen hm).1 hup).2
          | false => cases hup ▸ hmstrategy
        · cases (Prod.mk.inj hmchoose).1

/-- With such a default every relation that is joined by rule is joined next to one at the
    root of its group. -/
theorem hasRuledChild_iff (hchosen : d.IsChosen (d.joiningRoots p.nodes) p.relations p.groups)
    (hpopulate : d.populate = .selectIn) : HasRuledChild d p k ↔ HasRuled d p k := by
  refine ⟨HasRuledChild.hasRuled, fun ⟨g, hg, id, hid, q, hq, hrule⟩ => ?_⟩
  rw [← (h.joined_of_mem hg hid hq).2]
  exact h.hasRuledChild_of_ruled hchosen hpopulate q (List.mem_of_getElem? hq) hrule

/-- What can be upgraded is joined next to a relation that is joined by rule. -/
theorem joined_of_hasRuled
    (hchosen : d.IsChosen (d.joiningRoots p.nodes) p.relations p.groups) (hr : r ∈ p.relations)
    (hup : IsUpgradable d r) (hruled : HasRuled d p (ownerGroup p.relations r.node)) :
    r.strategy = .joined := by
  rw [hup.strategy_eq hchosen hr]
  -- If it is not upgraded where it could be, it is joined by default.
  cases hpopulate : d.populate with
  | joined => exact ite_self _
  | selectIn =>
    rw [if_pos ((h.upgraded_iff hchosen hr).2
      ⟨hup, (h.hasRuledChild_iff hchosen hpopulate).2 hruled⟩)]

/-- Relations that were chosen by anchors are loaded as the rule says. -/
theorem followsRule (hchosen : d.IsChosen (d.joiningRoots p.nodes) p.relations p.groups)
    (hr : r ∈ p.relations) : FollowsRule d p r := by
  have howner := h.loadsAt_ownerGroup hr
  have hchoose := hchosen r hr
  constructor
  case owners => exact ⟨_, howner, fun k hk => hk.unique howner⟩
  case many =>
    intro hmany
    rw [StrategyDefaults.choose_of_many hmany] at hchoose
    exact (Prod.mk.inj hchoose).1.symm
  case ruled =>
    intro hrule
    rw [StrategyDefaults.choose_of_ruled hrule] at hchoose
    exact ⟨(Prod.mk.inj hchoose).1.symm, (Prod.mk.inj hchoose).2.symm⟩
  case unrequested =>
    intro hone hrule hrequested
    rw [StrategyDefaults.choose_of_undecided hone hrule, hrequested] at hchoose
    exact (Prod.mk.inj hchoose).1.symm
  case requested =>
    intro hone hrule hrequested k hk
    obtain rfl := hk.unique howner
    -- Such a relation is joined exactly if it is upgraded, or by the default.
    have hup : IsUpgradable d r := ⟨hone, hrule, hrequested⟩
    refine ⟨h.joined_of_hasRuled hchosen hr hup, fun hnone => ?_⟩
    rw [hup.strategy_eq hchosen hr, if_neg fun hupgraded =>
      hnone ((h.upgraded_iff hchosen hr).1 hupgraded).2.hasRuled]
  case upgraded =>
    intro hupgraded
    obtain ⟨hup, hchild⟩ := (h.upgraded_iff hchosen hr).1 hupgraded
    refine ⟨?_, hup.requested, hup.unruled, fun k hk => hk.unique howner ▸ hchild.hasRuled⟩
    rw [hup.strategy_eq hchosen hr, hupgraded, if_pos rfl]

end IsSelected

end LoadPlan

namespace StrategyDefaults

/-- In the plan for a resolved graph every relation is loaded as the rule says, whatever the
    defaults are. -/
theorem followsRule_select (d : StrategyDefaults) {c : Catalog} {maxDepth : Nat} {name : String}
    {texts : List String} {paths : List RelationPath} {g : Graph}
    (hparse : texts.mapM RelationPath.parse = .ok paths)
    (h : Graph.resolve c maxDepth name paths = .ok g) :
    (d.select g).relations.map PlannedRelation.node = g.nodes ∧
      ∀ r ∈ (d.select g).relations, LoadPlan.FollowsRule d (d.select g) r := by
  obtain ⟨root, hselected, hnodes, hchosen⟩ := d.exists_isSelected_select hparse h
  exact ⟨hnodes, fun r hr => hselected.followsRule hchosen hr⟩

/-- The project of a task is joined next to the owner, who is joined by rule; the authors of
    the comments are alone in their group. -/
theorem followsRule_select_tasks :
    ∃ c g, Catalog.build taskDecls = .ok c ∧
      Graph.resolve c 4 "Task" [⟨["project"]⟩, ⟨["comments", "author"]⟩] = .ok g ∧
      (select {} g).relations.map (fun r => (r.path, r.strategy, r.upgraded)) =
        [("project", .joined, true), ("comments", .selectIn, false),
          ("comments.author", .selectIn, false), ("owner", .joined, false)] ∧
      ∀ r ∈ (select {} g).relations, LoadPlan.FollowsRule {} (select {} g) r := by
  obtain ⟨c, hc, g, hg, hstrategies⟩ : ∃ c, Catalog.build taskDecls = .ok c ∧
      ∃ g, Graph.resolve c 4 "Task" [⟨["project"]⟩, ⟨["comments", "author"]⟩] = .ok g ∧
        (select {} g).relations.map (fun r => (r.path, r.strategy, r.upgraded)) =
          [("project", .joined, true), ("comments", .selectIn, false),
            ("comments.author", .selectIn, false), ("owner", .joined, false)] :=
    ⟨_, rfl, _, rfl, rfl⟩
  have hparse : ["project", "comments.author"].mapM RelationPath.parse =
      .ok [⟨["project"]⟩, ⟨["comments", "author"]⟩] := rfl
  exact ⟨c, g, hc, hg, hstrategies, (followsRule_select {} hparse hg).2⟩

end StrategyDefaults

end EntityFetch
