import EntityFetch.Proofs.Loaded

/-!
# Plans as partitions

The groups of a selected plan can be executed one after the other, and together they load
every relation once (`LoadPlan.IsPartition`): a joined relation is listed by one group and
starts none, a relation with a statement of its own starts one group and is listed by none.
Whoever reads a group in its order meets the owners of a relation before the relation, and
whoever goes through the waves finds the owners of a group loaded one wave before.

* `LoadPlan.IsSelected.isPartition`: what selection keeps (`IsGrouped`) says all this.
* `StrategyDefaults.isPartition_select`: it holds of the plan for every resolved graph,
  whatever the defaults are.

Before any group is made, selection has looked for the *anchor* of every relation, the
nearest place above it that is not joined by rule. The search climbs from parent to parent
(`StrategyDefaults.ClimbsTo`). It ends since parents come first, after no more steps than
there are nodes before (`StrategyDefaults.exists_climbsTo`).
-/

namespace EntityFetch

namespace LoadPlan

/-- A group loads what is at a node, or at the root of the fetch. -/
def LoadsAt (p : LoadPlan) (k : Nat) : Option Nat → Prop
  | none => k = 0
  | some id => ∃ q, p.relation? id = some q ∧ q.group = k

/-- Groups that can be executed one after the other and load every relation once. -/
structure IsPartition (p : LoadPlan) : Prop where
  /-- The number of a relation is its place. -/
  relation_id : ∀ (id : Nat) (r : PlannedRelation), p.relation? id = some r → r.node.id = id
  /-- The number of a group is its place. -/
  index_eq : ∀ (k : Nat) (g : LoadGroup), p.groups[k]? = some g → g.index = k
  groups_ne_nil : p.groups ≠ []
  /-- The first group, and no other, is that of the root of the fetch. -/
  root_eq_none_iff : ∀ (k : Nat) (g : LoadGroup), p.groups[k]? = some g → (g.root = none ↔ k = 0)
  /-- Groups are made of relations of the plan. -/
  listed : ∀ g ∈ p.groups, ∀ id, g.root = some id ∨ id ∈ g.joined → id < p.relations.length
  group_lt : ∀ r ∈ p.relations, r.group < p.groups.length
  /-- A joined relation is listed once, by its own group, and starts no group. -/
  joined : ∀ r ∈ p.relations, r.strategy = .joined →
    ∀ (k : Nat) (g : LoadGroup), p.groups[k]? = some g →
      g.joined.count r.node.id = (if k = r.group then 1 else 0) ∧ g.root ≠ some r.node.id
  /-- A relation with a statement of its own starts its own group and is listed by none. -/
  selectIn : ∀ r ∈ p.relations, r.strategy = .selectIn →
    ∀ (k : Nat) (g : LoadGroup), p.groups[k]? = some g →
      (g.root = some r.node.id ↔ k = r.group) ∧ r.node.id ∉ g.joined
  /-- The owners of a joined relation are at the root of its group or listed before it. -/
  owner_before : ∀ g ∈ p.groups, ∀ before id after, g.joined = before ++ id :: after →
    ∀ r, p.relation? id = some r → r.node.parent = g.root ∨ ∃ o ∈ before, r.node.parent = some o
  /-- A group that follows depends on the one that loads the owners of its root, which is
      an earlier one and executed one wave before. -/
  followUp : ∀ (k : Nat) (g : LoadGroup), p.groups[k]? = some g → k ≠ 0 →
    ∃ r ∈ p.relations, g.root = some r.node.id ∧ ∃ j o, g.parentGroup = some j ∧
      p.LoadsAt j r.node.parent ∧ p.groups[j]? = some o ∧ j < k ∧ g.wave = o.wave + 1
  /-- The waves have every group but the first. -/
  mem_waves : ∀ k, k ∈ p.waves.flatten ↔ k ≠ 0 ∧ k < p.groups.length
  /-- The waves have no group twice. -/
  waves_nodup : p.waves.flatten.Nodup
  wave_ne_nil : ∀ wave ∈ p.waves, wave ≠ []

namespace IsSelected

variable {c : Catalog} {root : Entity} {p : LoadPlan} {k : Nat} {g : LoadGroup}
  {r : PlannedRelation}

/-- The relation at the root of a group is the one with its number. -/
theorem relation?_root (h : p.IsSelected c root) (hg : p.groups[k]? = some g)
    (hroot : g.root = some r.node.id) (hr : r ∈ p.relations) :
    r.strategy = .selectIn ∧ r.group = k :=
  h.selectIn_of_root hg hroot (h.isGrouped.getElem?_id hr)

/-- The group of the owners loads them. -/
theorem loadsAt_ownerGroup (h : p.IsSelected c root) (hr : r ∈ p.relations) :
    p.LoadsAt (ownerGroup p.relations r.node) r.node.parent := by
  have hparent := h.isGrouped.parentBelow hr
  unfold ownerGroup
  cases hp : r.node.parent with
  | none => rfl
  | some id =>
    obtain ⟨q, hq⟩ : ∃ q, p.relations[id]? = some q :=
      ⟨_, List.getElem?_eq_getElem (hparent id hp)⟩
    exact ⟨q, hq, by rw [Option.bind_some, hq]; rfl⟩

/-- A joined relation is found behind its owners. -/
theorem owner_before (h : p.IsSelected c root) (hg : p.groups[k]? = some g) {id : Nat}
    {before after : List Nat} (hjoined : g.joined = before ++ id :: after)
    (hr : p.relation? id = some r) :
    r.node.parent = g.root ∨ ∃ o ∈ before, r.node.parent = some o := by
  have hmem : r ∈ p.relations := List.mem_of_getElem? hr
  obtain ⟨hstrategy, hk⟩ := h.joined_of_mem hg
    (hjoined ▸ List.mem_append_right before List.mem_cons_self) hr
  have howner := (h.isGrouped.joined_of_owner r hmem hstrategy).1
  have hloads := h.loadsAt_ownerGroup hmem
  rw [← howner, hk] at hloads
  cases hp : r.node.parent with
  | none =>
    rw [hp] at hloads
    exact Or.inl ((h.root_eq_none_iff hg).2 hloads).symm
  | some o =>
    rw [hp] at hloads
    obtain ⟨q, hq, rfl⟩ := hloads
    have hqmem : q ∈ p.relations := List.mem_of_getElem? hq
    have hqid : q.node.id = o := h.isGrouped.node_id o q hq
    cases hs : q.strategy with
    | selectIn =>
      have hroot := h.isGrouped.root_of_selectIn q hqmem hs
      rw [hg, Option.bind_some, hqid] at hroot
      exact Or.inl hroot.symm
    | joined =>
      -- Both are listed, in the order of their numbers.
      have hlisted : o ∈ g.joined :=
        (h.isGrouped.mem_joined _ g hg o).2 ⟨q, hqmem, hqid, hs, rfl⟩
      have hlt : o < id := h.isGrouped.parent_lt id r hr o hp
      have hsorted := h.isGrouped.joined_sorted g (List.mem_of_getElem? hg)
      rw [hjoined] at hlisted hsorted
      rcases List.mem_append.1 hlisted with hbefore | hafter
      · exact Or.inr ⟨o, hbefore, rfl⟩
      · rcases List.mem_cons.1 hafter with rfl | hafter
        · exact absurd hlt (Nat.lt_irrefl _)
        · have hle := (List.pairwise_cons.1 (List.pairwise_append.1 hsorted).2.1).1 o hafter
          omega

/-- There is a group in every wave up to that of a group. -/
theorem exists_waveOf_eq (h : p.IsSelected c root) (hk : k < p.groups.length) {w : Nat}
    (hw : w ≤ p.waveOf k) : ∃ k' < p.groups.length, p.waveOf k' = w := by
  generalize hn : p.waveOf k = n at hw
  induction n generalizing k with
  | zero => exact ⟨k, hk, by omega⟩
  | succ n ih =>
    rcases Nat.lt_succ_iff_lt_or_eq.1 (Nat.lt_succ_of_le hw) with hlt | rfl
    · have hne : k ≠ 0 := by
        rintro rfl
        rw [h.waveOf_zero] at hn
        omega
      -- The owners of what is at the root of the group are loaded one wave before.
      obtain ⟨_, r, -, -, -, -, -, hwave⟩ := h.exists_root hk hne
      exact ih (h.isGrouped.ownerGroup_lt r.node) (by omega) (Nat.le_of_lt_succ hlt)
    · exact ⟨k, hk, hn⟩

/-- The last wave is that of some group. -/
theorem exists_waveOf_eq_lastWave (h : p.IsSelected c root) :
    ∃ k < p.groups.length, p.waveOf k = p.lastWave := by
  rcases (isGreatest_foldl_wave p.groups 0).1 with hzero | ⟨g, hg, hwave⟩
  · exact ⟨0, h.isGrouped.length_pos, h.waveOf_zero.trans hzero.symm⟩
  · obtain ⟨k, hk⟩ := List.mem_iff_getElem?.1 hg
    refine ⟨k, (List.getElem?_eq_some_iff.1 hk).1, ?_⟩
    rw [waveOf, hk]
    exact hwave

/-- No wave is empty. -/
theorem wave_ne_nil (h : p.IsSelected c root) : ∀ wave ∈ p.waves, wave ≠ [] := by
  intro wave hwave
  obtain ⟨w, hw, rfl⟩ := List.mem_map.1 hwave
  obtain ⟨last, hlast, hlastWave⟩ := h.exists_waveOf_eq_lastWave
  obtain ⟨k, hk, hkw⟩ : ∃ k < p.groups.length, p.waveOf k = w + 1 :=
    h.exists_waveOf_eq hlast (hlastWave ▸ List.mem_range.1 hw)
  exact List.ne_nil_of_mem (h.mem_wave.2 ⟨hk, hkw⟩)

/-- A relation that is joined is listed by its own group, once. -/
theorem count_joined (h : p.IsSelected c root) (hr : r ∈ p.relations)
    (hs : r.strategy = .joined) (hg : p.groups[k]? = some g) :
    g.joined.count r.node.id = if k = r.group then 1 else 0 := by
  split
  · next hk =>
    have hsorted := h.isGrouped.joined_sorted g (List.mem_of_getElem? hg)
    exact List.count_eq_one_of_mem (hsorted.imp Nat.ne_of_lt)
      ((h.isGrouped.mem_joined k g hg _).2 ⟨r, hr, rfl, hs, hk.symm⟩)
  · next hk =>
    refine List.count_eq_zero_of_not_mem fun hmem => hk ?_
    exact (h.joined_of_mem hg hmem (h.isGrouped.getElem?_id hr)).2.symm

/-- The waves have the groups that come after the first one in the order of loading. -/
theorem mem_flatten_waves (h : p.IsSelected c root) :
    k ∈ p.waves.flatten ↔ k ≠ 0 ∧ k < p.groups.length := by
  have horder := h.mem_order (k := k)
  have hnodup := h.nodup_order
  rw [order, List.mem_cons] at horder
  rw [order, List.nodup_cons] at hnodup
  constructor
  · exact fun hk => ⟨fun hzero => hnodup.1 (hzero ▸ hk), horder.1 (Or.inr hk)⟩
  · rintro ⟨hne, hlt⟩
    exact (horder.2 hlt).resolve_left hne

/-- A selected plan is a partition of its relations. -/
theorem isPartition (h : p.IsSelected c root) : p.IsPartition where
  relation_id := h.isGrouped.node_id
  index_eq := h.isGrouped.index_eq
  groups_ne_nil := List.ne_nil_of_length_pos h.isGrouped.length_pos
  root_eq_none_iff _ _ hg := h.root_eq_none_iff hg
  listed g hg id hid := by
    rcases hid with hroot | hjoined
    · exact h.isGrouped.root_lt (List.mem_filterMap.2 ⟨g, hg, hroot⟩)
    · obtain ⟨k, hk⟩ := List.mem_iff_getElem?.1 hg
      obtain ⟨r, hr, rfl, -⟩ := (h.isGrouped.mem_joined k g hk id).1 hjoined
      exact h.isGrouped.id_lt hr
  group_lt := h.isGrouped.group_lt
  joined r hr hs k g hg := by
    refine ⟨h.count_joined hr hs hg, fun hroot => ?_⟩
    cases hs.symm.trans (h.relation?_root hg hroot hr).1
  selectIn r hr hs k g hg := by
    refine ⟨⟨fun hroot => (h.relation?_root hg hroot hr).2.symm, ?_⟩, fun hmem => ?_⟩
    · rintro rfl
      have hroot := h.isGrouped.root_of_selectIn r hr hs
      rwa [hg, Option.bind_some] at hroot
    · cases hs.symm.trans (h.joined_of_mem hg hmem (h.isGrouped.getElem?_id hr)).1
  owner_before g hg _ _ _ hjoined _ hr := by
    obtain ⟨k, hk⟩ := List.mem_iff_getElem?.1 hg
    exact h.owner_before hk hjoined hr
  followUp k g hg hne := by
    obtain ⟨r, hr, hroot, -, -, o, ho, hwave⟩ := h.isGrouped.followUp k g hg hne
    obtain ⟨hparent, hlt⟩ := h.isGrouped.parentGroup k g hg r hr hroot
    exact ⟨r, hr, hroot, _, o, hparent, h.loadsAt_ownerGroup hr, ho, hlt, hwave⟩
  mem_waves _ := h.mem_flatten_waves
  waves_nodup := (List.nodup_cons.1 h.nodup_order).2
  wave_ne_nil := h.wave_ne_nil

end IsSelected

end LoadPlan

/-! ### Anchors -/

namespace StrategyDefaults

/-- The search for an anchor, which climbs from a place to the one above it as long as
    there is a node that is joined by rule, ends at a place after a number of steps. -/
inductive ClimbsTo (d : StrategyDefaults) (nodes : List Node) :
    Option Nat → Nat → Option Nat → Prop
  | root : ClimbsTo d nodes none 0 none
  | stop {id : Nat} {n : Node} : nodes[id]? = some n → d.ruling n ≠ .joined →
      ClimbsTo d nodes (some id) 0 (some id)
  | climb {id steps : Nat} {n : Node} {anchor : Option Nat} : nodes[id]? = some n →
      d.ruling n = .joined → ClimbsTo d nodes n.parent steps anchor →
      ClimbsTo d nodes (some id) (steps + 1) anchor

variable {d : StrategyDefaults} {nodes : List Node}

/-- What is known of the nodes is their anchor, found after a number of steps that is not
    more than that of the nodes before. -/
def Anchored (d : StrategyDefaults) (nodes before : List Node)
    (known : List (Bool × Option Nat)) : Prop :=
  known.length = before.length ∧ ∀ (i : Nat) (n : Node), before[i]? = some n →
    ∃ steps ≤ i, ∃ anchor, d.ClimbsTo nodes n.parent steps anchor ∧
      known[i]? = some (decide (d.ruling n = .joined), anchor)

/-- The search starts again where a node before has its parent. -/
theorem Anchored.exists_climbsTo {before : List Node} {known : List (Bool × Option Nat)}
    (h : d.Anchored nodes before known) (hpre : before <+: nodes) {p : Nat}
    (hp : p < before.length) : ∃ joined anchor, known[p]? = some (joined, anchor) ∧
      ∃ steps ≤ p + 1, d.ClimbsTo nodes (some p) steps (if joined then anchor else some p) := by
  obtain ⟨m, hm⟩ : ∃ m, before[p]? = some m := ⟨_, List.getElem?_eq_getElem hp⟩
  have hnode : nodes[p]? = some m := by
    obtain ⟨rest, rfl⟩ := hpre
    rwa [List.getElem?_append_left hp]
  obtain ⟨steps, hsteps, anchor, hclimbs, hknown⟩ := h.2 p m hm
  refine ⟨_, anchor, hknown, ?_⟩
  by_cases hruling : d.ruling m = .joined
  · rw [if_pos (decide_eq_true hruling)]
    exact ⟨steps + 1, Nat.succ_le_succ hsteps, .climb hnode hruling hclimbs⟩
  · rw [decide_eq_false hruling, if_neg Bool.false_ne_true]
    exact ⟨0, Nat.zero_le _, .stop hnode hruling⟩

/-- One more node is known with its anchor. -/
theorem Anchored.concat {before : List Node} {known : List (Bool × Option Nat)} {n : Node}
    {anchor : Option Nat} {steps : Nat} (h : d.Anchored nodes before known)
    (hsteps : steps ≤ before.length) (hclimbs : d.ClimbsTo nodes n.parent steps anchor) :
    d.Anchored nodes (before ++ [n]) (known ++ [(decide (d.ruling n = .joined), anchor)]) := by
  obtain ⟨hlength, hknown⟩ := h
  refine ⟨by rw [List.length_append, List.length_append, hlength]; rfl,
    forall_getElem?_concat.2 ⟨fun i m hm => ?_, steps, hsteps, anchor, hclimbs, ?_⟩⟩
  · obtain ⟨steps, hsteps, anchor, hclimbs, hknown⟩ := hknown i m hm
    exact ⟨steps, hsteps, anchor, hclimbs, getElem?_concat_eq_some.2 (Or.inl hknown)⟩
  · exact getElem?_concat_eq_some.2 (Or.inr ⟨hlength.symm, rfl⟩)

/-- The search for an anchor ends for every node, and where it ends is what selection
    takes for the anchor. -/
theorem exists_climbsTo (d : StrategyDefaults)
    (hid : ∀ (i : Nat) (n : Node), nodes[i]? = some n → n.id = i)
    (hparent : ∀ n ∈ nodes, ParentBelow n.id n) :
    ∀ n ∈ nodes, ∃ steps ≤ n.id, ∃ anchor, d.ClimbsTo nodes n.parent steps anchor ∧
      (d.anchors nodes)[n.id]? = some (decide (d.ruling n = .joined), anchor) := by
  -- Selection goes through the nodes in order, and knows the anchors of those before.
  have hanchored : nodes <+: nodes → d.Anchored nodes nodes (d.anchors nodes) := by
    refine foldl_induct (fun before known => before <+: nodes → d.Anchored nodes before known)
      (fun _ => ⟨rfl, fun i n hn => by cases hn⟩) ?_
    intro before n known hn ih hpre
    have hbefore := (List.prefix_append before [n]).trans hpre
    have hplace : n.id = before.length := by
      obtain ⟨rest, hrest⟩ := hpre
      exact hid before.length n (by rw [← hrest]; simp)
    have hbelow : ParentBelow before.length n := hplace ▸ hparent n hn
    cases hp : n.parent with
    | none =>
      refine (ih hbefore).concat (Nat.zero_le _) ?_
      rw [hp]
      exact .root
    | some p =>
      obtain ⟨joined, anchor, hknown, steps, hsteps, hclimbs⟩ :=
        (ih hbefore).exists_climbsTo hbefore (hbelow p hp)
      have hle : steps ≤ before.length := Nat.le_trans hsteps (hbelow p hp)
      have hstart : d.ClimbsTo nodes n.parent steps (if joined then anchor else some p) := by
        rwa [hp]
      simp only [hknown]
      cases joined with
      | true => exact (ih hbefore).concat hle hstart
      | false => exact (ih hbefore).concat hle hstart
  intro n hn
  obtain ⟨i, hi⟩ := List.mem_iff_getElem?.1 hn
  rw [hid i n hi]
  exact (hanchored (List.prefix_refl _)).2 i n hi

/-- The plan for a resolved graph loads its relations in groups that partition them, and
    the search for an anchor ends at every node, without leaving the graph. -/
theorem isPartition_select (d : StrategyDefaults) {c : Catalog} {maxDepth : Nat} {name : String}
    {texts : List String} {paths : List RelationPath} {g : Graph}
    (hparse : texts.mapM RelationPath.parse = .ok paths)
    (h : Graph.resolve c maxDepth name paths = .ok g) :
    (d.select g).relations.map PlannedRelation.node = g.nodes ∧ (d.select g).IsPartition ∧
      ∀ n ∈ g.nodes, ∃ steps ≤ n.id, ∃ anchor, d.ClimbsTo g.nodes n.parent steps anchor ∧
        (d.anchors g.nodes)[n.id]? = some (decide (d.ruling n = .joined), anchor) := by
  have hdot := RelationPath.isDotFree_of_mapM_parse hparse
  obtain ⟨root, hselected⟩ := LoadPlan.isSelected_of_resolve d hdot h
  obtain ⟨_, -, htree, -⟩ := Graph.isTree_of_resolve hdot h
  refine ⟨(d.isGrouped_select htree.id_eq htree.parentBelow).1, hselected.isPartition, ?_⟩
  exact d.exists_climbsTo htree.id_eq htree.parentBelow

end StrategyDefaults

/-! ### Tasks -/

/-- Tasks, the owner of which is loaded with them, and their comments. -/
def taskDecls : List EntityDecl :=
  [{ name := "Task", table := "tasks", columns := ["id", "owner_id", "project_id"]
     relations :=
       [{ RelationDecl.manyToOne "owner" "User" "owner_id" with eager := true },
        RelationDecl.manyToOne "project" "Project" "project_id",
        RelationDecl.hasMany "comments" "Comment" "task_id"] },
   { name := "User", table := "users", columns := ["id", "team_id"] },
   { name := "Project", table := "projects" },
   { name := "Comment", table := "comments", columns := ["id", "task_id", "author_id"]
     relations := [RelationDecl.manyToOne "author" "User" "author_id"] }]

namespace StrategyDefaults

/-- The project is joined since the owner is; the comments follow, and their authors
    follow them. -/
theorem isPartition_select_tasks :
    ∃ c g, Catalog.build taskDecls = .ok c ∧
      Graph.resolve c 4 "Task" [⟨["project"]⟩, ⟨["comments", "author"]⟩] = .ok g ∧
      (select {} g).groups.map LoadGroup.joined = [[0, 3], [], []] ∧
      (select {} g).waves = [[1], [2]] ∧ (select {} g).IsPartition := by
  obtain ⟨c, hc, g, hg, hjoined, hwaves⟩ : ∃ c, Catalog.build taskDecls = .ok c ∧
      ∃ g, Graph.resolve c 4 "Task" [⟨["project"]⟩, ⟨["comments", "author"]⟩] = .ok g ∧
        (select {} g).groups.map LoadGroup.joined = [[0, 3], [], []] ∧
        (select {} g).waves = [[1], [2]] := ⟨_, rfl, _, rfl, rfl, rfl⟩
  have hparse : ["project", "comments.author"].mapM RelationPath.parse =
      .ok [⟨["project"]⟩, ⟨["comments", "author"]⟩] := rfl
  exact ⟨c, g, hc, hg, hjoined, hwaves, (isPartition_select {} hparse hg).2.1⟩

end StrategyDefaults

end EntityFetch
