import EntityFetch.Plan.Select
import EntityFetch.Proofs.Graph

/-!
# Selected plans

What a selected plan says twice agrees (`IsGrouped`): a relation that is
joined is listed in the group that loads its owners, once and in the order of the
nodes, and one with a statement of its own is the root of the group of which it
is said to be. The group of such a relation depends on the group of its owners, which
comes before it in the list, and is executed in the wave after it.

Selection places one node after the other. The group of a node's owners is settled
when the node is placed and stays what it is (`ownerGroup_append`).
-/

namespace EntityFetch

/-- The group that loads the owners of a node, given the relations before it. -/
def ownerGroup (relations : List PlannedRelation) (n : Node) : Nat :=
  ((n.parent.bind (relations[·]?)).map PlannedRelation.group).getD 0

/-- The parent of a node is one of the first relations. -/
def ParentBelow (bound : Nat) (n : Node) : Prop :=
  ∀ p ∈ n.parent, p < bound

/-- In a tree the parent of a node comes before it. -/
theorem Graph.IsTree.parentBelow {Q : Entity → Relation → Prop} {c : Catalog} {root : Entity}
    {nodes : List Node} (h : IsTree Q c root nodes) : ∀ n ∈ nodes, ParentBelow n.id n := by
  intro n hn p hp
  obtain ⟨parent, hchild⟩ := h.child n hn
  rw [hchild.parent_eq] at hp
  obtain ⟨m, hm, rfl⟩ := Option.map_eq_some_iff.1 hp
  exact hchild.lt m hm

/-- More relations do not change the group of the owners. -/
theorem ownerGroup_append {relations : List PlannedRelation} {n : Node}
    (h : ParentBelow relations.length n) (r : PlannedRelation) :
    ownerGroup (relations ++ [r]) n = ownerGroup relations n := by
  rw [ownerGroup, ownerGroup]
  cases hp : n.parent with
  | none => rfl
  | some p =>
    have hlt : p < relations.length := h p hp
    simp [List.getElem?_append_left hlt]

/-- A change of one element that a function does not see. -/
theorem filterMap_modify {α β : Type} (f : α → Option β) (change : α → α)
    (h : ∀ a, f (change a) = f a) (as : List α) (i : Nat) :
    (as.modify i change).filterMap f = as.filterMap f := by
  induction as generalizing i with
  | nil => rw [List.modify_nil]
  | cons a as ih =>
    cases i with
    | zero => rw [List.modify_zero_cons, List.filterMap_cons, List.filterMap_cons, h]
    | succ i => rw [List.modify_succ_cons, List.filterMap_cons, List.filterMap_cons, ih]

theorem getElem?_modify_bind {α β : Type} (f : α → Option β) (change : α → α)
    (h : ∀ a, f (change a) = f a) (as : List α) (i k : Nat) :
    (as.modify i change)[k]?.bind f = as[k]?.bind f := by
  rw [List.getElem?_modify]
  cases as[k]? with
  | none => rfl
  | some a => by_cases hk : i = k <;> simp [hk, h]

/-- Relations and groups that agree. -/
structure IsGrouped (relations : List PlannedRelation) (groups : List LoadGroup) : Prop where
  node_id : ∀ (id : Nat) (r : PlannedRelation), relations[id]? = some r → r.node.id = id
  parent_lt : ∀ (id : Nat) (r : PlannedRelation), relations[id]? = some r → ParentBelow id r.node
  group_lt : ∀ r ∈ relations, r.group < groups.length
  joined_of_owner : ∀ r ∈ relations, r.strategy = .joined →
    r.group = ownerGroup relations r.node ∧ r.node.relation.cardinality = .one
  root_of_selectIn : ∀ r ∈ relations, r.strategy = .selectIn →
    groups[r.group]?.bind LoadGroup.root = some r.node.id
  primary : groups[0]?.bind LoadGroup.root = none ∧ (groups[0]?.map LoadGroup.wave) = some 0
  index_eq : ∀ (k : Nat) (g : LoadGroup), groups[k]? = some g → g.index = k
  followUp : ∀ (k : Nat) (g : LoadGroup), groups[k]? = some g → k ≠ 0 →
    ∃ r ∈ relations, g.root = some r.node.id ∧ r.strategy = .selectIn ∧ r.group = k ∧
      ∃ o, groups[ownerGroup relations r.node]? = some o ∧ g.wave = o.wave + 1
  parentGroup : ∀ (k : Nat) (g : LoadGroup), groups[k]? = some g → ∀ r ∈ relations,
    g.root = some r.node.id →
      g.parentGroup = some (ownerGroup relations r.node) ∧ ownerGroup relations r.node < k
  mem_joined : ∀ (k : Nat) (g : LoadGroup), groups[k]? = some g → ∀ (id : Nat),
    id ∈ g.joined ↔ ∃ r ∈ relations, r.node.id = id ∧ r.strategy = .joined ∧ r.group = k
  joined_sorted : ∀ g ∈ groups, g.joined.Pairwise (· < ·)
  roots_sorted : (groups.filterMap LoadGroup.root).Pairwise (· < ·)

namespace IsGrouped

variable {relations : List PlannedRelation} {groups : List LoadGroup} {r : PlannedRelation}

/-- Before any node is placed there is the group of the root. -/
theorem start : IsGrouped [] [.primary] where
  node_id _ _ h := by cases h
  parent_lt _ _ h := by cases h
  group_lt := List.forall_mem_nil _
  joined_of_owner := List.forall_mem_nil _
  root_of_selectIn := List.forall_mem_nil _
  primary := ⟨rfl, rfl⟩
  index_eq k g h := by
    cases k with
    | zero => exact Option.some.inj h ▸ rfl
    | succ k => cases h
  followUp k g h hk := by
    cases k with
    | zero => exact absurd rfl hk
    | succ k => cases h
  parentGroup _ _ _ := List.forall_mem_nil _
  mem_joined k g h id := by
    cases k with
    | zero =>
      obtain rfl := Option.some.inj h
      simp [LoadGroup.primary]
    | succ k => cases h
  joined_sorted g h := by
    rw [List.mem_singleton.1 h]
    exact List.Pairwise.nil
  roots_sorted := List.Pairwise.nil

/-- The relation at the place that its node has. -/
theorem getElem?_id (h : IsGrouped relations groups) (hr : r ∈ relations) :
    relations[r.node.id]? = some r := by
  obtain ⟨i, hi⟩ := List.mem_iff_getElem?.1 hr
  rw [h.node_id i r hi, hi]

/-- Relations are told apart by their nodes. -/
theorem eq_of_id (h : IsGrouped relations groups) {q : PlannedRelation} (hr : r ∈ relations)
    (hq : q ∈ relations) (heq : r.node.id = q.node.id) : r = q := by
  have hplace := h.getElem?_id hr
  rw [heq, h.getElem?_id hq] at hplace
  exact (Option.some.inj hplace).symm

theorem id_lt (h : IsGrouped relations groups) (hr : r ∈ relations) :
    r.node.id < relations.length :=
  (List.getElem?_eq_some_iff.1 (h.getElem?_id hr)).1

theorem parentBelow (h : IsGrouped relations groups) (hr : r ∈ relations) :
    ParentBelow relations.length r.node :=
  fun p hp => Nat.lt_trans (h.parent_lt _ r (h.getElem?_id hr) p hp) (h.id_lt hr)

theorem length_pos (h : IsGrouped relations groups) : 0 < groups.length := by
  cases groups with
  | nil => exact nomatch h.primary.2
  | cons => exact Nat.succ_pos _

/-- The group of the owners of a node is one of the groups. -/
theorem ownerGroup_lt (h : IsGrouped relations groups) (n : Node) :
    ownerGroup relations n < groups.length := by
  rw [ownerGroup]
  cases hp : n.parent.bind (relations[·]?) with
  | none => exact h.length_pos
  | some s =>
    obtain ⟨p, -, hs⟩ := Option.bind_eq_some_iff.1 hp
    exact h.group_lt s (List.mem_of_getElem? hs)

/-- A group of a list in which one more relation is joined to a group. -/
theorem exists_of_modify {id k k' : Nat} {g : LoadGroup}
    (hg : (groups.modify k' fun g => { g with joined := g.joined ++ [id] })[k]? = some g) :
    ∃ g', groups[k]? = some g' ∧ g.root = g'.root ∧ g.wave = g'.wave ∧ g.index = g'.index ∧
      g.parentGroup = g'.parentGroup ∧ g.joined = g'.joined ++ if k' = k then [id] else [] := by
  rw [List.getElem?_modify] at hg
  obtain ⟨g', hg', rfl⟩ := Option.map_eq_some_iff.1 hg
  refine ⟨g', hg', ?_⟩
  split <;> simp

/-- Joining a relation changes the root of no group. -/
theorem root_modify (groups : List LoadGroup) (id k k' : Nat) :
    (groups.modify k' fun g => { g with joined := g.joined ++ [id] })[k]?.bind LoadGroup.root =
      groups[k]?.bind LoadGroup.root :=
  getElem?_modify_bind LoadGroup.root (fun g => { g with joined := g.joined ++ [id] })
    (fun _ => rfl) groups k' k

/-- Joining a relation changes the wave of no group. -/
theorem wave_modify (groups : List LoadGroup) (id k k' : Nat) :
    (groups.modify k' fun g => { g with joined := g.joined ++ [id] })[k]?.map LoadGroup.wave =
      groups[k]?.map LoadGroup.wave := by
  rw [Option.map_eq_bind, Option.map_eq_bind]
  exact getElem?_modify_bind (some ∘ LoadGroup.wave)
    (fun g => { g with joined := g.joined ++ [id] }) (fun _ => rfl) groups k' k

/-- One more relation is listed where it is joined. -/
theorem mem_joined_join (h : IsGrouped relations groups) (hjoined : r.strategy = .joined)
    {k : Nat} {g g' : LoadGroup} (hg' : groups[k]? = some g')
    (hg : g.joined = g'.joined ++ if r.group = k then [r.node.id] else []) (id : Nat) :
    id ∈ g.joined ↔
      ∃ s ∈ relations ++ [r], s.node.id = id ∧ s.strategy = .joined ∧ s.group = k := by
  rw [hg, List.mem_append, h.mem_joined k g' hg']
  constructor
  · rintro (⟨s, hs, hsid⟩ | hmem)
    · exact ⟨s, List.mem_append_left _ hs, hsid⟩
    · split at hmem
      · next hk =>
        exact ⟨r, List.mem_append_right _ (List.mem_singleton_self r),
          (List.mem_singleton.1 hmem).symm, hjoined, hk⟩
      · exact absurd hmem List.not_mem_nil
  · rintro ⟨s, hs, hsid, hsj, hsk⟩
    rcases List.mem_append.1 hs with hs | hs
    · exact Or.inl ⟨s, hs, hsid, hsj, hsk⟩
    · obtain rfl := List.mem_singleton.1 hs
      rw [if_pos hsk]
      exact Or.inr (List.mem_singleton.2 hsid.symm)

/-- One more relation comes after those that are joined. -/
theorem pairwise_join (h : IsGrouped relations groups) (hid : r.node.id = relations.length)
    {k : Nat} {g' : LoadGroup} (hg' : groups[k]? = some g') :
    (g'.joined ++ if r.group = k then [r.node.id] else []).Pairwise (· < ·) := by
  rw [List.pairwise_append]
  refine ⟨h.joined_sorted g' (List.mem_of_getElem? hg'), ?_, fun a ha b hb => ?_⟩
  · split
    · exact List.pairwise_singleton _ _
    · exact List.Pairwise.nil
  · obtain ⟨s, hs, rfl, -⟩ := (h.mem_joined k g' hg' a).1 ha
    split at hb
    · rw [List.mem_singleton.1 hb, hid]
      exact h.id_lt hs
    · exact absurd hb List.not_mem_nil

/-- The root of a group is one of the relations. -/
theorem root_lt (h : IsGrouped relations groups) {id : Nat}
    (hid : id ∈ groups.filterMap LoadGroup.root) : id < relations.length := by
  obtain ⟨g, hg, hroot⟩ := List.mem_filterMap.1 hid
  obtain ⟨k, hk⟩ := List.mem_iff_getElem?.1 hg
  have hne : k ≠ 0 := by
    rintro rfl
    have := h.primary.1
    rw [hk, Option.bind_some, hroot] at this
    exact nomatch this
  obtain ⟨s, hs, hsroot, -⟩ := h.followUp k g hk hne
  rw [hroot] at hsroot
  rw [Option.some.inj hsroot]
  exact h.id_lt hs

/-- One more relation changes the owners of none that is there. -/
theorem ownerGroup_concat (h : IsGrouped relations groups) {s : PlannedRelation}
    (hs : s ∈ relations) (r : PlannedRelation) :
    ownerGroup (relations ++ [r]) s.node = ownerGroup relations s.node :=
  ownerGroup_append (h.parentBelow hs) r

/-- A relation that was joined to the group of its owners still is. -/
theorem joined_of_owner_concat (h : IsGrouped relations groups) (r : PlannedRelation) :
    ∀ s ∈ relations, s.strategy = .joined →
      s.group = ownerGroup (relations ++ [r]) s.node ∧ s.node.relation.cardinality = .one := by
  intro s hs hjoined
  rw [h.ownerGroup_concat hs]
  exact h.joined_of_owner s hs hjoined

/-- A group that is there has the root and the wave that it had. -/
theorem followUp_concat (h : IsGrouped relations groups) (r : PlannedRelation) {k : Nat}
    {g : LoadGroup} (hg : groups[k]? = some g) (hk : k ≠ 0) :
    ∃ s ∈ relations ++ [r], g.root = some s.node.id ∧ s.strategy = .selectIn ∧ s.group = k ∧
      ∃ o, groups[ownerGroup (relations ++ [r]) s.node]? = some o ∧ g.wave = o.wave + 1 := by
  obtain ⟨s, hs, hroot, hselect, hgroup, o, ho, hwave⟩ := h.followUp k g hg hk
  refine ⟨s, List.mem_append_left _ hs, hroot, hselect, hgroup, o, ?_, hwave⟩
  rw [h.ownerGroup_concat hs]
  exact ho

/-- A group that is there has the parent that it had. The relation that is added is not its
    root, as its number is a new one. -/
theorem parentGroup_concat (h : IsGrouped relations groups)
    (hid : r.node.id = relations.length) {k : Nat} {g : LoadGroup} (hg : groups[k]? = some g) :
    ∀ s ∈ relations ++ [r], g.root = some s.node.id →
      g.parentGroup = some (ownerGroup (relations ++ [r]) s.node) ∧
        ownerGroup (relations ++ [r]) s.node < k := by
  refine List.forall_mem_append.2 ⟨fun s hs hroot => ?_,
    List.forall_mem_singleton.2 fun hroot => ?_⟩
  · rw [h.ownerGroup_concat hs]
    exact h.parentGroup k g hg s hs hroot
  · have hlt := h.root_lt (List.mem_filterMap.2 ⟨g, List.mem_of_getElem? hg, hroot⟩)
    exact absurd hid (Nat.ne_of_lt hlt)

/-- A relation that is joined to the group of its owners. -/
theorem join (h : IsGrouped relations groups) (hid : r.node.id = relations.length)
    (hparent : ParentBelow relations.length r.node) (hjoined : r.strategy = .joined)
    (hone : r.node.relation.cardinality = .one) (hgroup : r.group = ownerGroup relations r.node) :
    IsGrouped (relations ++ [r])
      (groups.modify r.group fun g => { g with joined := g.joined ++ [r.node.id] }) := by
  constructor
  case node_id => exact forall_getElem?_concat.2 ⟨h.node_id, hid⟩
  case parent_lt => exact forall_getElem?_concat.2 ⟨h.parent_lt, hparent⟩
  case group_lt =>
    rw [List.length_modify]
    refine List.forall_mem_append.2 ⟨h.group_lt, List.forall_mem_singleton.2 ?_⟩
    exact hgroup ▸ h.ownerGroup_lt r.node
  case joined_of_owner =>
    refine List.forall_mem_append.2 ⟨h.joined_of_owner_concat r,
      List.forall_mem_singleton.2 fun _ => ⟨?_, hone⟩⟩
    rw [ownerGroup_append hparent]
    exact hgroup
  case root_of_selectIn =>
    simp only [root_modify]
    refine List.forall_mem_append.2 ⟨h.root_of_selectIn,
      List.forall_mem_singleton.2 fun hselect => ?_⟩
    exact nomatch hjoined.symm.trans hselect
  case primary =>
    rw [root_modify, wave_modify]
    exact h.primary
  case index_eq =>
    intro k g hg
    obtain ⟨g', hg', -, -, hindex, -⟩ := exists_of_modify hg
    exact hindex.trans (h.index_eq k g' hg')
  case followUp =>
    intro k g hg hk
    obtain ⟨g', hg', hroot, hwave, -, -⟩ := exists_of_modify hg
    obtain ⟨s, hs, hsroot, hselect, hsgroup, o, ho, how⟩ := h.followUp_concat r hg' hk
    obtain ⟨o', ho', howave⟩ := Option.map_eq_some_iff.1
      ((wave_modify groups r.node.id _ r.group).trans (congrArg (Option.map LoadGroup.wave) ho))
    exact ⟨s, hs, hroot.trans hsroot, hselect, hsgroup, o', ho', by rw [hwave, how, howave]⟩
  case parentGroup =>
    intro k g hg s hs hsroot
    obtain ⟨g', hg', hroot, -, -, hparentGroup, -⟩ := exists_of_modify hg
    rw [hparentGroup]
    exact h.parentGroup_concat hid hg' s hs (hroot.symm.trans hsroot)
  case mem_joined =>
    intro k g hg id
    obtain ⟨g', hg', -, -, -, -, hj⟩ := exists_of_modify hg
    exact h.mem_joined_join hjoined hg' hj id
  case joined_sorted =>
    intro g hg
    obtain ⟨k, hk⟩ := List.mem_iff_getElem?.1 hg
    obtain ⟨g', hg', -, -, -, -, hj⟩ := exists_of_modify hk
    exact hj ▸ h.pairwise_join hid hg'
  case roots_sorted =>
    have hfilter := filterMap_modify LoadGroup.root
      (fun g => { g with joined := g.joined ++ [r.node.id] }) (fun _ => rfl) groups r.group
    exact hfilter ▸ h.roots_sorted

/-- A relation with a statement of its own is joined nowhere. -/
theorem mem_joined_follow (h : IsGrouped relations groups) (hselect : r.strategy = .selectIn)
    {g : LoadGroup} (hnone : g.joined = []) :
    ∀ (k : Nat) (g' : LoadGroup), (groups ++ [g])[k]? = some g' → ∀ (id : Nat), id ∈ g'.joined ↔
      ∃ s ∈ relations ++ [r], s.node.id = id ∧ s.strategy = .joined ∧ s.group = k := by
  have hmem : ∀ s ∈ relations ++ [r], s.strategy = .joined → s ∈ relations :=
    List.forall_mem_append.2 ⟨fun s hs _ => hs,
      List.forall_mem_singleton.2 fun hjoined => nomatch hselect.symm.trans hjoined⟩
  refine forall_getElem?_concat.2 ⟨fun k g' hg' id => ?_, fun id => ?_⟩
  · rw [h.mem_joined k g' hg']
    constructor
    · rintro ⟨s, hs, hsid⟩
      exact ⟨s, List.mem_append_left _ hs, hsid⟩
    · rintro ⟨s, hs, hsid, hsj, hsk⟩
      exact ⟨s, hmem s hs hsj, hsid, hsj, hsk⟩
  · rw [hnone]
    refine ⟨fun h => absurd h List.not_mem_nil, ?_⟩
    rintro ⟨s, hs, -, hsj, hsk⟩
    exact absurd hsk (Nat.ne_of_lt (h.group_lt s (hmem s hs hsj)))

/-- A relation with a statement of its own, in the wave after its owners. -/
theorem follow (h : IsGrouped relations groups) (hid : r.node.id = relations.length)
    (hparent : ParentBelow relations.length r.node) (hselect : r.strategy = .selectIn)
    (hgroup : r.group = groups.length) {g o : LoadGroup}
    (ho : groups[ownerGroup relations r.node]? = some o) (hindex : g.index = groups.length)
    (hroot : g.root = some r.node.id) (hwave : g.wave = o.wave + 1) (hnone : g.joined = [])
    (howners : g.parentGroup = some (ownerGroup relations r.node)) :
    IsGrouped (relations ++ [r]) (groups ++ [g]) := by
  have hlast : (groups ++ [g])[groups.length]? = some g := List.getElem?_concat_length
  have hbefore : ∀ k < groups.length, (groups ++ [g])[k]? = groups[k]? :=
    fun k hk => List.getElem?_append_left hk
  constructor
  case node_id => exact forall_getElem?_concat.2 ⟨h.node_id, hid⟩
  case parent_lt => exact forall_getElem?_concat.2 ⟨h.parent_lt, hparent⟩
  case group_lt =>
    rw [List.length_append, List.length_singleton]
    refine List.forall_mem_append.2 ⟨fun s hs => Nat.lt_succ_of_lt (h.group_lt s hs),
      List.forall_mem_singleton.2 ?_⟩
    exact hgroup ▸ Nat.lt_succ_self r.group
  case joined_of_owner =>
    refine List.forall_mem_append.2 ⟨h.joined_of_owner_concat r,
      List.forall_mem_singleton.2 fun hjoined => ?_⟩
    exact nomatch hselect.symm.trans hjoined
  case root_of_selectIn =>
    refine List.forall_mem_append.2 ⟨fun s hs hselect => ?_,
      List.forall_mem_singleton.2 fun _ => ?_⟩
    · rw [hbefore _ (h.group_lt s hs)]
      exact h.root_of_selectIn s hs hselect
    · rw [hgroup, hlast]
      exact hroot
  case primary =>
    rw [hbefore 0 h.length_pos]
    exact h.primary
  case index_eq => exact forall_getElem?_concat.2 ⟨h.index_eq, hindex⟩
  case followUp =>
    refine forall_getElem?_concat.2 ⟨fun k g' hg' hk => ?_, fun _ => ?_⟩
    · obtain ⟨s, hs, hsroot, hss, hsk, o, ho, how⟩ := h.followUp_concat r hg' hk
      refine ⟨s, hs, hsroot, hss, hsk, o, ?_, how⟩
      rw [hbefore _ (List.getElem?_eq_some_iff.1 ho).1]
      exact ho
    · refine ⟨r, List.mem_append_right _ (List.mem_singleton_self r), hroot, hselect, hgroup,
        o, ?_, hwave⟩
      rw [ownerGroup_append hparent, hbefore _ (h.ownerGroup_lt _)]
      exact ho
  case parentGroup =>
    refine forall_getElem?_concat.2 ⟨fun k g' hg' => h.parentGroup_concat hid hg',
      List.forall_mem_append.2 ⟨fun s hs hsroot => ?_,
        List.forall_mem_singleton.2 fun _ => ?_⟩⟩
    -- No relation before is the root of the new group, whose number is a new one.
    · have heq := Option.some.inj (hroot.symm.trans hsroot)
      exact absurd (heq.symm.trans hid) (Nat.ne_of_lt (h.id_lt hs))
    · rw [ownerGroup_append hparent]
      exact ⟨howners, h.ownerGroup_lt _⟩
  case mem_joined => exact h.mem_joined_follow hselect hnone
  case joined_sorted =>
    refine List.forall_mem_append.2 ⟨h.joined_sorted, List.forall_mem_singleton.2 ?_⟩
    exact hnone ▸ List.Pairwise.nil
  case roots_sorted =>
    rw [List.filterMap_append, List.filterMap_cons_some hroot, List.filterMap_nil,
      List.pairwise_append]
    refine ⟨h.roots_sorted, List.pairwise_singleton _ _, fun a ha => ?_⟩
    exact List.forall_mem_singleton.2 (hid ▸ h.root_lt ha)

end IsGrouped

/-! ### Selection -/

namespace StrategyDefaults

variable {d : StrategyDefaults}

/-- Only a relation to one row is joined. -/
theorem cardinality_of_choose {joining : List (Option Nat)} {groupRoot : Option Nat} {n : Node}
    (h : (d.choose joining groupRoot n).1 = .joined) : n.relation.cardinality = .one := by
  cases hc : n.relation.cardinality with
  | one => rfl
  | many =>
    rw [choose, ruling, hc] at h
    exact nomatch h

/-- Placing a node keeps relations and groups in agreement. -/
theorem isGrouped_place {joining : List (Option Nat)} {s : Selection} {n : Node}
    (h : IsGrouped s.relations s.groups) (hid : n.id = s.relations.length)
    (hparent : ParentBelow s.relations.length n) :
    IsGrouped (d.place joining s n).relations (d.place joining s n).groups := by
  have howner : s.ownerGroup n = ownerGroup s.relations n := rfl
  obtain ⟨o, ho⟩ : ∃ o, s.groups[s.ownerGroup n]? = some o :=
    ⟨_, List.getElem?_eq_getElem (h.ownerGroup_lt n)⟩
  simp only [place]
  split
  · next hchoose =>
    exact h.join hid hparent hchoose (cardinality_of_choose hchoose) rfl
  · next hchoose =>
    refine h.follow hid hparent hchoose rfl ho rfl rfl ?_ rfl rfl
    rw [ho]
    rfl

/-- The relations of a selection have the nodes that were placed. -/
theorem map_node_place (joining : List (Option Nat)) (s : Selection) (n : Node) :
    (d.place joining s n).relations.map PlannedRelation.node =
      s.relations.map PlannedRelation.node ++ [n] := by
  simp only [place]
  split <;> simp

/-- A selected plan loads the nodes of the graph, in groups that agree, and has whatever
    placing a node keeps. -/
theorem select_induct (d : StrategyDefaults) {g : Graph}
    (hid : ∀ (i : Nat) (n : Node), g.nodes[i]? = some n → n.id = i)
    (hparent : ∀ n ∈ g.nodes, ParentBelow n.id n)
    {P : List PlannedRelation → List LoadGroup → Prop} (start : P [] [.primary])
    (step : ∀ (s : Selection) (n : Node), IsGrouped s.relations s.groups →
      ParentBelow s.relations.length n → P s.relations s.groups →
      P (d.place (d.joiningRoots g.nodes) s n).relations
        (d.place (d.joiningRoots g.nodes) s n).groups) :
    (d.select g).relations.map PlannedRelation.node = g.nodes ∧
      IsGrouped (d.select g).relations (d.select g).groups ∧
      P (d.select g).relations (d.select g).groups := by
  have hplaced : g.nodes <+: g.nodes →
      (d.select g).relations.map PlannedRelation.node = g.nodes ∧
        IsGrouped (d.select g).relations (d.select g).groups ∧
        P (d.select g).relations (d.select g).groups := by
    refine foldl_induct (fun before (s : Selection) => before <+: g.nodes →
      s.relations.map PlannedRelation.node = before ∧ IsGrouped s.relations s.groups ∧
        P s.relations s.groups)
      (fun _ => ⟨rfl, .start, start⟩) ?_
    intro before n s hn ih hpre
    obtain ⟨hmap, hgrouped, hP⟩ := ih ((List.prefix_append before [n]).trans hpre)
    -- As many are placed as nodes were before, so that the node gets the next number.
    have hlength : s.relations.length = before.length := by rw [← hmap, List.length_map]
    have hplace : g.nodes[before.length]? = some n := by
      obtain ⟨rest, hrest⟩ := hpre
      rw [List.append_assoc, List.singleton_append] at hrest
      exact getElem?_of_append_cons hrest
    have hn_id := hid before.length n hplace
    have hbelow : ParentBelow s.relations.length n := by
      rw [hlength, ← hn_id]
      exact hparent n hn
    exact ⟨by rw [map_node_place, hmap], isGrouped_place hgrouped (hn_id.trans hlength.symm) hbelow,
      step s n hgrouped hbelow hP⟩
  exact hplaced (List.prefix_refl _)

/-- A selected plan loads the nodes of the graph, in groups that agree. -/
theorem isGrouped_select (d : StrategyDefaults) {g : Graph}
    (hid : ∀ (i : Nat) (n : Node), g.nodes[i]? = some n → n.id = i)
    (hparent : ∀ n ∈ g.nodes, ParentBelow n.id n) :
    (d.select g).relations.map PlannedRelation.node = g.nodes ∧
      IsGrouped (d.select g).relations (d.select g).groups :=
  have h := d.select_induct hid hparent (P := fun _ _ => True) trivial fun _ _ _ _ _ => trivial
  ⟨h.1, h.2.1⟩

end StrategyDefaults

namespace LoadPlan

/-- A plan for the relations of a tree below an entity. -/
structure IsSelected (c : Catalog) (root : Entity) (p : LoadPlan) : Prop where
  entity : c.entity p.root = .ok root
  tree : Graph.IsTree Graph.IsOwned c root (p.relations.map PlannedRelation.node)
  isGrouped : IsGrouped p.relations p.groups

variable {c : Catalog} {root : Entity} {p : LoadPlan}

/-- The plan for a resolved graph is one for its tree. -/
theorem isSelected_of_resolve (d : StrategyDefaults) {maxDepth : Nat} {name : String}
    {paths : List RelationPath} {g : Graph} (hdot : ∀ p ∈ paths, ∀ n ∈ p.segments, IsDotFree n)
    (h : Graph.resolve c maxDepth name paths = .ok g) :
    ∃ root, (d.select g).IsSelected c root := by
  obtain ⟨root, hroot, htree, rfl, -⟩ := Graph.isTree_of_resolve hdot h
  obtain ⟨hmap, hgrouped⟩ := d.isGrouped_select htree.id_eq htree.parentBelow
  exact ⟨root, hroot, hmap ▸ htree, hgrouped⟩

/-- Every step of a path that is asked for is a relation of the plan. -/
theorem exists_of_step (d : StrategyDefaults) {maxDepth : Nat} {name : String}
    {paths : List RelationPath} {g : Graph} (hdot : ∀ p ∈ paths, ∀ n ∈ p.segments, IsDotFree n)
    (h : Graph.resolve c maxDepth name paths = .ok g) {path : RelationPath} (hpath : path ∈ paths)
    {step : List String} (hne : step ≠ []) (hstep : step <+: path.segments) :
    ∃ r ∈ (d.select g).relations, r.node.names = step := by
  obtain ⟨_, -, htree, -, hsteps⟩ := Graph.isTree_of_resolve hdot h
  obtain ⟨n, hn, rfl⟩ := hsteps path hpath step hne hstep
  have hmap := (d.isGrouped_select htree.id_eq htree.parentBelow).1
  obtain ⟨r, hr, rfl⟩ := List.mem_map.1 (hmap ▸ hn)
  exact ⟨r, hr, rfl⟩

/-- A relation of the plan is loaded below another one, or below the root. -/
theorem IsSelected.exists_parent (h : p.IsSelected c root) {r : PlannedRelation}
    (hr : r ∈ p.relations) :
    ∃ parent : Option PlannedRelation, (∀ q ∈ parent, q ∈ p.relations) ∧
      Graph.IsChild Graph.IsOwned c root (p.relations.map PlannedRelation.node)
        (parent.map PlannedRelation.node) r.node := by
  obtain ⟨parent, hchild⟩ := h.tree.child r.node (List.mem_map_of_mem hr)
  cases parent with
  | none => exact ⟨none, fun _ h => absurd h (Option.not_mem_none _), hchild⟩
  | some m =>
    obtain ⟨q, hq, rfl⟩ := List.mem_map.1 (hchild.mem m rfl)
    exact ⟨some q, fun _ h => Option.some.inj h ▸ hq, hchild⟩

/-- The entity at which relations start is one of the catalog. -/
theorem IsSelected.mem_entities (h : p.IsSelected c root) {parent : Option Node} {e : Entity}
    (he : Graph.StartsAt c root parent e) : e ∈ c.entities := by
  cases parent with
  | none =>
    obtain rfl : e = root := he
    exact (Catalog.entity_eq_ok h.entity).1
  | some m => exact (Catalog.entity_eq_ok he).1

/-- A relation starts at the root or where the one before it leads. -/
theorem IsSelected.exists_owner (h : p.IsSelected c root) (hc : c.IsSound) {r : PlannedRelation}
    (hr : r ∈ p.relations) : ∃ e, c.entity r.node.relation.owner = .ok e ∧
      r.node.relation ∈ e.relations ∧ e ∈ c.entities ∧
        (r.node.parent = none ∧ r.node.ancestors = [] ∧ e = root ∨
          ∃ m ∈ p.relations, r.node.parent = some m.node.id ∧
            r.node.ancestors = m.node.chain ∧ c.entity m.node.relation.target = .ok e) := by
  obtain ⟨parent, hmem, hchild⟩ := h.exists_parent hr
  obtain ⟨e, hstart, hedge⟩ := hchild.relation
  have he := h.mem_entities hstart
  have howner : c.entity r.node.relation.owner = .ok e := by
    rw [hc.owner_eq e he _ hedge]
    exact hc.entity_name e he
  refine ⟨e, howner, hedge, he, ?_⟩
  cases parent with
  | none => exact Or.inl ⟨hchild.parent_eq, hchild.ancestors_eq, hstart⟩
  | some m => exact Or.inr ⟨m, hmem m rfl, hchild.parent_eq, hchild.ancestors_eq, hstart⟩

/-- What holds of a relation if it holds of the one before holds of all relations. -/
theorem IsSelected.induct (h : p.IsSelected c root) {P : PlannedRelation → Prop}
    (step : ∀ r ∈ p.relations,
      (∀ m ∈ p.relations, r.node.parent = some m.node.id → P m) → P r) :
    ∀ r ∈ p.relations, P r := by
  have hnodes := h.tree.induct (P := fun n => ∀ r ∈ p.relations, r.node = n → P r)
    fun n _ parent hchild ih r hr hnode => by
      subst hnode
      refine step r hr fun m hm hparent => ?_
      rw [hchild.parent_eq] at hparent
      obtain ⟨q, hq, hid⟩ := Option.map_eq_some_iff.1 hparent
      obtain ⟨m', hm', rfl⟩ := List.mem_map.1 (hchild.mem q hq)
      obtain rfl := h.isGrouped.eq_of_id hm hm' hid.symm
      exact ih _ hq m hm rfl
  exact fun r hr => hnodes r.node (List.mem_map_of_mem hr) r hr rfl

/-- No two relations of a plan have the same path. -/
theorem IsSelected.eq_of_path (h : p.IsSelected c root) {q r : PlannedRelation}
    (hq : q ∈ p.relations) (hr : r ∈ p.relations) (heq : q.path = r.path) : q = r := by
  have hnode := h.tree.eq_of_path (List.mem_map_of_mem hq) (List.mem_map_of_mem hr) heq
  exact h.isGrouped.eq_of_id hq hr (congrArg Node.id hnode)

end LoadPlan

end EntityFetch
