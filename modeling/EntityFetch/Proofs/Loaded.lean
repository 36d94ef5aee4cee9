import EntityFetch.Proofs.Plan
import Mathlib.Order.Bounds.Defs

/-!
# The order of loading

The groups of a plan are loaded wave by wave, that of the root first
(`LoadPlan.order`), and with each group its relations (`LoadPlan.loaded`). Every relation
is loaded once (`LoadPlan.IsSelected.perm_loaded`), and none before the one below which it
hangs (`LoadPlan.IsSelected.pairwise_loaded`): it is in the same group, or in one of an
earlier wave (`LoadPlan.IsSelected.waveOf_parent`).
-/

namespace EntityFetch

namespace LoadPlan

/-- The wave of a group. -/
def waveOf (p : LoadPlan) (k : Nat) : Nat :=
  (p.groups[k]?.map LoadGroup.wave).getD 0

/-- The groups in the order in which they are loaded. -/
def order (p : LoadPlan) : List Nat :=
  0 :: p.waves.flatten

/-- The relations of a group, that at its root first. -/
def groupRelations (p : LoadPlan) (k : Nat) : List PlannedRelation :=
  ((p.groups[k]?.map fun g => g.root.toList ++ g.joined).getD []).filterMap p.relation?

/-- The relations in the order in which they are loaded. -/
def loaded (p : LoadPlan) : List PlannedRelation :=
  p.order.flatMap p.groupRelations

/-- The last wave is the greatest of those of the groups. -/
theorem isGreatest_foldl_wave (groups : List LoadGroup) (w : Nat) :
    IsGreatest (insert w {v | ∃ g ∈ groups, g.wave = v})
      (groups.foldl (fun w g => max w g.wave) w) := by
  induction groups generalizing w with
  | nil =>
    refine ⟨Or.inl rfl, ?_⟩
    rintro v (rfl | ⟨g, hg, -⟩)
    · exact Nat.le_refl v
    · exact absurd hg List.not_mem_nil
  | cons g groups ih =>
    obtain ⟨hmem, hle⟩ := ih (max w g.wave)
    have hmax := hle (Or.inl rfl)
    constructor
    · rcases hmem with heq | ⟨g', hg', heq⟩
      · rw [List.foldl_cons, heq]
        rcases Nat.le_total g.wave w with hless | hless
        · exact Or.inl (Nat.max_eq_left hless)
        · exact Or.inr ⟨g, List.mem_cons_self, (Nat.max_eq_right hless).symm⟩
      · exact Or.inr ⟨g', List.mem_cons_of_mem g hg', heq⟩
    · rintro v (rfl | ⟨g', hg', rfl⟩)
      · exact Nat.le_trans (Nat.le_max_left ..) hmax
      · rcases List.mem_cons.1 hg' with rfl | hg'
        · exact Nat.le_trans (Nat.le_max_right ..) hmax
        · exact hle (Or.inr ⟨g', hg', rfl⟩)

theorem wave_le_lastWave {p : LoadPlan} {g : LoadGroup} (h : g ∈ p.groups) :
    g.wave ≤ p.lastWave :=
  (isGreatest_foldl_wave p.groups 0).2 (Or.inr ⟨g, h, rfl⟩)

namespace IsSelected

variable {c : Catalog} {root : Entity} {p : LoadPlan} {k k' : Nat} {r q : PlannedRelation}

theorem waveOf_zero (h : p.IsSelected c root) : p.waveOf 0 = 0 := by
  rw [waveOf, h.isGrouped.primary.2]
  rfl

/-- Only the first group has no relation at its root. -/
theorem root_eq_none_iff (h : p.IsSelected c root) {g : LoadGroup}
    (hg : p.groups[k]? = some g) :
    g.root = none ↔ k = 0 := by
  constructor
  · intro hnone
    by_contra hne
    obtain ⟨r, -, hroot, -⟩ := h.isGrouped.followUp k g hg hne
    cases hnone.symm.trans hroot
  · rintro rfl
    have hprimary := h.isGrouped.primary.1
    rwa [hg] at hprimary

/-- The root of a group that is not the first has a statement of its own, one wave after
    its owners. -/
theorem exists_root (h : p.IsSelected c root) (hk : k < p.groups.length) (hne : k ≠ 0) :
    ∃ g r, p.groups[k]? = some g ∧ r ∈ p.relations ∧ g.root = some r.node.id ∧
      r.strategy = .selectIn ∧ r.group = k ∧
        p.waveOf k = p.waveOf (ownerGroup p.relations r.node) + 1 := by
  obtain ⟨g, hg⟩ : ∃ g, p.groups[k]? = some g := ⟨_, List.getElem?_eq_getElem hk⟩
  obtain ⟨r, hr, hroot, hselect, hgroup, o, ho, hwave⟩ := h.isGrouped.followUp k g hg hne
  refine ⟨g, r, hg, hr, hroot, hselect, hgroup, ?_⟩
  rw [waveOf, waveOf, hg, ho]
  exact hwave

/-- A group that is not the first is in a later wave. -/
theorem waveOf_pos (h : p.IsSelected c root) (hk : k < p.groups.length) (hne : k ≠ 0) :
    0 < p.waveOf k := by
  obtain ⟨_, _, -, -, -, -, -, hwave⟩ := h.exists_root hk hne
  rw [hwave]
  exact Nat.succ_pos _

/-- The groups of a wave. -/
theorem mem_wave (h : p.IsSelected c root) {w : Nat} :
    k ∈ (p.groups.filter (·.wave == w)).map LoadGroup.index ↔
      k < p.groups.length ∧ p.waveOf k = w := by
  rw [List.mem_map]
  constructor
  · rintro ⟨g, hg, rfl⟩
    obtain ⟨hg, hwave⟩ := List.mem_filter.1 hg
    obtain ⟨i, hi⟩ := List.mem_iff_getElem?.1 hg
    rw [h.isGrouped.index_eq i g hi, waveOf, hi]
    exact ⟨(List.getElem?_eq_some_iff.1 hi).1, eq_of_beq hwave⟩
  · rintro ⟨hk, rfl⟩
    have hg := List.getElem?_eq_getElem hk
    refine ⟨p.groups[k], List.mem_filter.2 ⟨List.getElem_mem hk, ?_⟩,
      h.isGrouped.index_eq k _ hg⟩
    rw [waveOf, hg]
    exact beq_self_eq_true _

/-- All groups of a wave have its number, and none is that of the root. -/
theorem exists_waveOf (h : p.IsSelected c root) {wave : List Nat} (hwave : wave ∈ p.waves) :
    ∃ w, ∀ k ∈ wave, k < p.groups.length ∧ k ≠ 0 ∧ p.waveOf k = w + 1 := by
  obtain ⟨w, -, rfl⟩ := List.mem_map.1 hwave
  refine ⟨w, fun k hk => ?_⟩
  obtain ⟨hlt, hwave⟩ := h.mem_wave.1 hk
  refine ⟨hlt, ?_, hwave⟩
  rintro rfl
  cases h.waveOf_zero.symm.trans hwave

/-- Every group is loaded, and nothing else. -/
theorem mem_order (h : p.IsSelected c root) : k ∈ p.order ↔ k < p.groups.length := by
  rw [order, List.mem_cons, waves, ← List.flatMap_def, List.mem_flatMap]
  constructor
  · rintro (rfl | ⟨w, -, hk⟩)
    · exact h.isGrouped.length_pos
    · exact (h.mem_wave.1 hk).1
  · intro hk
    by_cases hne : k = 0
    · exact Or.inl hne
    · have hpos := h.waveOf_pos hk hne
      have hle : p.waveOf k ≤ p.lastWave := by
        rw [waveOf, List.getElem?_eq_getElem hk]
        exact wave_le_lastWave (List.getElem_mem hk)
      refine Or.inr ⟨p.waveOf k - 1, List.mem_range.2 (by omega), h.mem_wave.2 ⟨hk, by omega⟩⟩

/-- The groups are loaded wave by wave, and those of a wave one after the other. -/
theorem pairwise_order (h : p.IsSelected c root) : p.order.Pairwise fun k k' =>
    p.waveOf k < p.waveOf k' ∨ p.waveOf k = p.waveOf k' ∧ k < k' := by
  have hindex : p.groups.Pairwise fun g g' => g.index < g'.index := by
    rw [List.pairwise_iff_getElem]
    intro i j hi hj hlt
    rw [h.isGrouped.index_eq i _ (List.getElem?_eq_getElem hi),
      h.isGrouped.index_eq j _ (List.getElem?_eq_getElem hj)]
    exact hlt
  rw [order, List.pairwise_cons, waves, ← List.flatMap_def, List.pairwise_flatMap]
  refine ⟨fun k hk => Or.inl ?_, fun w _ => ?_, ?_⟩
  · obtain ⟨w, -, hk⟩ := List.mem_flatMap.1 hk
    rw [h.waveOf_zero, (h.mem_wave.1 hk).2]
    exact Nat.succ_pos w
  · have hsorted : ((p.groups.filter (·.wave == w + 1)).map LoadGroup.index).Pairwise (· < ·) :=
      List.pairwise_map.2 (hindex.filter _)
    refine hsorted.imp_of_mem fun {k k'} hk hk' hlt => Or.inr ⟨?_, hlt⟩
    rw [(h.mem_wave.1 hk).2, (h.mem_wave.1 hk').2]
  · refine List.pairwise_lt_range.imp fun {w w'} hlt k hk k' hk' => Or.inl ?_
    rw [(h.mem_wave.1 hk).2, (h.mem_wave.1 hk').2]
    exact Nat.succ_lt_succ hlt

/-- What is loaded later is in no earlier wave. -/
theorem waveOf_le_of_order (h : p.IsSelected c root) {before after : List Nat}
    (horder : p.order = before ++ after) (hk : k ∈ before) {k' : Nat} (hk' : k' ∈ after) :
    p.waveOf k ≤ p.waveOf k' := by
  have hpairs := h.pairwise_order
  rw [horder, List.pairwise_append] at hpairs
  rcases hpairs.2.2 k hk k' hk' with hlt | ⟨heq, -⟩
  · exact Nat.le_of_lt hlt
  · exact Nat.le_of_eq heq

theorem nodup_order (h : p.IsSelected c root) : p.order.Nodup :=
  h.pairwise_order.imp fun {k k'} hlt heq => by
    subst heq
    exact hlt.elim (Nat.lt_irrefl _) fun h => Nat.lt_irrefl _ h.2

/-- No group is loaded twice in a wave. -/
theorem nodup_of_mem_waves (h : p.IsSelected c root) : ∀ wave ∈ p.waves, wave.Nodup := by
  have hflat : p.waves.flatten.Nodup := (List.nodup_cons.1 h.nodup_order).2
  exact fun wave hwave => hflat.sublist (List.sublist_flatten_of_mem hwave)

/-! ### Relations -/

theorem exists_group (h : p.IsSelected c root) (hr : r ∈ p.relations) :
    ∃ g, p.groups[r.group]? = some g :=
  ⟨_, List.getElem?_eq_getElem (h.isGrouped.group_lt r hr)⟩

/-- The relation at the root of a group has a statement of its own. -/
theorem selectIn_of_root (h : p.IsSelected c root) {g : LoadGroup} (hg : p.groups[k]? = some g)
    {id : Nat} (hid : g.root = some id) (hr : p.relation? id = some r) :
    r.strategy = .selectIn ∧ r.group = k := by
  have hne : k ≠ 0 := by
    rintro rfl
    have hnone := h.isGrouped.primary.1
    rw [hg, Option.bind_some] at hnone
    exact nomatch hnone.symm.trans hid
  obtain ⟨g', r', hg', hr', hroot, hselect, hgroup, -⟩ :=
    h.exists_root (List.getElem?_eq_some_iff.1 hg).1 hne
  obtain rfl := Option.some.inj (hg.symm.trans hg')
  obtain rfl := h.isGrouped.eq_of_id hr' (List.mem_of_getElem? hr)
    ((Option.some.inj (hroot.symm.trans hid)).trans (h.isGrouped.node_id id r hr).symm)
  exact ⟨hselect, hgroup⟩

/-- The other relations of a group are joined. -/
theorem joined_of_mem (h : p.IsSelected c root) {g : LoadGroup} (hg : p.groups[k]? = some g)
    {id : Nat} (hid : id ∈ g.joined) (hr : p.relation? id = some r) :
    r.strategy = .joined ∧ r.group = k := by
  obtain ⟨r', hr', hid', hjoined, hgroup⟩ := (h.isGrouped.mem_joined k g hg id).1 hid
  obtain rfl := h.isGrouped.eq_of_id hr' (List.mem_of_getElem? hr)
    (hid'.trans (h.isGrouped.node_id id r hr).symm)
  exact ⟨hjoined, hgroup⟩

/-- The relations of a group. -/
theorem mem_groupRelations (h : p.IsSelected c root) :
    r ∈ p.groupRelations k ↔ r ∈ p.relations ∧ r.group = k := by
  rw [groupRelations, List.mem_filterMap]
  constructor
  · rintro ⟨id, hid, hr⟩
    refine ⟨List.mem_of_getElem? hr, ?_⟩
    cases hg : p.groups[k]? with
    | none => simp [hg] at hid
    | some g =>
      -- The relation at the root of the group, or one that is joined to it.
      rw [hg, Option.map_some, Option.getD_some, List.mem_append, Option.mem_toList] at hid
      rcases hid with hid | hid
      · exact (h.selectIn_of_root hg hid hr).2
      · exact (h.joined_of_mem hg hid hr).2
  · rintro ⟨hr, rfl⟩
    obtain ⟨g, hg⟩ := h.exists_group hr
    refine ⟨r.node.id, ?_, h.isGrouped.getElem?_id hr⟩
    rw [hg, Option.map_some, Option.getD_some, List.mem_append, Option.mem_toList]
    cases hs : r.strategy with
    | joined => exact Or.inr ((h.isGrouped.mem_joined _ g hg _).2 ⟨r, hr, rfl, hs, rfl⟩)
    | selectIn =>
      have hroot := h.isGrouped.root_of_selectIn r hr hs
      rw [hg] at hroot
      exact Or.inl hroot

/-- The relations with statements of their own are told apart by their groups. -/
theorem eq_of_group (h : p.IsSelected c root) (hr : r ∈ p.relations) (hq : q ∈ p.relations)
    (hrselect : r.strategy = .selectIn) (hqselect : q.strategy = .selectIn)
    (hgroup : r.group = q.group) : r = q := by
  have hroot := h.isGrouped.root_of_selectIn r hr hrselect
  rw [hgroup, h.isGrouped.root_of_selectIn q hq hqselect, Option.some.injEq] at hroot
  exact h.isGrouped.eq_of_id hr hq hroot.symm

/-- The group of a relation with a statement of its own is not the first. -/
theorem group_ne_zero (h : p.IsSelected c root) (hr : r ∈ p.relations)
    (hselect : r.strategy = .selectIn) : r.group ≠ 0 := by
  intro hzero
  have hroot := h.isGrouped.root_of_selectIn r hr hselect
  rw [hzero, h.isGrouped.primary.1] at hroot
  exact nomatch hroot

/-- The group of a relation is that of its owners or in the wave after it. -/
theorem waveOf_ownerGroup (h : p.IsSelected c root) (hr : r ∈ p.relations) :
    r.strategy = .joined ∧ r.group = ownerGroup p.relations r.node ∨
      r.strategy = .selectIn ∧ p.waveOf r.group =
        p.waveOf (ownerGroup p.relations r.node) + 1 := by
  cases hs : r.strategy with
  | joined => exact Or.inl ⟨rfl, (h.isGrouped.joined_of_owner r hr hs).1⟩
  | selectIn =>
    obtain ⟨_, r', -, hr', -, hs', hgroup, hwave⟩ :=
      h.exists_root (h.isGrouped.group_lt r hr) (h.group_ne_zero hr hs)
    exact Or.inr ⟨rfl, h.eq_of_group hr' hr hs' hs hgroup ▸ hwave⟩

/-- The owners of a relation are loaded where its parent is. -/
theorem ownerGroup_eq (h : p.IsSelected c root) (hq : q ∈ p.relations)
    (hparent : r.node.parent = some q.node.id) : ownerGroup p.relations r.node = q.group := by
  rw [ownerGroup, hparent, Option.bind_some, h.isGrouped.getElem?_id hq]
  rfl

/-- The group of a relation is that of its parent or in the wave after it. -/
theorem waveOf_parent (h : p.IsSelected c root) (hr : r ∈ p.relations) (hq : q ∈ p.relations)
    (hparent : r.node.parent = some q.node.id) :
    r.strategy = .joined ∧ r.group = q.group ∨
      r.strategy = .selectIn ∧ p.waveOf r.group = p.waveOf q.group + 1 :=
  h.ownerGroup_eq hq hparent ▸ h.waveOf_ownerGroup hr

/-- A relation above another one is its parent or above it. -/
theorem exists_parent_of_prefix (h : p.IsSelected c root) (hr : r ∈ p.relations)
    (hway : q.node.chain.map Relation.name <+: r.node.ancestors.map Relation.name) :
    ∃ m ∈ p.relations, r.node.parent = some m.node.id ∧
      q.node.chain.map Relation.name <+: m.node.chain.map Relation.name := by
  obtain ⟨parent, hmem, hchild⟩ := h.exists_parent hr
  rw [hchild.ancestors_eq] at hway
  rcases parent with _ | m
  · exact absurd (List.map_eq_nil_iff.1 (List.prefix_nil.1 hway)) q.node.chain_ne_nil
  · exact ⟨m, hmem m rfl, hchild.parent_eq, hway⟩

/-- A relation is loaded no earlier than those on the way to it. -/
theorem waveOf_le_of_prefix (h : p.IsSelected c root) (hq : q ∈ p.relations)
    (hr : r ∈ p.relations)
    (hway : q.node.chain.map Relation.name <+: r.node.chain.map Relation.name) :
    p.waveOf q.group ≤ p.waveOf r.group := by
  refine h.induct (P := fun r => q.node.chain.map Relation.name <+:
    r.node.chain.map Relation.name → p.waveOf q.group ≤ p.waveOf r.group)
    (fun r hr ih hway => ?_) r hr hway
  have hchain : r.node.chain.map Relation.name =
      r.node.ancestors.map Relation.name ++ [r.node.relation.name] := by
    rw [Node.chain, List.map_append, List.map_singleton]
  rcases List.prefix_concat_iff.1 (hchain ▸ hway) with heq | habove
  · -- There is one relation at the end of a path.
    exact Nat.le_of_eq <| congrArg (fun r => p.waveOf (PlannedRelation.group r)) <|
      h.eq_of_path hq hr (congrArg dotted (heq.trans hchain.symm))
  · obtain ⟨m, hm, hparent, habove⟩ := h.exists_parent_of_prefix hr habove
    have hle := ih m hm hparent habove
    rcases h.waveOf_parent hr hm hparent with ⟨-, hsame⟩ | ⟨-, hwave⟩
    · rwa [hsame]
    · omega

/-- A relation with a statement of its own is loaded later than those before it. -/
theorem waveOf_lt_of_prefix (h : p.IsSelected c root) (hq : q ∈ p.relations)
    (hr : r ∈ p.relations) (hselect : r.strategy = .selectIn)
    (hway : q.node.chain.map Relation.name <+: r.node.ancestors.map Relation.name) :
    p.waveOf q.group < p.waveOf r.group := by
  obtain ⟨m, hm, hparent, hway⟩ := h.exists_parent_of_prefix hr hway
  have hle := h.waveOf_le_of_prefix hq hm hway
  rcases h.waveOf_parent hr hm hparent with ⟨hjoined, -⟩ | ⟨-, hwave⟩
  · cases hselect.symm.trans hjoined
  · omega

/-- No relation of a group is loaded before its parent. -/
theorem pairwise_groupRelations (h : p.IsSelected c root) :
    (p.groupRelations k).Pairwise fun a b => a ≠ b ∧ a.node.parent ≠ some b.node.id := by
  cases hg : p.groups[k]? with
  | none =>
    rw [groupRelations, hg]
    exact List.Pairwise.nil
  | some g =>
    have hid : ∀ {id : Nat} {r : PlannedRelation}, p.relation? id = some r → r.node.id = id :=
      fun hr => h.isGrouped.node_id _ _ hr
    rw [groupRelations, hg, Option.map_some, Option.getD_some, List.pairwise_filterMap,
      List.pairwise_append]
    refine ⟨?_, ?_, fun i hi j hj a ha b hb => ?_⟩
    · cases g.root with
      | none => exact List.Pairwise.nil
      | some i => exact List.pairwise_singleton _ _
    -- Parents have smaller numbers.
    · refine (h.isGrouped.joined_sorted g (List.mem_of_getElem? hg)).imp fun hlt a ha b hb => ?_
      refine ⟨fun heq => ?_, fun hparent => ?_⟩
      · rw [← hid ha, ← hid hb, heq] at hlt
        exact Nat.lt_irrefl _ hlt
      · have hbelow := h.isGrouped.parent_lt _ a ha _ hparent
        rw [hid hb] at hbelow
        omega
    -- The parent of the root is in another group.
    · obtain ⟨hselect, hak⟩ := h.selectIn_of_root hg (Option.mem_toList.1 hi) ha
      obtain ⟨hjoined, hbk⟩ := h.joined_of_mem hg hj hb
      refine ⟨fun heq => ?_, fun hparent => ?_⟩
      · rw [heq, hjoined] at hselect
        exact nomatch hselect
      · rcases h.waveOf_parent (List.mem_of_getElem? ha) (List.mem_of_getElem? hb) hparent with
          ⟨hsame, -⟩ | ⟨-, hwave⟩
        · exact nomatch hsame.symm.trans hselect
        · rw [hak, hbk] at hwave
          omega

/-- No relation is loaded twice or before its parent. -/
theorem pairwise_loaded (h : p.IsSelected c root) :
    p.loaded.Pairwise fun a b => a ≠ b ∧ a.node.parent ≠ some b.node.id := by
  rw [loaded, List.pairwise_flatMap]
  refine ⟨fun k _ => h.pairwise_groupRelations, h.pairwise_order.imp fun {k k'} hlt a ha b hb => ?_⟩
  obtain ⟨ha', rfl⟩ := h.mem_groupRelations.1 ha
  obtain ⟨hb', rfl⟩ := h.mem_groupRelations.1 hb
  refine ⟨fun heq => ?_, fun hparent => ?_⟩
  · subst heq
    exact hlt.elim (Nat.lt_irrefl _) fun h => Nat.lt_irrefl _ h.2
  · rcases h.waveOf_parent ha' hb' hparent with ⟨-, hgroup⟩ | ⟨-, hwave⟩
    · rw [hgroup] at hlt
      exact hlt.elim (Nat.lt_irrefl _) fun h => Nat.lt_irrefl _ h.2
    · omega

theorem mem_loaded (h : p.IsSelected c root) : r ∈ p.loaded ↔ r ∈ p.relations := by
  rw [loaded, List.mem_flatMap]
  constructor
  · rintro ⟨k, -, hr⟩
    exact (h.mem_groupRelations.1 hr).1
  · exact fun hr => ⟨r.group, h.mem_order.2 (h.isGrouped.group_lt r hr),
      h.mem_groupRelations.2 ⟨hr, rfl⟩⟩

theorem nodup_relations (h : p.IsSelected c root) : p.relations.Nodup := by
  have hpaths := h.tree.path_nodup
  rw [List.map_map] at hpaths
  exact List.Nodup.of_map _ hpaths

/-- Every relation is loaded, and once. -/
theorem perm_loaded (h : p.IsSelected c root) : p.loaded.Perm p.relations := by
  have hloaded : p.loaded.Nodup := h.pairwise_loaded.imp And.left
  exact (List.perm_ext_iff_of_nodup hloaded h.nodup_relations).2 fun _ => h.mem_loaded

end IsSelected

end LoadPlan

end EntityFetch
