import EntityFetch.Proofs.Local

/-!
# The shape of what is loaded

What a fetch gives has the shape of its plan, whatever the rows are that an executor answers
with: where no relation has a dot in its name, a record that is reached at a place of the plan
(`Place`) is of the entity there, has a field for each of its columns, and has the relations
that the plan has below the place and no others (`Record.HasShape`).

* `Reading.IsSound.everywhere_isShapedAt`: the record of a row has all relations that are
  joined;
* `CompiledPlan.IsPrepared.isShapedAt_of_attach`: a group adds its relation to every owner
  and changes the shape of no other record;
* `Planner.shape_of_fetchMany`: when all groups are attached nothing is missing.
-/

namespace EntityFetch

/-! ### Places -/

/-- A place of a plan: one of its relations, or none for the root of the fetch. -/
abbrev Place := Option PlannedRelation

namespace Place

/-- The relations on the way to a place. -/
def chain (n : Place) : List Relation :=
  (n.map fun r => r.node.chain).getD []

/-- The names of the relations on the way to a place. -/
def names (n : Place) : List String :=
  n.chain.map Relation.name

/-- The group that loads what is at a place. -/
def group (n : Place) : Nat :=
  (n.map PlannedRelation.group).getD 0

/-- The node of a place. -/
def id? (n : Place) : Option Nat :=
  n.map fun r => r.node.id

end Place

/-- The name of a relation, with whether it leads to one record or to many. -/
def PlannedRelation.kind (r : PlannedRelation) : String × Cardinality :=
  (r.node.relation.name, r.node.relation.cardinality)

namespace LoadPlan

variable {c : Catalog} {root : Entity} {p : LoadPlan} {n n' : Place} {r r' : PlannedRelation}

/-- The places of a plan. -/
def places (p : LoadPlan) : List Place :=
  none :: p.relations.map some

/-- The name of the entity at a place. -/
def targetAt (p : LoadPlan) (n : Place) : String :=
  (n.map fun r => r.node.relation.target).getD p.root

/-- The relations directly below a place. -/
def below (p : LoadPlan) (n : Place) : List PlannedRelation :=
  p.relations.filter (·.node.parent == n.id?)

/-- The relations directly below a place that are in one of some groups. -/
def belowIn (p : LoadPlan) (groups : List Nat) (n : Place) : List PlannedRelation :=
  (p.below n).filter (·.group ∈ groups)

theorem mem_places : n ∈ p.places ↔ ∀ r ∈ n, r ∈ p.relations := by
  cases n <;> simp [places]

theorem mem_below : r ∈ p.below n ↔ r ∈ p.relations ∧ r.node.parent = n.id? := by
  rw [below, List.mem_filter, beq_iff_eq]

theorem mem_belowIn {groups : List Nat} :
    r ∈ p.belowIn groups n ↔ r ∈ p.below n ∧ r.group ∈ groups := by
  rw [belowIn, List.mem_filter, decide_eq_true_iff]

namespace IsSelected

/-- Places are told apart by their nodes. -/
theorem eq_of_id? (h : p.IsSelected c root) (hn : n ∈ p.places) (hn' : n' ∈ p.places)
    (heq : n.id? = n'.id?) : n = n' := by
  rw [mem_places] at hn hn'
  rcases n with _ | r <;> rcases n' with _ | r'
  · rfl
  · cases heq
  · cases heq
  · exact congrArg some (h.isGrouped.eq_of_id (hn r rfl) (hn' r' rfl) (Option.some.inj heq))

/-- Places are told apart by the names on the way to them. -/
theorem eq_of_names (h : p.IsSelected c root) (hn : n ∈ p.places) (hn' : n' ∈ p.places)
    (heq : n.names = n'.names) : n = n' := by
  rw [mem_places] at hn hn'
  rcases n with _ | r <;> rcases n' with _ | r'
  · rfl
  · exact absurd heq.symm (Node.names_ne_nil r'.node)
  · exact absurd heq (Node.names_ne_nil r.node)
  · exact congrArg some (h.eq_of_path (hn r rfl) (hn' r' rfl) (congrArg dotted heq))

/-- Every relation is below a place, and the way to it leads through the place. -/
theorem exists_place (h : p.IsSelected c root) (hr : r ∈ p.relations) :
    ∃ n ∈ p.places, r ∈ p.below n ∧ r.node.ancestors = n.chain := by
  obtain ⟨parent, hmem, hchild⟩ := h.exists_parent hr
  refine ⟨parent, mem_places.2 hmem, mem_below.2 ⟨hr, ?_⟩, ?_⟩
  · rw [hchild.parent_eq, Option.map_map]
    rfl
  · rw [hchild.ancestors_eq, Option.map_map]
    rfl

theorem ancestors_of_mem_below (h : p.IsSelected c root) (hn : n ∈ p.places)
    (hr : r ∈ p.below n) : r.node.ancestors = n.chain := by
  obtain ⟨hmem, hparent⟩ := mem_below.1 hr
  obtain ⟨n', hn', hr', hchain⟩ := h.exists_place hmem
  rwa [h.eq_of_id? hn hn' (hparent.symm.trans (mem_below.1 hr').2)]

/-- The relations below a place have different names. -/
theorem eq_of_name (h : p.IsSelected c root) (hn : n ∈ p.places) (hr : r ∈ p.below n)
    (hr' : r' ∈ p.below n) (heq : r.node.relation.name = r'.node.relation.name) : r = r' := by
  refine h.eq_of_path (mem_below.1 hr).1 (mem_below.1 hr').1 (congrArg dotted ?_)
  rw [Node.chain, Node.chain, List.map_append, List.map_append, h.ancestors_of_mem_below hn hr,
    h.ancestors_of_mem_below hn hr', List.map_singleton, List.map_singleton, heq]

/-- A relation is joined in the group of the place above it, or it is loaded one wave later. -/
theorem waveOf_below (h : p.IsSelected c root) (hn : n ∈ p.places) (hr : r ∈ p.below n) :
    r.strategy = .joined ∧ r.group = n.group ∨
      r.strategy = .selectIn ∧ p.waveOf r.group = p.waveOf n.group + 1 := by
  obtain ⟨hmem, hparent⟩ := mem_below.1 hr
  have howner : ownerGroup p.relations r.node = n.group := by
    rw [ownerGroup, hparent]
    rcases n with _ | q
    · rfl
    · simp only [Place.id?, Option.map_some, Option.bind_some,
        h.isGrouped.getElem?_id (mem_places.1 hn q rfl)]
      rfl
  exact howner ▸ h.waveOf_ownerGroup hmem

theorem nodup_belowIn (h : p.IsSelected c root) (groups : List Nat) (n : Place) :
    (p.belowIn groups n).Nodup :=
  (h.nodup_relations.filter _).filter _

/-! ### Relations below a place, group by group -/

variable {done : List Nat} {k : Nat}

/-- A group adds no relation below a place that is loaded before, unless it starts there. -/
theorem belowIn_concat (h : p.IsSelected c root) (hn : n ∈ p.places) (hloaded : n.group ∈ done)
    (hk : k ∉ done) (hother : ∀ r ∈ p.below n, r.strategy = .selectIn → r.group ≠ k) :
    p.belowIn (done ++ [k]) n = p.belowIn done n := by
  refine List.filter_congr fun r hr => decide_eq_decide.2 ?_
  rw [List.mem_append, List.mem_singleton, or_iff_left_iff_imp]
  rintro rfl
  rcases h.waveOf_below hn hr with ⟨-, hgroup⟩ | ⟨hselect, -⟩
  · exact absurd (hgroup ▸ hloaded) hk
  · exact absurd rfl (hother r hr hselect)

/-- A group adds its own relation below the place at which it starts. -/
theorem belowIn_concat_perm (h : p.IsSelected c root) (hn : n ∈ p.places)
    (hloaded : n.group ∈ done) (hk : k ∉ done) (hr : r ∈ p.below n)
    (hselect : r.strategy = .selectIn) (hgroup : r.group = k) :
    (p.belowIn (done ++ [k]) n).Perm (p.belowIn done n ++ [r]) := by
  have hr' : r ∉ p.belowIn done n := fun hmem => hk (hgroup ▸ (mem_belowIn.1 hmem).2)
  have hnodup : (p.belowIn done n ++ [r]).Nodup := List.nodup_append.2
    ⟨h.nodup_belowIn done n, List.nodup_singleton r, fun a ha b hb heq =>
      hr' (List.mem_singleton.1 hb ▸ heq ▸ ha)⟩
  refine (List.perm_ext_iff_of_nodup (h.nodup_belowIn _ n) hnodup).2 fun q => ?_
  rw [List.mem_append, List.mem_singleton, mem_belowIn, mem_belowIn, List.mem_append,
    List.mem_singleton]
  constructor
  · rintro ⟨hq, hdone | hqk⟩
    · exact Or.inl ⟨hq, hdone⟩
    · rcases h.waveOf_below hn hq with ⟨-, howner⟩ | ⟨hqselect, -⟩
      · exact absurd (hqk ▸ howner ▸ hloaded) hk
      · exact Or.inr (h.eq_of_group (mem_below.1 hq).1 (mem_below.1 hr).1 hqselect hselect
          (hqk.trans hgroup.symm))
  · rintro (⟨hq, hdone⟩ | rfl)
    · exact ⟨hq, Or.inl hdone⟩
    · exact ⟨hr, Or.inr hgroup⟩

/-- Below a place of a group that is loaded last, only relations of the group are loaded. -/
theorem belowIn_singleton (h : p.IsSelected c root) (hn : n ∈ p.places) (hk : k ∉ done)
    (hlast : ∀ d ∈ done, p.waveOf d ≤ p.waveOf n.group) (hgroup : n.group = k) :
    p.belowIn [k] n = p.belowIn (done ++ [k]) n := by
  refine List.filter_congr fun r hr => decide_eq_decide.2 ?_
  rw [List.mem_append, iff_or_self]
  intro hdone
  rcases h.waveOf_below hn hr with ⟨-, howner⟩ | ⟨-, hwave⟩
  · exact absurd (hgroup ▸ howner ▸ hdone) hk
  · have := hlast _ hdone
    omega

end IsSelected

end LoadPlan

/-! ### Shapes -/

namespace Record

/-- Whether a record is of an entity, with a field for each of its columns in their order, and
    has some relations and no others, each to one record or to many as the relation is. -/
structure HasShape (e : Entity) (rels : List PlannedRelation) (r : Record) : Prop where
  entity : r.entity = e.name
  columns : Assoc.keys r.fields = addAllNew [] e.columns
  relations : r.kinds.Perm (rels.map PlannedRelation.kind)

variable {e : Entity} {rels rels' : List PlannedRelation} {r r' : Record}

/-- The shape of a record is seen on its surface. -/
theorem HasShape.of_surface (h : r.HasShape e rels) (hsurface : r'.surface = r.surface) :
    r'.HasShape e rels := by
  obtain ⟨hentity, hrest⟩ := Prod.mk.inj hsurface
  obtain ⟨hfields, hkinds⟩ := Prod.mk.inj hrest
  exact ⟨hentity.trans h.entity, hfields ▸ h.columns, hkinds ▸ h.relations⟩

theorem HasShape.perm (h : r.HasShape e rels) (hperm : rels'.Perm rels) : r.HasShape e rels' :=
  { h with relations := h.relations.trans (hperm.map _).symm }

/-- Where no column is declared twice, the fields are named as the columns. -/
theorem HasShape.keys_fields (h : r.HasShape e rels) (hnodup : e.columns.Nodup) :
    Assoc.keys r.fields = e.columns :=
  h.columns.trans (addAllNew_eq_append hnodup)

/-- A relation that was missing. -/
theorem HasShape.setRelation (h : r.HasShape e rels) {q : PlannedRelation}
    (hnew : ∀ q' ∈ rels, q'.node.relation.name ≠ q.node.relation.name) {rel : Related Record}
    (hrel : rel.cardinality = q.node.relation.cardinality) :
    (r.setRelation q.node.relation.name rel).HasShape e (rels ++ [q]) where
  entity := h.entity
  columns := h.columns
  relations := by
    have hname : q.node.relation.name ∉ r.kinds.map Prod.fst := by
      rw [(h.relations.map Prod.fst).mem_iff, List.map_map]
      intro hmem
      obtain ⟨q', hq', heq⟩ := List.mem_map.1 hmem
      exact hnew q' hq' heq
    rw [kinds_setRelation hname, List.map_append, hrel]
    exact h.relations.append_right _

end Record

/-- Whether a record is at a place of a plan that is loaded with some groups, and has the shape
    that it has when these groups are loaded. -/
def LoadPlan.IsShapedAt (p : LoadPlan) (catalog : Catalog) (done : List Nat)
    (names : List String) (r : Record) : Prop :=
  ∃ n ∈ p.places, n.names = names ∧ n.group ∈ done ∧
    ∃ e, catalog.entity (p.targetAt n) = .ok e ∧ r.HasShape e (p.belowIn done n)

/-- What is read at a slot has the columns of the slot. -/
theorem Slot.keys_of_read {s : Slot} {row : Row} {r : Record} (h : s.read row = .ok r) :
    r.entity = s.entity ∧ Assoc.keys r.fields = addAllNew [] s.columns := by
  obtain ⟨fields, hfields, h⟩ := bind_eq_ok.1 h
  obtain rfl := pure_eq_ok.1 h
  have hkeys : Assoc.keys fields = s.columns := by
    rw [← List.map_id s.columns]
    refine map_eq_map_of_forall₂ (mapM_eq_ok.1 hfields) fun c _ f hf => ?_
    split at hf
    · rw [← Except.ok.inj hf]
      rfl
    · cases hf
  exact ⟨rfl, by rw [Assoc.ofList, Assoc.keys_extend, hkeys]; rfl⟩

namespace Reading

variable {c : Compiler} {plan : LoadPlan} {scope : QueryScope} {root : Entity} {R : Reading}
  {k i : Nat}

/-- A slot of a statement is at a place of the group that is loaded by it. -/
theorem IsSound.relationAt_mem (h : R.IsSound c plan scope)
    (hsel : plan.IsSelected c.catalog root) (hgroup : plan.groups[k]? = some R.group)
    {t : Slot} (ht : R.slots[i]? = some t) :
    R.relationAt i ∈ plan.places ∧ Place.group (R.relationAt i) = k := by
  rw [LoadPlan.mem_places]
  rcases i with _ | i
  · rw [relationAt]
    rcases hroot : R.root with _ | r
    · -- A group without a root is the first.
      have hnone := h.root_isSome
      rw [hroot, Option.isSome_none, eq_comm, Option.isSome_eq_false_iff, Option.isNone_iff_eq_none,
        hsel.root_eq_none_iff hgroup] at hnone
      exact ⟨fun q hq => absurd hq (Option.not_mem_none q), hnone.symm⟩
    · have heq := h.root_eq
      rw [hroot] at heq
      obtain ⟨id, hid, hr⟩ := Option.bind_eq_some_iff.1 heq.symm
      refine ⟨fun _ hq => Option.some.inj hq ▸ List.mem_of_getElem? hr, ?_⟩
      exact (hsel.selectIn_of_root hgroup hid hr).2
  · obtain ⟨j, hj, rfl⟩ := exists_joint_of_slot ht
    have hmem := List.mem_of_getElem? hj
    rw [relationAt, hj]
    exact ⟨fun _ hq => Option.some.inj hq ▸ h.relation_mem hmem,
      (h.joined_of_mem hsel hgroup hmem).2⟩

/-- What is read at a slot is of the entity at its place. -/
theorem IsSound.entity_targetAt (h : R.IsSound c plan scope)
    (hsel : plan.IsSelected c.catalog root) {e : Entity} (he : R.entityAt i = some e) :
    c.catalog.entity (plan.targetAt (R.relationAt i)) = .ok e := by
  have hstart := h.startsAt hsel he
  rcases hplace : R.relationAt i with _ | r
  · rw [hplace] at hstart
    obtain rfl : e = root := hstart
    exact hsel.entity
  · rw [hplace] at hstart
    exact hstart

/-- The joints that start at a slot are those of the relations of the group below its place. -/
theorem IsSound.perm_belowIn (h : R.IsSound c plan scope)
    (hsel : plan.IsSelected c.catalog root) (hgroup : plan.groups[k]? = some R.group)
    {t : Slot} (ht : R.slots[i]? = some t) :
    ((R.joints.filter (·.parent = i)).map Joint.relation).Perm
      (plan.belowIn [k] (R.relationAt i)) := by
  have hmem := List.mem_of_getElem? hgroup
  obtain ⟨hplace, hk⟩ := h.relationAt_mem hsel hgroup ht
  have hnodup : (R.joints.map Joint.relation).Nodup := by
    have hjoined : R.group.joined.Nodup :=
      (hsel.isGrouped.joined_sorted _ hmem).imp fun hlt => Nat.ne_of_lt hlt
    rw [h.joined_eq hsel] at hjoined
    refine List.Nodup.of_map (fun r => r.node.id) ?_
    rwa [List.map_map]
  refine (List.perm_ext_iff_of_nodup (hnodup.sublist (List.filter_sublist.map _))
    (hsel.nodup_belowIn _ _)).2 fun r => ?_
  rw [List.mem_map, LoadPlan.mem_belowIn, List.mem_singleton]
  constructor
  · rintro ⟨j, hfiltered, rfl⟩
    obtain ⟨hj, hparent⟩ := List.mem_filter.1 hfiltered
    obtain rfl := of_decide_eq_true hparent
    refine ⟨LoadPlan.mem_below.2 ⟨h.relation_mem hj, ?_⟩, (h.joined_of_mem hsel hgroup hj).2⟩
    rw [(h.isChild hsel hj).parent_eq, Option.map_map]
    rfl
  · rintro ⟨hbelow, hrk⟩
    have hr := (LoadPlan.mem_below.1 hbelow).1
    -- A relation with a statement of its own would be in a later wave.
    have hjoined : r.strategy = .joined := by
      rcases hsel.waveOf_below hplace hbelow with ⟨hjoined, -⟩ | ⟨-, hwave⟩
      · exact hjoined
      · rw [hrk, hk] at hwave
        omega
    obtain ⟨j, hj, hrel⟩ := h.exists_joint hsel hgroup hr hjoined hrk
    refine ⟨j, List.mem_filter.2 ⟨hj, decide_eq_true ?_⟩, hrel⟩
    refine h.chainAt_inj hsel hmem (List.getElem?_eq_some_iff.1 (h.settled j hj).owner).1
      (List.getElem?_eq_some_iff.1 ht).1 ?_
    rw [← h.ancestors_eq hsel hj, hrel]
    exact hsel.ancestors_of_mem_below hplace hbelow

/-- The relations of what is put together at a slot are those of the group below its place. -/
theorem IsSound.kinds_withChildren (h : R.IsSound c plan scope)
    (hsel : plan.IsSelected c.catalog root) (hgroup : plan.groups[k]? = some R.group)
    {t : Slot} (ht : R.slots[i]? = some t) (out : Nat → Option Record) (r : Record) :
    (CompiledStatement.withChildren (childSlots R.slots i) out r).kinds.Perm
      ((plan.belowIn [k] (R.relationAt i)).map PlannedRelation.kind) := by
  have hjoints : R.joints.filter (·.parent = i) =
      (R.joints.zipIdx.filter fun p => p.1.parent = i).map Prod.fst := by
    conv_lhs => rw [← List.zipIdx_map_fst 0 R.joints]
    exact List.filter_map
  have hkinds : (CompiledStatement.withChildren (childSlots R.slots i) out r).kinds =
      ((R.joints.filter (·.parent = i)).map Joint.relation).map PlannedRelation.kind := by
    rw [hjoints, Record.kinds, CompiledStatement.withChildren, childSlots_slots, List.map_map,
      List.map_map, List.map_map, List.map_map]
    refine List.map_congr_left fun p hp => Prod.ext rfl ?_
    have hj := List.mem_zipIdx_iff_getElem?.1 (List.mem_filter.1 hp).1
    exact (h.cardinality_eq hsel (List.mem_of_getElem? hgroup) (List.mem_of_getElem? hj)).symm
  exact hkinds ▸ (h.perm_belowIn hsel hgroup ht).map _

/-- The record of a row has the shape of the place that its group loads, and so have the
    records below it. -/
theorem IsSound.everywhere_isShapedAt (h : R.IsSound c plan scope)
    (hsel : plan.IsSelected c.catalog root) (hgroup : plan.groups[k]? = some R.group) {row : Row}
    {r : Record} (hr : (R.compiled scope).assembleRow row = .ok r) :
    r.Everywhere (plan.IsShapedAt c.catalog [k]) ((R.chainAt 0).map Relation.name) := by
  obtain ⟨out, hzero, hout⟩ := CompiledStatement.exists_of_assembleRow
    (h.isLinked hsel (List.mem_of_getElem? hgroup)) hr
  refine h.everywhere_of_out hsel (S := fun names chain => names = chain.map Relation.name)
    (fun names chain e hnames => by rw [hnames, List.map_append, List.map_singleton])
    (fun i t q names ht hq hnames => ?_) hzero rfl
  obtain ⟨bare, hread, rfl⟩ := hout i t q ht hq
  obtain ⟨hplace, hk⟩ := h.relationAt_mem hsel hgroup ht
  obtain ⟨e, he, hname, -, hcolumns⟩ := exists_entityAt ht
  obtain ⟨hentity, hkeys⟩ := Slot.keys_of_read hread
  refine ⟨⟨_, hplace, hnames.symm, by rw [hk, List.mem_singleton], e,
    h.entity_targetAt hsel he, ?_⟩, fun _ _ => mem_related_withChildren⟩
  constructor
  case entity => exact hentity.trans hname
  case columns => exact hkeys.trans (by rw [hcolumns])
  case relations => exact h.kinds_withChildren hsel hgroup ht out bare

/-- So have all records that a statement is assembled to. -/
theorem IsSound.everywhere_of_assemble (h : R.IsSound c plan scope)
    (hsel : plan.IsSelected c.catalog root) (hgroup : plan.groups[k]? = some R.group)
    {rows : List Row} {records : List Record}
    (hrecords : (R.compiled scope).assemble rows = .ok records) :
    ∀ r ∈ records,
      r.Everywhere (plan.IsShapedAt c.catalog [k]) ((R.chainAt 0).map Relation.name) := by
  intro r hr
  obtain ⟨row, -, hassemble⟩ := CompiledStatement.exists_of_mem_assemble hrecords hr
  exact h.everywhere_isShapedAt hsel hgroup hassemble

end Reading

/-! ### Attaching -/

namespace CompiledPlan

theorem cardinality_relatedTo (e : Relation) (records : List Record) (owner : Record) :
    (relatedTo e records owner).cardinality = e.cardinality := by
  cases h : e.cardinality <;> simp only [relatedTo, h] <;> rfl

namespace IsPrepared

variable {p : Planner} {req : FetchRequest} {root : Entity} {c : CompiledPlan} {k : Nat}
  {done : List Nat} {q : PlannedRelation}

/-- Every group but the first has a relation at its root and a statement. -/
theorem exists_groupRoot (h : c.IsPrepared p req root) (hk : k < c.plan.groups.length)
    (hne : k ≠ 0) : ∃ q ∈ c.plan.relations, q.strategy = .selectIn ∧ q.group = k ∧
      c.groupRoot? k = some q ∧ ∃ cs, c.statement? k = some cs := by
  obtain ⟨g, q, -, hq, -, hselect, rfl, -⟩ := h.selected.exists_root hk hne
  exact ⟨q, hq, hselect, rfl, h.groupRoot?_group hq hselect, _,
    List.getElem?_eq_getElem (h.length_eq ▸ hk)⟩

/-- A group changes no shape but that of the owners of its root. -/
theorem isShapedAt_concat (h : c.IsPrepared p req root)
    (hdot : ∀ r ∈ c.plan.relations, IsDotFree r.node.relation.name)
    (hq : c.groupRoot? k = some q) (hk : k ∉ done) {names : List String} {r r' : Record}
    (hnames : names ≠ c.ownerPath q) (hsurface : r'.surface = r.surface)
    (hr : c.plan.IsShapedAt p.catalog done names r) :
    c.plan.IsShapedAt p.catalog (done ++ [k]) names r' := by
  obtain ⟨n, hn, rfl, hloaded, e, he, hshape⟩ := hr
  refine ⟨n, hn, rfl, List.mem_append_left _ hloaded, e, he, ?_⟩
  rw [h.selected.belowIn_concat hn hloaded hk]
  · exact hshape.of_surface hsurface
  · -- A relation that the group starts below the place has its owners there.
    rintro m hm hselect rfl
    have hmem := (LoadPlan.mem_below.1 hm).1
    obtain rfl := Option.some.inj (hq.symm.trans (h.groupRoot?_group hmem hselect))
    rw [h.ownerPath_eq hdot hmem, h.selected.ancestors_of_mem_below hn hm] at hnames
    exact absurd rfl hnames

/-- The owners of a group get the relation that they lack. -/
theorem isShapedAt_setRelation (h : c.IsPrepared p req root)
    (hdot : ∀ r ∈ c.plan.relations, IsDotFree r.node.relation.name) (hq : q ∈ c.plan.relations)
    (hselect : q.strategy = .selectIn) (hk : q.group ∉ done) {owner : Record}
    (ho : c.plan.IsShapedAt p.catalog done (c.ownerPath q) owner) (records : List Record) :
    c.plan.IsShapedAt p.catalog (done ++ [q.group]) (c.ownerPath q)
      (owner.setRelation q.node.relation.name (relatedTo q.node.relation records owner)) := by
  obtain ⟨n, hn, hnames, hloaded, e, he, hshape⟩ := ho
  obtain ⟨n', hn', hbelow, hchain⟩ := h.selected.exists_place hq
  have hsame : n = n' := h.selected.eq_of_names hn hn' <| by
    rw [hnames, h.ownerPath_eq hdot hq, hchain]
    rfl
  subst hsame
  refine ⟨n, hn, hnames, List.mem_append_left _ hloaded, e, he, ?_⟩
  refine (hshape.setRelation (fun q' hq' hname => hk ?_) (cardinality_relatedTo ..)).perm
    (h.selected.belowIn_concat_perm hn hloaded hk hbelow hselect rfl)
  obtain ⟨hq', hdone⟩ := LoadPlan.mem_belowIn.1 hq'
  exact h.selected.eq_of_name hn hq' hbelow hname ▸ hdone

/-- What is found for a group has the shape that it keeps while the group is the last one. -/
theorem isShapedAt_of_singleton (h : c.IsPrepared p req root) (hk : k ∉ done)
    (hlast : ∀ d ∈ done, c.plan.waveOf d ≤ c.plan.waveOf k) {names : List String} {r : Record}
    (hr : c.plan.IsShapedAt p.catalog [k] names r) :
    c.plan.IsShapedAt p.catalog (done ++ [k]) names r := by
  obtain ⟨n, hn, rfl, hgroup, e, he, hshape⟩ := hr
  obtain rfl := List.mem_singleton.1 hgroup
  refine ⟨n, hn, rfl, List.mem_append_right _ hgroup, e, he, ?_⟩
  rwa [← h.selected.belowIn_singleton hn hk hlast rfl]

/-- Attaching a group that comes after all others gives every record the shape that it has
    with the group. -/
theorem isShapedAt_of_attach (h : c.IsPrepared p req root)
    (hdot : ∀ r ∈ c.plan.relations, IsDotFree r.node.relation.name)
    (hlt : k < c.plan.groups.length) (hne : k ≠ 0) (hk : k ∉ done)
    (hlast : ∀ d ∈ done, c.plan.waveOf d ≤ c.plan.waveOf k) {rows : List Row}
    {rs rs' : List Record} (hrs : ∀ r ∈ rs, r.Everywhere (c.plan.IsShapedAt p.catalog done) [])
    (hattach : c.attach rs k rows = .ok rs') :
    ∀ r ∈ rs', r.Everywhere (c.plan.IsShapedAt p.catalog (done ++ [k])) [] := by
  obtain ⟨q, hq, hselect, rfl, hroot, cs, hcs⟩ := h.exists_groupRoot hlt hne
  obtain ⟨R, hgroup, hsound, rfl⟩ := h.reading _ cs hcs
  rw [attach, hroot, hcs] at hattach
  obtain ⟨records, hrecords, hattach⟩ := bind_eq_ok.1 hattach
  obtain rfl := pure_eq_ok.1 hattach
  have hway : (R.chainAt 0).map Relation.name = c.ownerPath q ++ [q.node.relation.name] := by
    rw [h.ownerPath_eq hdot hq, Reading.chainAt_root (root_of_group hroot hgroup hsound)]
    exact List.map_append
  -- Below the records of the group nothing else is attached yet, as all groups before it are in no
  -- later wave.
  have hfound : ∀ r ∈ records, r.Everywhere (c.plan.IsShapedAt p.catalog (done ++ [q.group]))
      (c.ownerPath q ++ [q.node.relation.name]) := by
    rw [← hway]
    exact fun r hr => (hsound.everywhere_of_assemble h.selected hgroup hrecords r hr).imp
      fun _ _ => h.isShapedAt_of_singleton hk hlast
  intro r' hr'
  obtain ⟨r, hr, rfl⟩ := List.mem_map.1 hr'
  refine (hrs r hr).of_updateAt (fun way o o' hway' => h.isShapedAt_concat hdot hroot hk hway')
    fun o ho => ?_
  exact ho.of_setRelation (fun way o' hway' => h.isShapedAt_concat hdot hroot hk hway' rfl)
    (h.isShapedAt_setRelation hdot hq hselect hk (Record.everywhere_iff.1 ho).1 records)
    fun r' hr' => hfound r' (mem_of_mem_relatedTo hr')

/-- When all groups are attached, every record has the shape of its place. -/
theorem isShapedAt_of_dispatch {σ : Type} {x : Executor σ} {state : σ} {batchSize : Nat}
    {roots rs : List Record} (h : c.IsPrepared p req root)
    (hdot : ∀ r ∈ c.plan.relations, IsDotFree r.node.relation.name)
    (hroots : ∀ r ∈ roots, r.Everywhere (c.plan.IsShapedAt p.catalog [0]) [])
    (hdispatch : (c.dispatch x batchSize roots state).1 = (rs, none)) :
    ∀ r ∈ rs, r.Everywhere (c.plan.IsShapedAt p.catalog c.plan.order) [] := by
  refine dispatch_induct_done (P := fun done rs =>
    ∀ r ∈ rs, r.Everywhere (c.plan.IsShapedAt p.catalog (0 :: done)) [])
    (fun done k after rows rs rs' hsplit hrs hattach => ?_) hroots hdispatch
  have horder : c.plan.order = (0 :: done) ++ k :: after := by
    rw [LoadPlan.order, ← hsplit]
    rfl
  have hnodup := h.selected.nodup_order
  rw [horder, List.nodup_append] at hnodup
  have hbefore : ∀ d ∈ 0 :: done, d ≠ k := fun d hd => hnodup.2.2 d hd k List.mem_cons_self
  have hlt : k < c.plan.groups.length := h.selected.mem_order.1 <|
    horder ▸ List.mem_append_right _ List.mem_cons_self
  exact h.isShapedAt_of_attach hdot hlt (hbefore 0 List.mem_cons_self).symm
    (fun hmem => hbefore k hmem rfl)
    (fun d hd => h.selected.waveOf_le_of_order horder hd List.mem_cons_self) hrs hattach

end IsPrepared

end CompiledPlan

namespace Planner

variable {p : Planner} {req : FetchRequest} {records : List Record} {σ : Type} {x : Executor σ}
  {state : σ}

/-- What a fetch gives has the shape of its plan: a record that is reached at a place is of the
    entity there, with a field for each of its columns in their order, and has a relation for
    each of those below the place and no others, to one record or to many as the relation is.
    There are records at the places of the plan only, and whatever is reached on the way along
    a path that is asked for has the next relation of the path. -/
theorem shape_of_fetchMany (hdot : ∀ e ∈ p.catalog.entities, ∀ r ∈ e.relations, IsDotFree r.name)
    (h : (p.fetchMany x req state).1 = .ok records) :
    ∃ c, p.prepare req = .ok c ∧
      (∀ n ∈ c.plan.places, ∀ q ∈ Record.reached n.names records,
        ∃ e, p.catalog.entity (c.plan.targetAt n) = .ok e ∧ q.HasShape e (c.plan.below n)) ∧
      (∀ names, ∀ q ∈ Record.reached names records, ∃ n ∈ c.plan.places, n.names = names) ∧
      ∀ text ∈ req.populate, ∀ path, RelationPath.parse text = .ok path →
        ∀ before name after, path.segments = before ++ name :: after →
          ∀ q ∈ Record.reached before records, ∃ rel, q.relation? name = some rel := by
  obtain ⟨c, primary, rows, roots, state', hprepare, hprimary, -, hassemble, hdispatch⟩ :=
    fetchMany_eq_ok h
  obtain ⟨root, hc⟩ := isPrepared_of_prepare hprepare
  have hnames := hc.isDotFree_of_catalog hdot
  obtain ⟨R, hgroup, hsound, rfl⟩ := hc.reading 0 primary hprimary
  have hshaped : ∀ r ∈ records, r.Everywhere (c.plan.IsShapedAt p.catalog c.plan.order) [] := by
    have hroots := hsound.everywhere_of_assemble hc.selected hgroup hassemble
    rw [Reading.chainAt_zero (hc.root_of_reading hgroup hsound).1] at hroots
    exact hc.isShapedAt_of_dispatch hnames hroots hdispatch
  have hreached : ∀ names, ∀ q ∈ Record.reached names records,
      c.plan.IsShapedAt p.catalog c.plan.order names q := by
    intro names q hq
    obtain ⟨r, hr, hq⟩ := Record.mem_reached.1 hq
    exact hshaped r hr names q hq
  have hall : ∀ n, c.plan.belowIn c.plan.order n = c.plan.below n := by
    refine fun n => List.filter_eq_self.2 fun r hr => decide_eq_true ?_
    exact hc.selected.mem_order.2 (hc.selected.isGrouped.group_lt r (LoadPlan.mem_below.1 hr).1)
  have hplaces : ∀ n ∈ c.plan.places, ∀ q ∈ Record.reached n.names records,
      ∃ e, p.catalog.entity (c.plan.targetAt n) = .ok e ∧ q.HasShape e (c.plan.below n) := by
    intro n hn q hq
    obtain ⟨n', hn', heq, -, e, he, hshape⟩ := hreached n.names q hq
    obtain rfl := hc.selected.eq_of_names hn' hn heq
    exact ⟨e, he, hall n' ▸ hshape⟩
  refine ⟨c, hprepare, hplaces, fun names q hq => ?_, ?_⟩
  · obtain ⟨n, hn, heq, -⟩ := hreached names q hq
    exact ⟨n, hn, heq⟩
  · intro text htext path hpath before name after hsegments q hq
    -- The path with the next relation is a relation of the plan, below the place of the owner.
    obtain ⟨r, hr, hway⟩ := exists_of_step hprepare htext hpath
      (List.append_ne_nil_of_right_ne_nil before (List.cons_ne_nil name []))
      ⟨after, by rw [hsegments, List.append_assoc, List.singleton_append]⟩
    obtain ⟨n, hn, hbelow, hchain⟩ := hc.selected.exists_place hr
    rw [Node.names, Node.chain, List.map_append, hchain] at hway
    obtain ⟨rfl, hname⟩ := List.append_inj' hway rfl
    obtain ⟨e, -, hshape⟩ := hplaces n hn q hq
    refine Record.exists_of_mem_kinds (k := r.node.relation.cardinality) ?_
    rw [hshape.relations.mem_iff]
    exact List.singleton_inj.1 hname ▸ List.mem_map_of_mem hbelow

/-- All users have posts, though one has a single one, and all posts have an author. -/
theorem shape_of_fetchMany_writers :
    ∃ records, (writerPlanner.fetchMany Session.executor writerRequest
        { store := writerStore }).1 = .ok records ∧
      (Record.reached ["posts"] records).length = 3 ∧
      (∀ q ∈ Record.reached ["posts"] records, q.entity = "Post" ∧
        Assoc.keys q.fields = ["id", "author_id"] ∧ q.kinds = [("author", .one)]) ∧
      ∀ q ∈ records, ∃ rel, q.relation? "posts" = some rel := by
  have hdot : ∀ e ∈ writerPlanner.catalog.entities, ∀ r ∈ e.relations, '.' ∉ r.name.toList := by
    decide
  obtain ⟨records, hrecords, hlength⟩ : ∃ records, (writerPlanner.fetchMany Session.executor
      writerRequest { store := writerStore }).1 = .ok records ∧
        (Record.reached ["posts"] records).length = 3 := ⟨_, rfl, rfl⟩
  obtain ⟨c, n, hprepare, hn, hnames, hentity, hbelow⟩ : ∃ c n,
      writerPlanner.prepare writerRequest = .ok c ∧ c.plan.places[1]? = some n ∧
        n.names = ["posts"] ∧ writerPlanner.catalog.entity (c.plan.targetAt n) = .ok writerPost ∧
          (c.plan.below n).map PlannedRelation.kind = [("author", .one)] :=
    ⟨_, _, rfl, rfl, rfl, rfl, rfl⟩
  obtain ⟨c', hprepare', hshape, -, hpopulated⟩ := shape_of_fetchMany hdot hrecords
  obtain rfl := Except.ok.inj (hprepare.symm.trans hprepare')
  refine ⟨records, hrecords, hlength, fun q hq => ?_, fun q hq => ?_⟩
  · obtain ⟨e, he, hq⟩ := hshape n (List.mem_of_getElem? hn) q (hnames ▸ hq)
    obtain rfl := Except.ok.inj (hentity.symm.trans he)
    have hkinds := hq.relations
    rw [hbelow, List.perm_singleton] at hkinds
    exact ⟨hq.entity, hq.keys_fields (by decide), hkinds⟩
  · exact hpopulated "posts" List.mem_cons_self ⟨["posts"]⟩ rfl [] "posts" [] rfl q hq

end Planner

end EntityFetch
