import EntityFetch.Proofs.Grow

/-!
# One row for every owner

If every join finds at most one row, and one at least where it is an inner join, then a
row of the root is combined with others in one way only (`Reading.IsDetermined.exists_expand_eq`).
The record that is assembled from it is the one that is meant
(`Reading.IsDetermined.mapM_assembleRow`).
-/

namespace EntityFetch

namespace Reading

variable {k : Compiler} {plan : LoadPlan} {scope : QueryScope} {root : Entity} {R : Reading}
  {store : Store} {s : Statement}

/-- The branch of a joint. -/
def branchOf (R : Reading) (j : Joint) : Branch :=
  { node := j.relation.node
    owner := (R.entityAt j.parent).getD R.entity
    target := j.target
    filters := j.filters }

/-- The branches of the joints. -/
def branches (R : Reading) : List Branch :=
  R.joints.map R.branchOf

/-- A reading of which every join finds at most one row, and every inner join finds
    one. -/
structure IsDetermined (R : Reading) (store : Store) : Prop where
  single : ∀ j ∈ R.joints, ∀ e, R.entityAt j.parent = some e → ∀ o ∈ store.rows e.table,
    ((R.branchOf j).found store (o.value j.edge.ownerColumn)).length ≤ 1
  leads : ∀ j ∈ R.joints, j.kind = .inner → ∀ e, R.entityAt j.parent = some e →
    ∀ o ∈ store.rows e.table, ∃ t ∈ store.rows j.target.table, j.edge.Matches o t
  keyed : ∀ j ∈ R.joints, ∀ t ∈ store.rows j.target.table,
    (t.value j.target.primaryKey).isNull = false

/-- What a joint finds for a row of its owner are the rows of its branch. -/
theorem found_eq {j : Joint} {x : Combination} :
    j.found store x =
      (R.branchOf j).found store (cell (x.at? j.parent) j.edge.ownerColumn) := rfl

/-- What is known of a combination while it is made: it has rows of the entities at the
    slots, and one at every inner slot. -/
structure IsReached (R : Reading) (store : Store) (x : Combination) : Prop where
  mem_rows : ∀ i o, x.at? i = some o → ∃ e, R.entityAt i = some e ∧ o ∈ store.rows e.table
  inner : ∀ i < x.length, R.IsInner i → ∃ o, x.at? i = some o

variable {x : Combination} {n : Nat} {j : Joint}

/-- A joint finds at most one row. -/
theorem IsDetermined.length_found (h : R.IsDetermined store) (hx : R.IsReached store x)
    (hj : j ∈ R.joints) : (j.found store x).length ≤ 1 := by
  cases hat : x.at? j.parent with
  | none =>
    rw [found_of_none hat]
    exact Nat.zero_le 1
  | some o =>
    obtain ⟨e, he, ho⟩ := hx.mem_rows _ o hat
    have hsingle := h.single j hj e he o ho
    rwa [found_eq (R := R), hat]

/-- An inner join finds a row. -/
theorem IsDetermined.found_ne_nil (h : R.IsDetermined store) (hR : R.IsJoinable)
    (hx : R.IsReached store x) (hj : j ∈ R.joints) (hparent : j.parent < x.length)
    (hkind : j.kind = .inner) : j.found store x ≠ [] := by
  obtain ⟨o, hat⟩ := hx.inner _ hparent (hR.isInner_parent hj hkind)
  obtain ⟨e, he, ho⟩ := hx.mem_rows _ o hat
  obtain ⟨t, ht, hmatch⟩ := h.leads j hj hkind e he o ho
  refine List.ne_nil_of_mem (Joint.mem_found.2 ⟨ht, ?_, fun a ha => ?_⟩)
  · rw [hat]
    exact hmatch
  · rw [(hR.inner j hj hkind).1] at ha
    exact absurd ha List.not_mem_nil

/-- What a joint adds is a row of its target, and an inner joint has to add one. -/
theorem IsReached.concat (hx : R.IsReached store x) (hlen : x.length = n + 1)
    (hj : R.joints[n]? = some j) {o : Option TableRow}
    (hrow : ∀ t, o = some t → t ∈ store.rows j.target.table)
    (hinner : j.kind = .inner → ∃ t, o = some t) : R.IsReached store (x ++ [o]) := by
  constructor
  case mem_rows => exact HasRows.concat hx.mem_rows hlen hj hrow
  case inner =>
    intro i hi hin
    rw [List.length_append, List.length_singleton] at hi
    rcases Nat.lt_succ_iff_lt_or_eq.1 hi with hi | rfl
    · rw [Combination.at?_append_left hi]
      exact hx.inner i hi hin
    · rw [hlen, isInner_succ] at hin
      obtain ⟨j', hj', hkind⟩ := hin
      obtain rfl := Option.some.inj (hj.symm.trans hj')
      rw [Combination.at?_append_length]
      exact hinner hkind

/-- A joint makes one combination of one. -/
theorem IsDetermined.exists_extend_eq (h : R.IsDetermined store) (hR : R.IsJoinable)
    (hx : R.IsReached store x) (hlen : x.length = n + 1) (hj : R.joints[n]? = some j) :
    ∃ o, j.extend store x = [x ++ [o]] ∧ R.IsReached store (x ++ [o]) := by
  have hmem := List.mem_of_getElem? hj
  have hle := h.length_found hx hmem
  unfold Joint.extend
  rcases hfound : j.found store x with _ | ⟨t, _ | ⟨t', rest⟩⟩
  · have hkind : j.kind = .left := by
      cases hkind : j.kind with
      | inner =>
        have hparent := hR.parent_le n j hj
        exact absurd hfound (h.found_ne_nil hR hx hmem (by omega) hkind)
      | left => rfl
    rw [hkind]
    refine ⟨none, rfl, hx.concat hlen hj (fun t hnone => ?_) fun hinner => ?_⟩
    · cases hnone
    · cases hkind.symm.trans hinner
  · have ht : t ∈ j.found store x := hfound ▸ List.mem_singleton_self t
    refine ⟨some t, ?_, hx.concat hlen hj (fun t' heq => ?_) fun _ => ⟨t, rfl⟩⟩
    · cases j.kind <;> rfl
    · obtain rfl := Option.some.inj heq
      exact (Joint.mem_found.1 ht).1
  · rw [hfound] at hle
    simp at hle

/-- A row of the root is combined with others in one way. -/
theorem IsDetermined.exists_expand_eq (h : R.IsDetermined store) (hR : R.IsJoinable)
    {r : TableRow} (hr : r ∈ store.rows R.entity.table) :
    ∃ x, expand store R.joints [some r] = [x] ∧ R.IsReached store x := by
  refine expand_induct store (P := fun rest x => R.IsReached store x →
    ∃ y, expand store rest x = [y] ∧ R.IsReached store y) (fun x hx => ⟨x, rfl, hx⟩) ?_ (some r)
    ⟨hasRows_singleton hr, fun i hi _ => ?_⟩
  · intro n j rest x hj hlen ih hx
    obtain ⟨o, hextend, hx'⟩ := h.exists_extend_eq hR hx hlen hj
    obtain ⟨y, hy, hreached⟩ := ih (x ++ [o]) (hextend ▸ List.mem_singleton_self _) hx'
    refine ⟨y, ?_, hreached⟩
    rw [expand, hextend, List.flatMap_singleton, hy]
  · obtain rfl := Nat.lt_one_iff.1 hi
    exact ⟨r, rfl⟩

/-! ### Assembling -/

/-- The slots that start at one are those of the joints that do. -/
theorem childSlots_slots (R : Reading) (i : Nat) :
    childSlots R.slots i = (R.joints.zipIdx.filter fun p => p.1.parent = i).map fun p =>
      (p.2 + 1, p.1.edge.name) := by
  have hjoints : ∀ (js : List Joint) (n : Nat), ((js.map Joint.slot).zipIdx (n + 1)).filterMap
      (fun s => s.1.link.bind fun l => if l.parent = i then some (s.2, l.relation) else none) =
        ((js.zipIdx n).filter fun p => p.1.parent = i).map fun p => (p.2 + 1, p.1.edge.name) := by
    intro js
    induction js with
    | nil => exact fun _ => rfl
    | cons j js ih =>
      intro n
      rw [List.map_cons, List.zipIdx_cons, List.zipIdx_cons, List.filterMap_cons, ih]
      by_cases hparent : j.parent = i
      · simp [Joint.slot, hparent]
      · simp [Joint.slot, hparent]
  exact hjoints R.joints 0

/-- The branches that start at a slot are those of the joints that do. -/
theorem IsSound.filter_branches (h : R.IsSound k plan scope)
    (hsel : plan.IsSelected k.catalog root) (hgroup : R.group ∈ plan.groups) {i : Nat}
    (hi : i < R.slots.length) : R.branches.filter (·.node.ancestors = R.chainAt i) =
      (R.joints.zipIdx.filter fun p => p.1.parent = i).map fun p => R.branchOf p.1 := by
  have hzip : R.branches = R.joints.zipIdx.map fun p => R.branchOf p.1 := by
    rw [branches, ← List.zipIdx_map_fst 0 R.joints, List.map_map, List.zipIdx_map_fst]
    rfl
  rw [hzip, List.filter_map]
  refine congrArg _ (List.filter_congr fun p hp => ?_)
  have hj := List.mem_zipIdx_iff_getElem?.1 hp
  have hmem := List.mem_of_getElem? hj
  have hparent := (List.getElem?_eq_some_iff.1 (h.settled p.1 hmem).owner).1
  rw [Function.comp_apply, branchOf, h.ancestors_eq hsel hmem, decide_eq_decide]
  exact ⟨h.chainAt_inj hsel hgroup hparent hi, fun heq => heq ▸ rfl⟩

/-- Only relations to one row are joined. -/
theorem IsSound.cardinality_eq (h : R.IsSound k plan scope)
    (hsel : plan.IsSelected k.catalog root) (hgroup : R.group ∈ plan.groups)
    (hj : j ∈ R.joints) : j.edge.cardinality = .one := by
  obtain ⟨g, hg⟩ := List.mem_iff_getElem?.1 hgroup
  exact (hsel.isGrouped.joined_of_owner _ (h.relation_mem hj)
    (h.joined_of_mem hsel hg hj).1).2

/-- The record of a row with a key is not blank. -/
theorem isBlank_slot (hprimary : j.target.primaryKey ∈ j.target.columns) {t : TableRow}
    (ht : (t.value j.target.primaryKey).isNull = false) :
    CompiledStatement.isBlank (j.slot.record (some t)) = false :=
  CompiledStatement.isBlank_eq_false (Slot.get?_record hprimary) ht

/-- What is put together at the slot of a joint is the record of the row that the joint
    finds, if it finds one. -/
theorem IsDetermined.out_succ (hdet : R.IsDetermined store) (h : R.IsSound k plan scope)
    (hc : k.catalog.IsSound) {out : Nat → Option Record} (hout : IsAssembled R.slots x out)
    (hx : R.IsReached store x) (hj : R.joints[n]? = some j) (hfits : j.Fits store x (n + 1))
    (howner : (out j.parent).isSome) (give : TableRow → Record)
    (hgive : ∀ t q, x.at? (n + 1) = some t → out (n + 1) = some q → q = give t) :
    out (n + 1) = (j.found store x).head?.map give := by
  have hmem := List.mem_of_getElem? hj
  have hhere := hout.out_succ hj
  rcases hfits with ⟨t, ht, hplace⟩ | ⟨hnil, -, hplace⟩
  · have hat : x.at? (n + 1) = some t := by rw [Combination.at?, hplace]; rfl
    obtain ⟨t', hfound⟩ : ∃ t', j.found store x = [t'] :=
      List.length_eq_one_iff.1 (Nat.le_antisymm (hdet.length_found hx hmem)
        (List.length_pos_of_mem ht))
    have hprimary : j.target.primaryKey ∈ j.target.columns :=
      hc.primaryKey_mem _ (Catalog.entity_eq_ok (h.settled j hmem).target).1
    have hblank := isBlank_slot hprimary (hdet.keyed j hmem t (Joint.mem_found.1 ht).1)
    rw [hat, howner, hblank] at hhere
    obtain rfl : t = t' := List.mem_singleton.1 (hfound ▸ ht)
    rw [hfound, hhere, hgive t _ hat hhere]
    rfl
  · have hat : x.at? (n + 1) = none := by rw [Combination.at?, hplace]; rfl
    rw [hat, CompiledStatement.isBlank_record_none, Bool.not_true, Bool.and_false] at hhere
    rw [hnil, hhere]
    rfl

/-- What is put together at a slot is the record of the row there, with what the branches
    lead to. -/
theorem IsDetermined.eq_recordOf (hdet : R.IsDetermined store) (h : R.IsSound k plan scope)
    (hsel : plan.IsSelected k.catalog root) (hc : k.catalog.IsSound)
    (hgroup : R.group ∈ plan.groups) (hordered : IsOrdered R.branches)
    {out : Nat → Option Record} (hout : IsAssembled R.slots x out) (hx : R.IsReached store x)
    (hfits : ∀ (i : Nat) (j : Joint), R.joints[i]? = some j → j.Fits store x (i + 1))
    {i : Nat} {e : Entity} {row : TableRow} {q : Record} (hq : out i = some q)
    (hrow : x.at? i = some row) (he : R.entityAt i = some e) (hi : i < R.slots.length) :
    q = recordOf store R.branches (R.chainAt i) e row := by
  obtain ⟨d, hd⟩ : ∃ d, R.slots.length ≤ i + d := ⟨_, Nat.le_add_left _ _⟩
  -- Slots start at earlier ones, so that the records are known from the last slot on.
  induction d generalizing i e row q with
  | zero => omega
  | succ d ih =>
    obtain ⟨t, ht⟩ : ∃ t, R.slots[i]? = some t := ⟨_, List.getElem?_eq_getElem hi⟩
    obtain ⟨e', he', hname, -, hcolumns⟩ := exists_entityAt ht
    obtain rfl := Option.some.inj (he.symm.trans he')
    have hrelations : (childSlots R.slots i).map (fun c => (c.2, Related.one (out c.1))) =
        (R.branches.filter (·.node.ancestors = R.chainAt i)).map fun b => (b.edge.name,
          b.related store (recordOf store R.branches b.node.chain b.target)
            (row.value b.edge.ownerColumn)) := by
      rw [childSlots_slots, h.filter_branches hsel hgroup hi, List.map_map, List.map_map]
      refine List.map_congr_left fun p hp => ?_
      obtain ⟨hp, hparent⟩ := List.mem_filter.1 hp
      have hj := List.mem_zipIdx_iff_getElem?.1 hp
      have hmem := List.mem_of_getElem? hj
      obtain rfl := of_decide_eq_true hparent
      have hlt := (List.getElem?_eq_some_iff.1 (getElem?_joints hj)).1
      have hle := h.parent_le _ _ hj
      have hfound : p.1.found store x =
          (R.branchOf p.1).found store (row.value p.1.edge.ownerColumn) := by
        rw [found_eq (R := R), hrow]
        rfl
      have hone : (R.branchOf p.1).edge.cardinality = .one := h.cardinality_eq hsel hgroup hmem
      have hgive := hdet.out_succ h hc hout hx hj (hfits _ _ hj) (by rw [hq]; rfl)
        (recordOf store R.branches p.1.relation.node.chain p.1.target) fun t' q' ht' hq' => by
          rw [← chainAt_succ hj]
          exact ih hq' ht' (by rw [entityAt, hj]; rfl) hlt (by omega)
      simp only [Function.comp_apply]
      rw [hgive, hfound, Branch.related, hone]
      rfl
    rw [hout.eq_withChildren ht hq, hrow, recordOf_eq hordered, CompiledStatement.withChildren,
      hrelations, Slot.record, hname, hcolumns]
    rfl

/-- The rows that a statement reads are assembled to the records of the rows of its
    root, in order. -/
theorem IsDetermined.mapM_assembleRow (hdet : R.IsDetermined store) (h : R.IsSound k plan scope)
    (hsel : plan.IsSelected k.catalog root) (hc : k.catalog.IsSound)
    (hgroup : R.group ∈ plan.groups) (hordered : IsOrdered R.branches) (hs : s.Reads R)
    (horder : ∀ o ∈ s.orderBy, o.column ∈ R.entity.columns) (hlimit : s.limit = none)
    (hoffset : s.offset = none) :
    (store.evaluate s).mapM (R.compiled scope).assembleRow =
      .ok ((Store.sortBy (TableRow.isBelow s.orderBy) (store.rootRows s)).map
        (recordOf store R.branches (R.chainAt 0) R.entity)) := by
  have hR := h.isJoinable hsel hc
  have hrows : ∀ r ∈ store.rootRows s, ∃ x, expand store R.joints [some r] = [x] ∧
      R.IsReached store x := by
    intro r hr
    refine hdet.exists_expand_eq hR ?_
    have := (List.mem_filter.1 hr).1
    rwa [hs.root_eq] at this
  choose! combine hexpand hreached using hrows
  have hroot : ∀ r ∈ store.rootRows s, (combine r).at? 0 = some r := fun r hr =>
    (hR.fits (hexpand r hr ▸ List.mem_singleton_self _)).1
  have hcombinations : R.combinations store s = (store.rootRows s).map combine := by
    rw [combinations, List.flatMap_congr hexpand, List.map_eq_flatMap]
  -- Combinations are ordered by their roots, so that they are sorted as these are.
  have hsorted : Store.sortBy (fun x y : Combination => TableRow.isBelow s.orderBy x.root y.root)
      (R.combinations store s) =
        (Store.sortBy (TableRow.isBelow s.orderBy) (store.rootRows s)).map combine := by
    rw [hcombinations, Store.sortBy_map]
    refine congrArg _ (Store.sortBy_congr fun a ha b hb => ?_)
    rw [Combination.root, Combination.root, hroot a ha, hroot b hb]
    rfl
  rw [hR.evaluate_eq hs horder hlimit hoffset, hsorted, List.map_map, List.mapM_map]
  refine mapM_eq_ok_map fun r hr => ?_
  have hr := (Store.sortBy_perm _).mem_iff.1 hr
  obtain ⟨-, hlen, hfits⟩ := hR.fits (hexpand r hr ▸ List.mem_singleton_self _)
  obtain ⟨out, q, hout, hzero, hassemble⟩ :=
    exists_isAssembled hR (h.isLinked hsel hgroup) hlen scope
  rw [Function.comp_apply, Function.comp_apply, hassemble, hdet.eq_recordOf h hsel hc hgroup
    hordered hout (hreached r hr) hfits hzero (hroot r hr) rfl (Nat.succ_pos _)]

end Reading

end EntityFetch
