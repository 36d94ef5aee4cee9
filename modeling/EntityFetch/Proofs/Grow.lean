import EntityFetch.Proofs.Outline

/-!
# Records that grow

While a fetch is under way its records are those of the branches that are loaded so far.
A further branch is put below its owners, which are found at the end of a walk along the
branches before it (`Branch.Walk`).

* `Branch.Walk.reached_recordOf`: the records at the end of a walk are those of the rows
  there, whatever else is loaded;
* `Branch.Walk.updateAt_recordOf`: giving every owner its records of a branch, together
  with what hangs below them, gives the records of one more branch.
-/

namespace EntityFetch

/-- Branches in an order in which they can be loaded, all at different paths. -/
structure IsListed (bs : List Branch) : Prop where
  ordered : IsOrdered bs
  paths_nodup : (bs.map (·.node.path)).Nodup

namespace IsListed

variable {bs cs : List Branch} {a b : Branch}

theorem sublist (h : IsListed cs) (hsub : bs.Sublist cs) : IsListed bs where
  ordered := h.ordered.sublist hsub
  paths_nodup := h.paths_nodup.sublist (hsub.map _)

/-- Branches are told apart by their paths. -/
theorem eq_of_path (h : IsListed bs) (ha : a ∈ bs) (hb : b ∈ bs)
    (heq : a.node.path = b.node.path) : a = b :=
  List.inj_on_of_nodup_map h.paths_nodup ha hb heq

/-- A branch does not have the path of one before it. -/
theorem path_ne (h : IsListed (bs ++ b :: cs)) (ha : a ∈ bs) : a.node.path ≠ b.node.path := by
  have hpath := h.paths_nodup
  rw [List.map_append, List.nodup_append] at hpath
  exact hpath.2.2 _ (List.mem_map_of_mem ha) _ (List.mem_map_of_mem List.mem_cons_self)

/-- Branches that start at one place are told apart by their names. -/
theorem eq_of_name (h : IsListed bs) (ha : a ∈ bs) (hb : b ∈ bs)
    (hway : a.node.ancestors = b.node.ancestors) (hname : a.edge.name = b.edge.name) :
    a = b := by
  refine h.eq_of_path ha hb ?_
  rw [Node.path, Node.path, Node.chain, Node.chain, hway, List.map_append, List.map_append]
  exact congrArg (fun n => dotted (_ ++ [n])) hname

theorem names_nodup (h : IsListed bs) (way : List Relation) :
    ((bs.filter (·.node.ancestors = way)).map (·.edge.name)).Nodup := by
  have hnodup : (bs.filter (·.node.ancestors = way)).Nodup :=
    (List.Nodup.of_map _ h.paths_nodup).filter _
  refine hnodup.map_on fun a ha b hb => ?_
  obtain ⟨ha, hway⟩ := List.mem_filter.1 ha
  obtain ⟨hb, hway'⟩ := List.mem_filter.1 hb
  exact h.eq_of_name ha hb ((of_decide_eq_true hway).trans (of_decide_eq_true hway').symm)

end IsListed

namespace Branch

/-- The rows to which an owner with a value in its column is led. -/
def rows (store : Store) (b : Branch) (v : Value) : List TableRow :=
  match b.edge.cardinality with
  | .one => (b.found store v).head?.toList
  | .many => b.target.sorted (b.found store v)

variable {store : Store} {bs cs : List Branch} {way way' : List Relation} {e e' : Entity}
  {r : TableRow} {a b : Branch}

theorem mem_of_mem_rows {v : Value} {t : TableRow} (h : t ∈ b.rows store v) :
    t ∈ store.rows b.target.table := by
  refine (List.mem_filter.1 (?_ : t ∈ b.found store v)).1
  unfold rows at h
  split at h
  · exact List.mem_of_mem_head? (Option.mem_toList.1 h)
  · exact (List.mergeSort_perm _ _).mem_iff.1 h

theorem toList_related (give : TableRow → Record) (v : Value) :
    (b.related store give v).toList = (b.rows store v).map give := by
  unfold related rows
  cases b.edge.cardinality with
  | one => cases (b.found store v).head? <;> rfl
  | many => rfl

theorem map_related (give : TableRow → Record) (f : Record → Record) (v : Value) :
    (b.related store give v).map f = b.related store (fun r => f (give r)) v := by
  unfold related
  cases b.edge.cardinality with
  | one => cases (b.found store v).head? <;> rfl
  | many =>
    simp only [Related.map, List.map_map]
    rfl

/-- The records of a relation are those of the rows to which it leads. -/
theorem related_recordOf (h : IsListed bs) (hb : b ∈ bs) (hway : b.node.ancestors = way) :
    (recordOf store bs way e r).related b.edge.name =
      (b.rows store (r.value b.edge.ownerColumn)).map
        (recordOf store bs b.node.chain b.target) := by
  have hmem : b ∈ bs.filter (·.node.ancestors = way) :=
    List.mem_filter.2 ⟨hb, decide_eq_true hway⟩
  have hlookup : (recordOf store bs way e r).relations.lookup b.edge.name =
      some (b.related store (recordOf store bs b.node.chain b.target)
        (r.value b.edge.ownerColumn)) := by
    rw [relations_recordOf h.ordered]
    refine Assoc.lookup_of_mem (e := (b.edge.name, _)) ?_ (List.mem_map.2 ⟨b, hmem, rfl⟩)
    rw [Assoc.keys, List.map_map]
    exact h.names_nodup way
  rw [Record.related, Record.relation?, hlookup]
  exact toList_related ..

/-- Going along branches, each of which starts where the one before ends. -/
inductive Walk (bs : List Branch) : List Relation → Entity → List Branch → List Relation →
    Entity → Prop
  | nil {way : List Relation} {e : Entity} : Walk bs way e [] way e
  | cons {a : Branch} {as : List Branch} {way' : List Relation} {e' : Entity} : a ∈ bs →
    Walk bs a.node.chain a.target as way' e' →
      Walk bs a.node.ancestors a.owner (a :: as) way' e'

/-- The rows that are reached along branches. -/
def walk (store : Store) (as : List Branch) (rows : List TableRow) : List TableRow :=
  as.foldl (fun rows a => rows.flatMap fun r => a.rows store (r.value a.edge.ownerColumn)) rows

/-- From more rows more are reached. -/
theorem walk_mono {as : List Branch} {rows rows' : List TableRow} (h : ∀ r ∈ rows, r ∈ rows') :
    ∀ t ∈ walk store as rows, t ∈ walk store as rows' := by
  induction as generalizing rows rows' with
  | nil => exact h
  | cons a as ih =>
    refine ih fun t ht => ?_
    obtain ⟨r, hr, ht⟩ := List.mem_flatMap.1 ht
    exact List.mem_flatMap.2 ⟨r, h r hr, ht⟩

namespace Walk

variable {as : List Branch}

theorem mono (h : Walk bs way e as way' e') (hsub : ∀ b ∈ bs, b ∈ cs) :
    Walk cs way e as way' e' := by
  induction h with
  | nil => exact .nil
  | cons ha _ ih => exact .cons (hsub _ ha) ih

theorem snoc (h : Walk bs way e as a.node.ancestors a.owner) (ha : a ∈ bs) :
    Walk bs way e (as ++ [a]) a.node.chain a.target := by
  generalize hw : a.node.ancestors = w, he : a.owner = o at h
  induction h with
  | nil =>
    subst hw he
    exact .cons ha .nil
  | cons hb _ ih => exact .cons hb (ih hw he)

/-- Along a walk the relations are passed one by one. -/
theorem chain_eq (h : Walk bs way e as way' e') : way' = way ++ as.map Branch.edge := by
  induction h with
  | nil => simp
  | cons _ _ ih =>
    rw [ih, Node.chain, List.append_assoc]
    rfl

/-- A walk ends at rows of the entity there. -/
theorem mem_rows (h : Walk bs way e as way' e') {rows : List TableRow}
    (hrows : ∀ r ∈ rows, r ∈ store.rows e.table) :
    ∀ t ∈ walk store as rows, t ∈ store.rows e'.table := by
  induction h generalizing rows with
  | nil => exact hrows
  | cons _ _ ih =>
    refine ih fun t ht => ?_
    obtain ⟨r, -, ht⟩ := List.mem_flatMap.1 ht
    exact mem_of_mem_rows ht

/-- The records at the end of a walk are those of the rows there. -/
theorem reached_recordOf (h : Walk bs way e as way' e') (hbs : IsListed bs)
    (rows : List TableRow) :
    Record.reached (as.map (·.edge.name)) (rows.map (recordOf store bs way e)) =
      (walk store as rows).map (recordOf store bs way' e') := by
  induction h generalizing rows with
  | nil => rfl
  | @cons a as way' e' ha _ ih =>
    have hstep : (rows.map (recordOf store bs a.node.ancestors a.owner)).flatMap
        (fun r => r.related a.edge.name) =
          (rows.flatMap fun r => a.rows store (r.value a.edge.ownerColumn)).map
            (recordOf store bs a.node.chain a.target) := by
      rw [List.flatMap_map, List.map_flatMap]
      exact List.flatMap_congr fun r _ => related_recordOf hbs ha rfl
    rw [List.map_cons, Record.reached_cons_eq, hstep, ih]
    rfl

end Walk

/-! ### One more branch -/

variable {js : List Branch}

/-- An owner with its records of a branch, below which other branches are loaded. -/
def give (store : Store) (b : Branch) (js : List Branch) (owner : Record) : Record :=
  owner.setRelation b.edge.name
    (b.related store (recordOf store js b.node.chain b.target) (owner.value b.edge.ownerColumn))

/-- What is loaded with a branch: nothing but what hangs below it. -/
def IsBelow (b : Branch) (js : List Branch) : Prop :=
  ∀ c ∈ js, b.node.chain <+: c.node.ancestors

/-- What is loaded with a branch is not below one that turns off before it. -/
theorem IsBelow.not_prefix (h : b.IsBelow js) (hbs : IsListed (bs ++ b :: js)) (ha : a ∈ bs)
    (hway : a.node.ancestors <+: b.node.ancestors)
    (hoff : ¬ a.node.chain <+: b.node.ancestors) :
    ∀ c ∈ b :: js, ¬ a.node.chain <+: c.node.ancestors := by
  intro c hc hpre
  rcases List.mem_cons.1 hc with rfl | hc
  · exact hoff hpre
  · have hlength : a.node.chain.length ≤ b.node.chain.length := by
      rw [Node.chain, Node.chain, List.length_append, List.length_append]
      exact Nat.succ_le_succ hway.length_le
    rcases List.prefix_concat_iff.1 (List.prefix_of_prefix_length_le hpre (h c hc) hlength) with
      heq | hpre
    · exact hbs.path_ne ha
        (congrArg (fun chain : List Relation => dotted (chain.map Relation.name)) heq)
    · exact hoff hpre

/-- What is loaded with a branch does not start before it. -/
theorem IsBelow.filter_eq_nil (h : b.IsBelow js)
    (hlt : way.length < b.node.ancestors.length) :
    (b :: js).filter (·.node.ancestors = way) = [] := by
  refine List.filter_eq_nil_iff.2 fun c hc heq => ?_
  rw [← of_decide_eq_true heq] at hlt
  rcases List.mem_cons.1 hc with rfl | hc
  · exact Nat.lt_irrefl _ hlt
  · have := (h c hc).length_le
    rw [Node.chain, List.length_append] at this
    omega

/-- Below a branch there is what is listed after it. -/
theorem recordOf_chain (hbs : IsListed (bs ++ b :: js)) (e : Entity) :
    recordOf store (bs ++ b :: js) b.node.chain e = recordOf store js b.node.chain e := by
  funext t
  have hsplit : bs ++ b :: js = (bs ++ [b]) ++ js := by rw [List.append_assoc]; rfl
  rw [hsplit]
  refine recordOf_of_ne fun a ha => ?_
  rcases List.mem_append.1 ha with ha | ha
  · exact (List.pairwise_append.1 hbs.ordered).2.2 a ha b List.mem_cons_self
  · rw [List.mem_singleton.1 ha]
    exact ancestors_ne_chain b.node

/-- An owner does not have a branch before it is given. -/
theorem name_not_mem_keys (hbs : IsListed (bs ++ b :: js)) :
    b.edge.name ∉ Assoc.keys (recordOf store bs b.node.ancestors e r).relations := by
  have hbefore := hbs.sublist (List.sublist_append_left bs (b :: js))
  rw [relations_recordOf hbefore.ordered, Assoc.keys, List.map_map]
  intro hmem
  obtain ⟨a, ha, hname⟩ := List.mem_map.1 hmem
  obtain ⟨ha, hway⟩ := List.mem_filter.1 ha
  have hsame := hbs.eq_of_name (List.mem_append_left _ ha)
    (List.mem_append_right bs List.mem_cons_self) (of_decide_eq_true hway) hname
  exact hbs.path_ne ha (congrArg (·.node.path) hsame)

/-- An owner is given a branch. -/
theorem give_recordOf (hbs : IsListed (bs ++ b :: js)) (hjs : b.IsBelow js)
    (hcolumn : b.edge.ownerColumn ∈ b.owner.columns) :
    b.give store js (recordOf store bs b.node.ancestors b.owner r) =
      recordOf store (bs ++ b :: js) b.node.ancestors b.owner r := by
  have hbefore := hbs.sublist (List.sublist_append_left bs (b :: js))
  have hvalue : (recordOf store bs b.node.ancestors b.owner r).value b.edge.ownerColumn =
      r.value b.edge.ownerColumn := by rw [Record.value, get?_recordOf hcolumn]; rfl
  -- The other relations of the owner stay as they are.
  have hothers : (bs.filter (·.node.ancestors = b.node.ancestors)).map (fun a => (a.edge.name,
      a.related store (recordOf store (bs ++ b :: js) a.node.chain a.target)
        (r.value a.edge.ownerColumn))) =
        (recordOf store bs b.node.ancestors b.owner r).relations := by
    rw [relations_recordOf hbefore.ordered]
    refine List.map_congr_left fun a ha => ?_
    obtain ⟨ha, hway⟩ := List.mem_filter.1 ha
    have hway := of_decide_eq_true hway
    have hoff : ¬ a.node.chain <+: b.node.ancestors := by
      intro hpre
      have := hpre.length_le
      rw [Node.chain, List.length_append, hway, List.length_singleton] at this
      omega
    have hgive : recordOf store (bs ++ b :: js) a.node.chain a.target =
        recordOf store bs a.node.chain a.target :=
      funext fun _ => recordOf_append (hjs.not_prefix hbs ha (hway ▸ List.prefix_refl _) hoff)
    rw [hgive]
  have hjoined : js.filter (·.node.ancestors = b.node.ancestors) = [] := by
    refine List.filter_eq_nil_iff.2 fun c hc heq => ?_
    have := (hjs c hc).length_le
    rw [of_decide_eq_true heq, Node.chain, List.length_append, List.length_singleton] at this
    omega
  rw [give, Record.setRelation, Assoc.insert_of_not_mem _ (name_not_mem_keys hbs), hvalue,
    recordOf_eq hbs.ordered, List.filter_append, List.filter_cons_of_pos (by simp), hjoined,
    List.map_append, hothers, List.map_singleton, recordOf_chain hbs, entity_recordOf,
    fields_recordOf]

/-- All owners at the end of a walk are given a branch. -/
theorem Walk.updateAt_recordOf {as : List Branch}
    (h : Walk bs way e as b.node.ancestors b.owner) (hbs : IsListed (bs ++ b :: js))
    (hjs : b.IsBelow js) (hcolumn : b.edge.ownerColumn ∈ b.owner.columns) (r : TableRow) :
    Record.updateAt (as.map (·.edge.name)) (b.give store js) (recordOf store bs way e r) =
      recordOf store (bs ++ b :: js) way e r := by
  have hbefore := hbs.sublist (List.sublist_append_left bs (b :: js))
  generalize hway : b.node.ancestors = end', howner : b.owner = o at h
  induction h generalizing r with
  | nil =>
    subst hway howner
    exact give_recordOf hbs hjs hcolumn
  | @cons a as way' e' ha hwalk ih =>
    -- The walk goes on below one of the branches that start here, and no other changes.
    have hpre : a.node.chain <+: b.node.ancestors := by
      rw [hway, hwalk.chain_eq]
      exact List.prefix_append _ _
    have hstart : a.node.ancestors <+: b.node.ancestors := (List.prefix_append _ _).trans hpre
    have hnone : (b :: js).filter (·.node.ancestors = a.node.ancestors) = [] := by
      refine hjs.filter_eq_nil ?_
      have := hpre.length_le
      rw [Node.chain, List.length_append, List.length_singleton] at this
      omega
    rw [List.map_cons, Record.updateAt, recordOf_eq hbefore.ordered, recordOf_eq hbs.ordered,
      Assoc.modify_map (hbefore.names_nodup _), List.filter_append, hnone, List.append_nil]
    refine congrArg _ (List.map_congr_left fun a' ha' => Prod.ext rfl ?_)
    obtain ⟨ha', hsame⟩ := List.mem_filter.1 ha'
    have hsame := of_decide_eq_true hsame
    by_cases hname : a'.edge.name = a.edge.name
    · obtain rfl := hbefore.eq_of_name ha' ha hsame hname
      simp only [beq_self_eq_true, if_true, map_related]
      exact congrArg (a'.related store · _) (funext fun t => ih t hway howner)
    · have hoff : ¬ a'.node.chain <+: b.node.ancestors := by
        intro hpre'
        have heq : a'.node.chain = a.node.chain := by
          refine (List.prefix_of_prefix_length_le hpre' hpre ?_).eq_of_length ?_ <;>
            simp [Node.chain, hsame]
        rw [Node.chain, Node.chain, hsame] at heq
        exact hname (congrArg Relation.name (List.singleton_inj.1 (List.append_cancel_left heq)))
      have hrest : recordOf store (bs ++ b :: js) a'.node.chain a'.target =
          recordOf store bs a'.node.chain a'.target :=
        funext fun _ => recordOf_append (hjs.not_prefix hbs ha' (hsame ▸ hstart) hoff)
      rw [if_neg (by simpa using hname), hrest]

end Branch

end EntityFetch
