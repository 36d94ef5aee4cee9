import EntityFetch.Proofs.Attach
import EntityFetch.Proofs.Block

/-!
# Looking up owners alone

What an owner gets of the relation at the root of a group does not depend on the other
owners whose keys are looked up with its own: it is what looking up its key alone would
give (`CompiledPlan.lookUp`). A batch of keys reads the rows of the target one after the
other, each in all ways of joining others to it
(`CompiledPlan.IsPrepared.IsFollowUp.evaluate_bindKeys`); of these the first is left
(`CompiledPlan.IsPrepared.IsFollowUp.assemble_loaded`), and an owner gets those with its
key (`CompiledPlan.IsPrepared.IsFollowUp.exists_relatedTo_eq`).
-/

namespace EntityFetch

namespace Reading

variable {R : Reading} {store : Store} {t : TableRow} {x : Combination}

/-- The record of a combination. -/
def assembled (R : Reading) (scope : QueryScope) (x : Combination) : Record :=
  ((R.compiled scope).assembleRow (x.row R.slots)).toOption.getD { entity := R.entity.name }

/-- The record of a row of the root, with what is joined to it first. There is none if an
    inner join leads nowhere. -/
def recordOf? (R : Reading) (scope : QueryScope) (store : Store) (t : TableRow) : Option Record :=
  (expand store R.joints [some t]).head?.map (R.assembled scope)

theorem IsJoinable.assembleRow_eq (hR : R.IsJoinable) (hlinked : IsLinked R.slots)
    (hx : x ∈ expand store R.joints [some t]) (scope : QueryScope) :
    (R.compiled scope).assembleRow (x.row R.slots) = .ok (R.assembled scope x) := by
  obtain ⟨_, r, -, -, hr⟩ := exists_isAssembled hR hlinked (hR.fits hx).2.1 scope
  rw [assembled, hr]
  rfl

theorem IsJoinable.key?_assembled (hR : R.IsJoinable) (hlinked : IsLinked R.slots)
    (hx : x ∈ expand store R.joints [some t]) (scope : QueryScope) {column : String}
    (hcolumn : column ∈ R.entity.columns) :
    (R.assembled scope x).key? column = (t.value column).key? := by
  have hfields := hR.fields_of_expand hlinked hx (hR.assembleRow_eq hlinked hx scope)
  rw [Record.key?, Record.get?, hfields]
  exact Entity.fieldKey?_fields hcolumn t

/-- A row has a record if rows can be picked for all inner joins. -/
theorem IsJoinable.isSome_recordOf?_iff (hR : R.IsJoinable) :
    (R.recordOf? scope store t).isSome ↔ R.Reaches store t := by
  rw [recordOf?, Option.isSome_map, List.isSome_head?, ← List.length_pos_iff,
    List.length_pos_iff_exists_mem, hR.exists_mem_expand_iff]

/-- The record of a row has its fields. -/
theorem IsJoinable.fields_of_recordOf? (hR : R.IsJoinable) (hlinked : IsLinked R.slots)
    {r : Record} (hr : R.recordOf? scope store t = some r) : r.fields = R.entity.fields t := by
  obtain ⟨x, hx, rfl⟩ := Option.map_eq_some_iff.1 hr
  have hmem := List.mem_of_mem_head? (Option.mem_def.2 hx)
  exact hR.fields_of_expand hlinked hmem (hR.assembleRow_eq hlinked hmem scope)

/-- Without limit and offset a statement answers the rows of its root that it sorts, each in all
    ways of joining others to it. -/
theorem IsJoinable.evaluate_eq_flatMap (hR : R.IsJoinable) {s : Statement} (hs : s.Reads R)
    (horder : ∀ o ∈ s.orderBy, o.column ∈ R.entity.columns) (hlimit : s.limit = none)
    (hoffset : s.offset = none)
    (hordered : Store.IsPreorderOn (TableRow.compareBy s.orderBy) (store.rootRows s)) :
    store.evaluate s =
      ((Store.sortBy (TableRow.isBelow s.orderBy) (store.rootRows s)).flatMap fun t =>
        expand store R.joints [some t]).map (Combination.row R.slots) := by
  have hblock : ∀ t ∈ store.rootRows s, ∀ x ∈ expand store R.joints [some t], x.root = t := by
    intro t _ x hx
    rw [Combination.root, (hR.fits hx).1]
    rfl
  rw [hR.evaluate_eq hs horder hlimit hoffset]
  exact congrArg _ (hordered.sortBy_flatMap hblock)

/-- The combinations of some rows of the root are assembled block by block. -/
theorem IsJoinable.mapM_assembleRow_flatMap (hR : R.IsJoinable) (hlinked : IsLinked R.slots)
    (ts : List TableRow) (scope : QueryScope) :
    ((ts.flatMap fun t => expand store R.joints [some t]).map (Combination.row R.slots)).mapM
        (R.compiled scope).assembleRow =
      .ok ((ts.flatMap fun t => expand store R.joints [some t]).map (R.assembled scope)) := by
  rw [List.mapM_map]
  refine mapM_eq_ok_map fun x hx => ?_
  obtain ⟨t, -, hx⟩ := List.mem_flatMap.1 hx
  exact hR.assembleRow_eq hlinked hx _

/-- Of the records of some rows of the root the first one of each row is left. -/
theorem IsJoinable.firstBy_assembled (hR : R.IsJoinable) (hlinked : IsLinked R.slots)
    (hprimary : R.entity.primaryKey ∈ R.entity.columns) (hkeyed : store.HasKeys R.entity)
    {ts : List TableRow} (hts : ∀ t ∈ ts, t ∈ store.rows R.entity.table) (hnodup : ts.Nodup)
    (scope : QueryScope) :
    firstBy (·.key? R.entity.primaryKey) []
        ((ts.flatMap fun t => expand store R.joints [some t]).map (R.assembled scope)) =
      ts.filterMap (R.recordOf? scope store) := by
  -- The records of a block have the key of the row of the root.
  have hkey : ∀ t ∈ ts, ∀ x ∈ expand store R.joints [some t],
      ((·.key? R.entity.primaryKey) ∘ R.assembled scope) x =
        (t.value R.entity.primaryKey).key? :=
    fun t _ x hx => hR.key?_assembled hlinked hx _ hprimary
  have hsome : ∀ t ∈ ts, (t.value R.entity.primaryKey).key?.isSome :=
    fun t ht => (hkeyed.key? (hts t ht)).1
  have hkeys : (ts.map fun t => (t.value R.entity.primaryKey).key?).Nodup :=
    hnodup.map_on fun t ht t' ht' heq => (hkeyed.key? (hts t ht)).2 t' (hts t' ht') heq
  rw [firstBy_map, firstBy_flatMap hkey hsome hkeys, List.map_filterMap]
  rfl

end Reading

namespace CompiledPlan

/-- An owner with what it gets of the relation at the root of a group if its key alone is
    looked up. -/
def lookUp (c : CompiledPlan) (store : Store) (group : Nat) (owner : Record) : Record :=
  match c.groupRoot? group, c.statement? group with
  | some r, some template =>
    let keys := distinctKeys [] (owner.get? r.node.relation.ownerColumn).toList
    let rows := (chunks 1 keys).flatMap fun keys =>
      store.evaluate (template.statement.bindKeys keys)
    let records := (template.assemble rows).toOption.getD []
    owner.setRelation r.node.relation.name (relatedTo r.node.relation records owner)
  | _, _ => owner

namespace IsPrepared.IsFollowUp

variable {p : Planner} {req : FetchRequest} {root : Entity} {c : CompiledPlan} {k : Nat}
  {R : Reading} {q : PlannedRelation} {b : Branch} {store : Store}

/-- Of a batch of keys the rows are read in the order of their primary keys, each in all
    ways of joining others to it. -/
theorem evaluate_bindKeys (hk : IsFollowUp p req c k R q b) (h : c.IsPrepared p req root)
    (hc : p.catalog.IsSound) (hkeyed : store.HasKeys b.target) (keys : List Value) :
    store.evaluate ((R.statement (p.layered req.scope)).bindKeys keys) =
      ((b.target.sorted (b.batch store keys)).flatMap fun t =>
        expand store R.joints [some t]).map (Combination.row R.slots) := by
  have hR := hk.sound.isJoinable h.selected hc
  have hclauses := hk.clauses_eq (p.layered req.scope)
  have horder := hk.orderBy_bindKeys (p.layered req.scope) keys
  have hbatch : ∀ t ∈ b.batch store keys, t ∈ store.rows b.target.table :=
    fun _ => Branch.mem_rows_of_mem_batch
  have hordered : Store.IsPreorderOn
      (TableRow.compareBy ((R.statement (p.layered req.scope)).bindKeys keys).orderBy)
      (store.rootRows ((R.statement (p.layered req.scope)).bindKeys keys)) := by
    rw [hk.rootRows_bindKeys, horder]
    exact hkeyed.isPreorderOn.mono hbatch
  rw [hR.evaluate_eq_flatMap ((Statement.Reads.statement R (p.layered req.scope)).bindKeys keys)
      (hk.column_mem_of_orderBy hc _ keys) (congrArg (fun x => x.2.1) hclauses)
      (congrArg (fun x => x.2.2) hclauses) hordered,
    horder, hk.rootRows_bindKeys, hkeyed.sortBy_eq hbatch]

/-- The rows of all batches give the records of the rows of the target, each once. -/
theorem assemble_loaded (hk : IsFollowUp p req c k R q b) (h : c.IsPrepared p req root)
    (hc : p.catalog.IsSound) {batches : List (List Value)}
    (hbatched : b.IsBatched store batches) :
    (R.compiled (p.layered req.scope)).assemble (batches.flatMap fun keys =>
        store.evaluate ((R.statement (p.layered req.scope)).bindKeys keys)) =
      .ok ((b.loaded store batches).filterMap (R.recordOf? (p.layered req.scope) store)) := by
  have hR := hk.sound.isJoinable h.selected hc
  have hlinked := hk.sound.isLinked h.selected (List.mem_of_getElem? hk.group)
  have hrows : (batches.flatMap fun keys =>
      store.evaluate ((R.statement (p.layered req.scope)).bindKeys keys)) =
        ((b.loaded store batches).flatMap fun t =>
          expand store R.joints [some t]).map (Combination.row R.slots) := by
    rw [Branch.loaded, List.flatMap_assoc, List.map_flatMap]
    exact List.flatMap_congr fun keys _ => hk.evaluate_bindKeys h hc hbatched.keyed keys
  refine bind_eq_ok.2 ⟨_, (congrArg (List.mapM _) hrows).trans
    (hR.mapM_assembleRow_flatMap hlinked _ _), congrArg Except.ok ?_⟩
  have htarget := hk.target_eq
  have hrootKey : (R.compiled (p.layered req.scope)).rootKey = R.entity.primaryKey := rfl
  rw [firstByKey_eq, hrootKey]
  exact hR.firstBy_assembled hlinked (htarget ▸ hk.primaryKey_mem hc) (htarget ▸ hbatched.keyed)
    (fun t ht => htarget ▸ Branch.mem_rows_of_mem_loaded ht) hbatched.nodup_loaded _

/-- However many keys are looked up with its own and in whatever batches, an owner gets the
    records of the rows that are found for its value alone. -/
theorem exists_relatedTo_eq (hk : IsFollowUp p req c k R q b) (h : c.IsPrepared p req root)
    (hc : p.catalog.IsSound) (hkeyed : store.HasKeys b.target)
    (htarget : ∀ t ∈ store.rows b.target.table, (t.value b.edge.targetColumn).IsPlain)
    {owner : Record} (howner : (owner.value b.edge.ownerColumn).IsPlain) {vs : List Value}
    (hvs : ∀ v ∈ vs, v.IsPlain) (hmem : ∀ v, owner.get? b.edge.ownerColumn = some v → v ∈ vs)
    (n : Nat) : ∃ records,
      (R.compiled (p.layered req.scope)).assemble ((chunks n (distinctKeys [] vs)).flatMap
        fun keys => store.evaluate ((R.statement (p.layered req.scope)).bindKeys keys)) =
          .ok records ∧
      relatedTo b.edge records owner =
        b.given store (R.recordOf? (p.layered req.scope) store)
          (owner.value b.edge.ownerColumn) := by
  have hR := hk.sound.isJoinable h.selected hc
  have hlinked := hk.sound.isLinked h.selected (List.mem_of_getElem? hk.group)
  have hbatched := Branch.isBatched_chunks hkeyed htarget hvs n
  refine ⟨_, hk.assemble_loaded h hc hbatched, hbatched.relatedTo_filterMap ?_ howner ?_⟩
  · intro t r hr
    obtain ⟨x, hx, rfl⟩ := Option.map_eq_some_iff.1 hr
    exact hR.key?_assembled hlinked (List.mem_of_mem_head? hx) _
      (hk.target_eq ▸ hk.targetColumn_mem h hc)
  · -- An owner with a key has it in one of the batches.
    intro hsome
    rw [Record.value] at hsome ⊢
    rcases hget : owner.get? b.edge.ownerColumn with _ | v
    · rw [hget] at hsome
      cases hsome
    · rw [hget, Option.getD_some] at hsome
      exact Branch.exists_mem_chunks (hmem v hget) hsome n

/-- An owner whose key alone is looked up gets the records of the rows found for it. -/
theorem lookUp_eq (hk : IsFollowUp p req c k R q b) (h : c.IsPrepared p req root)
    (hc : p.catalog.IsSound) (hkeyed : store.HasKeys b.target)
    (htarget : ∀ t ∈ store.rows b.target.table, (t.value b.edge.targetColumn).IsPlain)
    {owner : Record} (howner : (owner.value b.edge.ownerColumn).IsPlain) :
    c.lookUp store k owner = owner.setRelation b.edge.name
      (b.given store (R.recordOf? (p.layered req.scope) store)
        (owner.value b.edge.ownerColumn)) := by
  obtain ⟨records, hrecords, hgiven⟩ := hk.exists_relatedTo_eq h hc hkeyed htarget howner
    (fun v hv => by
      rw [Record.value, Option.mem_toList.1 hv] at howner
      exact howner) (fun v hv => Option.mem_toList.2 hv) 1
  rw [← hgiven, lookUp, hk.groupRoot, hk.statement]
  simp only
  rw [← hk.edge_eq]
  refine congrArg (fun records => owner.setRelation b.edge.name
    (relatedTo b.edge records owner)) ?_
  exact congrArg (fun found => (Except.toOption found).getD []) hrecords

end IsPrepared.IsFollowUp

end CompiledPlan

end EntityFetch
