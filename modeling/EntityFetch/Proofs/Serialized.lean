import EntityFetch.Proofs.Filtered
import EntityFetch.Proofs.Outcome
import EntityFetch.Proofs.Shape

/-!
# Records as JSON objects

In JSON the fields and the relations of a record are entries of one object. A relation that has
the name of a field takes its place there, and the value of the field is lost.

* `Record.IsMapped.exists_toJson`: what the object of a record has under each name, and how many
  entries, if no two fields have the same name, and no two relations.
* `CompiledPlan.IsPrepared.isPlacedAt_of_attach`: the relations of a record are relations of the
  entity of which it is, and its fields columns, however the groups are attached.
* `Planner.toJson_of_gives`: what the records become that a fetch gives. Nothing is lost where no
  entity has a relation with the name of a column.
-/

namespace EntityFetch

open Std (LawfulEqOrd OrientedCmp TransCmp)

namespace Assoc

variable {α β γ : Type}

theorem keys_map (f : β → γ) (m : List (α × β)) : keys (m.map fun e => (e.1, f e.2)) = keys m := by
  rw [keys, List.map_map]
  rfl

theorem lookup_map [BEq α] {k : α} (f : β → γ) (m : List (α × β)) :
    (m.map fun e => (e.1, f e.2)).lookup k = (m.lookup k).map f := by
  induction m with
  | nil => rfl
  | cons e m ih =>
    rw [List.map_cons, List.lookup_cons, List.lookup_cons, ih]
    cases k == e.1 <;> rfl

end Assoc

/-! ### Objects in normal form -/

namespace Json

variable {j k : String} {v : Json} {es fs : List (String × Json)}

theorem normalizeItems_eq_map (js : List Json) : normalizeItems js = js.map normalize := by
  induction js with
  | nil => rfl
  | cons j js ih => rw [normalizeItems, ih, List.map_cons]

theorem normalizeEntries_eq_map (es : List (String × Json)) :
    normalizeEntries es = es.map fun e => (e.1, e.2.normalize) := by
  induction es with
  | nil => rfl
  | cons e es ih => rw [normalizeEntries, ih, List.map_cons]

/-- An entry that is put among others is found under its name. -/
theorem lookup_insertEntry (j k : String) (v : Json) (es : List (String × Json)) :
    (insertEntry k v es).lookup j = if j == k then some v else es.lookup j := by
  induction es with
  | nil =>
    rw [insertEntry, List.lookup_cons]
    cases j == k <;> rfl
  | cons e es ih =>
    obtain ⟨l, w⟩ := e
    rw [insertEntry]
    cases hcompare : compare k l with
    | lt =>
      simp only [List.lookup_cons]
      cases j == k <;> rfl
    | eq =>
      obtain rfl := LawfulEqOrd.eq_of_compare hcompare
      simp only [List.lookup_cons]
      cases j == k <;> rfl
    -- The entry goes further down, past a name that is another one.
    | gt =>
      have hne : k ≠ l := by
        rintro rfl
        simp at hcompare
      simp only [List.lookup_cons, ih]
      by_cases hj : j = l
      · subst hj
        simp [Ne.symm hne]
      · simp [beq_eq_false_iff_ne.2 hj]

/-- Entries with different names that are put among others are found under their names. -/
theorem lookup_foldl_insertEntry (hfs : (Assoc.keys fs).Nodup) :
    (fs.foldl (fun sorted e => insertEntry e.1 e.2 sorted) es).lookup k =
      (fs.lookup k).or (es.lookup k) := by
  induction fs generalizing es with
  | nil => rfl
  | cons e fs ih =>
    rw [Assoc.keys_cons, List.nodup_cons] at hfs
    rw [List.foldl_cons, ih hfs.2, lookup_insertEntry, List.lookup_cons]
    by_cases hk : k = e.1
    · -- No later entry has the name.
      rw [hk, Assoc.lookup_eq_none_iff.2 hfs.1]
      simp
    · simp [beq_eq_false_iff_ne.2 hk]

/-- Of entries of two sorts those of the second sort win. -/
theorem lookup_sortEntries_append (hes : (Assoc.keys es).Nodup) (hfs : (Assoc.keys fs).Nodup) :
    (sortEntries (es ++ fs)).lookup k = (fs.lookup k).or (es.lookup k) := by
  rw [sortEntries, List.foldl_append, lookup_foldl_insertEntry hfs, lookup_foldl_insertEntry hes,
    List.lookup_nil, Option.or_none]

/-- Whether the names of entries go up. -/
def IsSorted (es : List (String × Json)) : Prop :=
  (Assoc.keys es).Pairwise fun j k => compare j k = .lt

theorem mem_keys_insertEntry :
    j ∈ Assoc.keys (insertEntry k v es) ↔ j = k ∨ j ∈ Assoc.keys es := by
  rw [← not_iff_not, ← Assoc.lookup_eq_none_iff, lookup_insertEntry, not_or,
    ← Assoc.lookup_eq_none_iff]
  by_cases hj : j = k <;> simp [hj]

theorem IsSorted.insertEntry (h : IsSorted es) (k : String) (v : Json) :
    IsSorted (insertEntry k v es) := by
  induction es with
  | nil => exact List.pairwise_singleton _ _
  | cons e es ih =>
    obtain ⟨l, w⟩ := e
    rw [IsSorted, Assoc.keys_cons, List.pairwise_cons] at h
    obtain ⟨hl, hes⟩ := h
    rw [Json.insertEntry]
    cases hcompare : compare k l with
    | lt =>
      refine List.pairwise_cons.2 ⟨fun j hj => ?_, List.pairwise_cons.2 ⟨hl, hes⟩⟩
      rcases List.mem_cons.1 hj with rfl | hj
      · exact hcompare
      · exact TransCmp.lt_trans hcompare (hl j hj)
    | eq =>
      obtain rfl := LawfulEqOrd.eq_of_compare hcompare
      exact List.pairwise_cons.2 ⟨hl, hes⟩
    | gt =>
      refine List.pairwise_cons.2 ⟨fun j hj => ?_, ih hes⟩
      rcases mem_keys_insertEntry.1 hj with rfl | hj
      · exact OrientedCmp.gt_iff_lt.1 hcompare
      · exact hl j hj

theorem isSorted_sortEntries (es : List (String × Json)) : IsSorted (sortEntries es) := by
  suffices h : ∀ sorted, IsSorted sorted →
      IsSorted (es.foldl (fun sorted e => Json.insertEntry e.1 e.2 sorted) sorted) from
    h [] List.Pairwise.nil
  induction es with
  | nil => exact fun _ h => h
  | cons e es ih => exact fun sorted h => ih _ (h.insertEntry e.1 e.2)

theorem IsSorted.nodup_keys (h : IsSorted es) : (Assoc.keys es).Nodup := by
  refine h.imp fun hlt heq => ?_
  subst heq
  simp at hlt

end Json

namespace Related

/-- A loaded relation in JSON: null, an object or an array of objects. -/
def toJson : Related Record → Json
  | one none => .null
  | one (some r) => r.toJson
  | many rs => .arr (rs.map Record.toJson)

end Related

namespace Record

variable {r : Record}

theorem trees_eq_map (rs : List Record) : trees rs = rs.map tree := by
  induction rs with
  | nil => rfl
  | cons r rs ih => rw [trees, ih, List.map_cons]

theorem normalizeEntries_relationTrees (rels : List (String × Related Record)) :
    Json.normalizeEntries (relationTrees rels) = rels.map fun e => (e.1, e.2.toJson) := by
  induction rels with
  | nil => rfl
  | cons e rels ih =>
    obtain ⟨name, rel⟩ := e
    match rel with
    | .one none => rw [relationTrees, Json.normalizeEntries, ih]; rfl
    | .one (some r) => rw [relationTrees, Json.normalizeEntries, ih]; rfl
    | .many rs =>
      rw [relationTrees, Json.normalizeEntries, ih, Json.normalize, trees_eq_map,
        Json.normalizeItems_eq_map, List.map_map]
      rfl

/-- The fields of a record in JSON. -/
def fieldEntries (r : Record) : List (String × Json) :=
  r.fields.map fun e => (e.1, e.2.toJson.normalize)

/-- The relations of a record in JSON. -/
def relationEntries (r : Record) : List (String × Json) :=
  r.relations.map fun e => (e.1, e.2.toJson)

theorem keys_fieldEntries (r : Record) : Assoc.keys r.fieldEntries = Assoc.keys r.fields :=
  Assoc.keys_map (fun v : Value => v.toJson.normalize) r.fields

theorem keys_relationEntries (r : Record) :
    Assoc.keys r.relationEntries = Assoc.keys r.relations :=
  Assoc.keys_map Related.toJson r.relations

/-- The object of a record is made of its fields and then its relations. -/
theorem toJson_eq (r : Record) :
    r.toJson = .obj (Json.sortEntries (r.fieldEntries ++ r.relationEntries)) := by
  obtain ⟨entity, fields, relations⟩ := r
  rw [toJson, tree, Json.normalize, Json.normalizeEntries_eq_map, List.map_append, List.map_map,
    ← Json.normalizeEntries_eq_map, normalizeEntries_relationTrees]
  rfl

/-! ### What a record becomes -/

/-- Whether no two fields have the same name, and no two relations. -/
structure IsMapped (r : Record) : Prop where
  fields : (Assoc.keys r.fields).Nodup
  relations : (Assoc.keys r.relations).Nodup

/-- The names that both a field and a relation have. -/
def shared (r : Record) : List String :=
  (Assoc.keys r.relations).filter (Assoc.keys r.fields).contains

/-- Whether entries are those for the fields of a record and its relations, one for each. -/
structure IsListedBy (r : Record) (es : List (String × Json)) : Prop where
  field : ∀ name v, r.get? name = some v → es.lookup name = some v.toJson.normalize
  relation : ∀ name rel, r.relation? name = some rel → es.lookup name = some rel.toJson
  length : es.length = r.fields.length + r.relations.length

/-- Whether entries with different names are what is left of the fields of a record and its
    relations where a relation takes the place of a field. -/
structure IsOverlaidBy (r : Record) (es : List (String × Json)) : Prop where
  nodup : (Assoc.keys es).Nodup
  lookup : ∀ name, es.lookup name =
    ((r.relation? name).map Related.toJson).or ((r.get? name).map fun v => v.toJson.normalize)
  length : es.length + r.shared.length = r.fields.length + r.relations.length

/-- Where relations take the places of fields, nothing is lost if there are no such places. -/
theorem IsOverlaidBy.isListedBy_iff {es : List (String × Json)} (h : r.IsOverlaidBy es) :
    r.IsListedBy es ↔ r.shared = [] := by
  constructor
  · intro hlisted
    have hlength := h.length
    rw [hlisted.length] at hlength
    exact List.length_eq_zero_iff.1 (Nat.add_eq_left.1 hlength)
  · intro hshared
    have hrelation : ∀ name rel, r.relation? name = some rel →
        es.lookup name = some rel.toJson := by
      intro name rel hrel
      rw [h.lookup, hrel]
      rfl
    refine ⟨fun name v hv => ?_, hrelation, ?_⟩
    · -- A field whose name a relation has is shared, and nothing is.
      have hnone : r.relation? name = none := by
        refine Assoc.lookup_eq_none_iff.2 fun hmem => ?_
        have hfield : name ∈ Assoc.keys r.fields := by
          by_contra hnot
          exact Option.some_ne_none v (hv.symm.trans (Assoc.lookup_eq_none_iff.2 hnot))
        exact List.filter_eq_nil_iff.1 hshared name hmem (List.contains_iff_mem.2 hfield)
      rw [h.lookup, hnone, hv]
      rfl
    · rw [← h.length, hshared]
      rfl

/-- The names in the object of a record are those of its fields and those of its relations that
    are no field's. -/
theorem IsMapped.keys_perm (h : r.IsMapped) :
    (Assoc.keys (Json.sortEntries (r.fieldEntries ++ r.relationEntries))).Perm
      (Assoc.keys r.fields ++
        (Assoc.keys r.relations).filter fun name => !(Assoc.keys r.fields).contains name) := by
  refine (List.perm_ext_iff_of_nodup (Json.isSorted_sortEntries _).nodup_keys ?_).2 fun name => ?_
  · refine List.nodup_append.2 ⟨h.fields, h.relations.filter _, ?_⟩
    rintro name hfield _ hrelation rfl
    have hother := (List.mem_filter.1 hrelation).2
    simp [hfield] at hother
  · rw [← not_iff_not, ← Assoc.lookup_eq_none_iff, Json.lookup_sortEntries_append
      (r.keys_fieldEntries ▸ h.fields) (r.keys_relationEntries ▸ h.relations),
      Option.or_eq_none_iff, Assoc.lookup_eq_none_iff, Assoc.lookup_eq_none_iff,
      keys_fieldEntries, keys_relationEntries, List.mem_append, List.mem_filter]
    by_cases hfield : name ∈ Assoc.keys r.fields <;> simp [hfield]

/-- In the object of a record relations take the places of fields. -/
theorem IsMapped.exists_toJson (h : r.IsMapped) :
    ∃ es, r.toJson = .obj es ∧ r.IsOverlaidBy es := by
  refine ⟨_, toJson_eq r, (Json.isSorted_sortEntries _).nodup_keys, fun name => ?_, ?_⟩
  · rw [Json.lookup_sortEntries_append (r.keys_fieldEntries ▸ h.fields)
      (r.keys_relationEntries ▸ h.relations)]
    exact congrArg₂ Option.or (Assoc.lookup_map Related.toJson r.relations)
      (Assoc.lookup_map (fun v : Value => v.toJson.normalize) r.fields)
  · have hlength := h.keys_perm.length_eq
    have hsplit := List.length_eq_length_filter_add (l := Assoc.keys r.relations)
      (Assoc.keys r.fields).contains
    simp only [Assoc.keys, List.length_map, List.length_append] at hlength hsplit
    rw [hlength, shared, Assoc.keys, Assoc.keys]
    omega

/-! ### What is fetched -/

theorem IsMapped.setRelation (h : r.IsMapped) (name : String) (rel : Related Record) :
    (r.setRelation name rel).IsMapped :=
  ⟨h.fields, Assoc.nodup_keys_update h.relations⟩

theorem keys_relations (r : Record) : Assoc.keys r.relations = r.kinds.map Prod.fst := by
  rw [kinds, List.map_map]
  rfl

end Record

namespace LoadPlan

variable {c : Catalog} {root : Entity} {p : LoadPlan} {n n' : Place} {r r' : Record}
  {q : PlannedRelation}

/-- Whether a record has fields for columns of the entity at a place and relations that are
    directly below it, each once. It need not have all of them. -/
structure IsPlacedAt (p : LoadPlan) (c : Catalog) (n : Place) (r : Record) : Prop where
  mapped : r.IsMapped
  fields : ∃ e, c.entity (p.targetAt n) = .ok e ∧ ∀ name ∈ Assoc.keys r.fields, name ∈ e.columns
  relations : ∀ name ∈ Assoc.keys r.relations, ∃ q ∈ p.below n, q.node.relation.name = name

theorem IsPlacedAt.of_surface (h : p.IsPlacedAt c n r) (hsurface : r'.surface = r.surface) :
    p.IsPlacedAt c n r' := by
  obtain ⟨-, hrest⟩ := Prod.mk.inj hsurface
  obtain ⟨hfields, hkinds⟩ := Prod.mk.inj hrest
  have hrelations : Assoc.keys r'.relations = Assoc.keys r.relations := by
    rw [r'.keys_relations, hkinds, r.keys_relations]
  exact ⟨⟨hfields ▸ h.mapped.fields, hrelations ▸ h.mapped.relations⟩, hfields ▸ h.fields,
    hrelations ▸ h.relations⟩

theorem IsPlacedAt.setRelation (h : p.IsPlacedAt c n r) (hq : q ∈ p.below n)
    (rel : Related Record) : p.IsPlacedAt c n (r.setRelation q.node.relation.name rel) where
  mapped := h.mapped.setRelation _ rel
  fields := h.fields
  relations name hname := by
    rcases Assoc.mem_keys_insert.1 hname with rfl | hname
    · exact ⟨q, hq, rfl⟩
    · exact h.relations name hname

/-- What has the shape of a place, as far as it is loaded, is placed there. -/
theorem IsSelected.isPlacedAt (h : p.IsSelected c root) {done : List Nat} {names : List String}
    (hr : p.IsShapedAt c done names r) : ∃ n ∈ p.places, n.names = names ∧ p.IsPlacedAt c n r := by
  obtain ⟨n, hn, hnames, -, e, he, hshape⟩ := hr
  have hrels : ((p.belowIn done n).map fun q => q.node.relation.name).Nodup :=
    (h.nodup_belowIn done n).map_on fun q hq q' hq' heq =>
      h.eq_of_name hn (mem_belowIn.1 hq).1 (mem_belowIn.1 hq').1 heq
  have hkinds : (Assoc.keys r.relations).Perm
      ((p.belowIn done n).map fun q => q.node.relation.name) := by
    have hperm := hshape.relations.map Prod.fst
    rwa [List.map_map, ← r.keys_relations] at hperm
  refine ⟨n, hn, hnames, ⟨?_, hkinds.nodup_iff.2 hrels⟩, ⟨e, he, fun name hname => ?_⟩,
    fun name hname => ?_⟩
  · exact hshape.columns ▸ nodup_addAllNew List.nodup_nil _
  · rw [hshape.columns, mem_addAllNew] at hname
    exact hname.resolve_left List.not_mem_nil
  · obtain ⟨q, hq, hname⟩ := List.mem_map.1 (hkinds.mem_iff.1 hname)
    exact ⟨q, (mem_belowIn.1 hq).1, hname⟩

/-- Names that spell the way to a place are those of a place only if it is that one. -/
theorem IsSelected.eq_of_spells (h : p.IsSelected c root) (hn : n ∈ p.places) (hn' : n' ∈ p.places)
    (hspells : Spells n.names n'.chain) : n = n' := by
  rw [mem_places] at hn hn'
  rcases n with _ | m <;> rcases n' with _ | m'
  · rfl
  · exact absurd (hspells.2.1 rfl) m'.node.chain_ne_nil
  · exact absurd (hspells.2.2 rfl) m.node.names_ne_nil
  · exact congrArg some (h.eq_of_path (hn m rfl) (hn' m' rfl) hspells.1)

/-- A relation below a place is one of the entity there. -/
theorem IsSelected.relation_mem_of_below (h : p.IsSelected c root) (hn : n ∈ p.places)
    (hq : q ∈ p.below n) {e : Entity} (he : c.entity (p.targetAt n) = .ok e) :
    q.node.relation ∈ e.relations := by
  obtain ⟨hmem, hparent⟩ := mem_below.1 hq
  obtain ⟨parent, hknown, hchild⟩ := h.exists_parent hmem
  obtain ⟨e', hstart, howned⟩ := hchild.relation
  have hid : Place.id? parent = n.id? := by
    rw [← hparent, hchild.parent_eq, Option.map_map]
    rfl
  obtain rfl := h.eq_of_id? (mem_places.2 hknown) hn hid
  cases parent with
  | none =>
    obtain rfl : e' = root := hstart
    exact Except.ok.inj (h.entity.symm.trans he) ▸ howned
  | some m => exact Except.ok.inj (Eq.symm hstart |>.trans he) ▸ howned

end LoadPlan

namespace CompiledPlan

/-- Whether the names by which a record is reached are those on the way to a place, and the record
    is placed there. -/
def IsPlacedAt (c : CompiledPlan) (catalog : Catalog) (names : List String) (r : Record) : Prop :=
  ∃ n ∈ c.plan.places, n.names = names ∧ c.plan.IsPlacedAt catalog n r

theorem IsPlacedAt.of_surface {c : CompiledPlan} {catalog : Catalog} {names : List String}
    {r r' : Record} (h : c.IsPlacedAt catalog names r) (hsurface : r'.surface = r.surface) :
    c.IsPlacedAt catalog names r' := by
  obtain ⟨n, hn, hnames, h⟩ := h
  exact ⟨n, hn, hnames, h.of_surface hsurface⟩

namespace IsPrepared

variable {p : Planner} {req : FetchRequest} {root : Entity} {c : CompiledPlan} {k : Nat}

/-- Wherever a group is attached, records stay placed. Where the way to its owners is taken for
    another one, because of dots in names, there are no records at the end of it. -/
theorem isPlacedAt_of_attach (h : c.IsPrepared p req root) {rows : List Row} {rs rs' : List Record}
    (hrs : ∀ r ∈ rs, r.Everywhere (c.IsPlacedAt p.catalog) [])
    (hattach : c.attach rs k rows = .ok rs') :
    ∀ r ∈ rs', r.Everywhere (c.IsPlacedAt p.catalog) [] := by
  unfold attach at hattach
  split at hattach
  case h_2 => exact pure_eq_ok.1 hattach ▸ hrs
  case h_1 q cs hroot hcs =>
  obtain ⟨records, hrecords, hattach⟩ := bind_eq_ok.1 hattach
  obtain rfl := pure_eq_ok.1 hattach
  obtain ⟨R, hgroup, hsound, rfl⟩ := h.reading _ cs hcs
  have hrootR := root_of_group hroot hgroup hsound
  obtain ⟨n, hn, hbelow, hchain⟩ := h.selected.exists_place (hsound.root_mem hrootR)
  have hspells := h.spells_ownerPath (hsound.root_mem hrootR)
  -- What is found is placed below the owners as they are named, not as the way to them is cut.
  have hfound : ∀ r ∈ records, r.Everywhere (c.IsPlacedAt p.catalog)
      (n.names ++ [q.node.relation.name]) := by
    have hshaped := hsound.everywhere_of_assemble h.selected hgroup hrecords
    rw [Reading.chainAt_root hrootR, Node.chain, hchain, List.map_append] at hshaped
    exact fun r hr => (hshaped r hr).imp fun _ _ => h.selected.isPlacedAt
  intro r' hr'
  obtain ⟨r, hr, rfl⟩ := List.mem_map.1 hr'
  refine (hrs r hr).of_updateAt (fun _ o o' _ hsurface ho => ho.of_surface hsurface)
    fun o ho => ?_
  obtain ⟨m, hm, hnames, hplaced⟩ := (Record.everywhere_iff.1 ho).1
  rw [List.nil_append] at hnames
  rw [← hnames, hchain] at hspells
  -- No other place has a way that is spelled like the one to the owners.
  obtain rfl := h.selected.eq_of_spells hm hn hspells
  refine ho.of_setRelation (fun _ _ _ hq => hq)
    ⟨m, hm, hnames, hplaced.setRelation hbelow _⟩ fun q' hq' => ?_
  rw [List.nil_append, ← hnames]
  exact hfound q' (mem_of_mem_relatedTo hq')

end IsPrepared

end CompiledPlan

namespace Planner

variable {p : Planner} {req : FetchRequest} {records : List Record} {σ : Type} {x : Executor σ}
  {state : σ}

/-- All records that a fetch gives are placed. -/
theorem isPlacedAt_of_fetchMany (h : (p.fetchMany x req state).1 = .ok records) :
    ∃ root c, CompiledPlan.IsPrepared p req root c ∧
      ∀ names, ∀ q ∈ Record.reached names records, c.IsPlacedAt p.catalog names q := by
  obtain ⟨c, primary, rows, roots, state', hprepare, hprimary, -, hassemble, hdispatch⟩ :=
    fetchMany_eq_ok h
  obtain ⟨root, hc⟩ := isPrepared_of_prepare hprepare
  obtain ⟨R, hgroup, hsound, rfl⟩ := hc.reading 0 primary hprimary
  have hplaced : ∀ r ∈ records, r.Everywhere (c.IsPlacedAt p.catalog) [] := by
    refine CompiledPlan.dispatch_induct_done
      (P := fun _ rs => ∀ r ∈ rs, r.Everywhere (c.IsPlacedAt p.catalog) [])
      (fun _ _ _ _ _ _ _ hrs hattach => hc.isPlacedAt_of_attach hrs hattach) ?_ hdispatch
    have hshaped := hsound.everywhere_of_assemble hc.selected hgroup hassemble
    rw [Reading.chainAt_zero (hc.root_of_reading hgroup hsound).1] at hshaped
    exact fun r hr => (hshaped r hr).imp fun _ _ => hc.selected.isPlacedAt
  refine ⟨root, c, hc, fun names q hq => ?_⟩
  obtain ⟨r, hr, hq⟩ := Record.mem_reached.1 hq
  exact hplaced r hr names q hq

/-- Whether a fetch gives some records, all or the first. -/
def Gives (p : Planner) (x : Executor σ) (req : FetchRequest) (state : σ) (records : List Record) :
    Prop :=
  (p.fetchMany x req state).1 = .ok records ∨
    (p.fetchOne x req state).1.map Option.toList = .ok records

theorem isPlacedAt_of_gives (h : p.Gives x req state records) :
    ∃ root req c, CompiledPlan.IsPrepared p req root c ∧
      ∀ names, ∀ q ∈ Record.reached names records, c.IsPlacedAt p.catalog names q := by
  rcases h with hmany | hone
  · obtain ⟨root, c, hc, hplaced⟩ := isPlacedAt_of_fetchMany hmany
    exact ⟨root, req, c, hc, hplaced⟩
  · rw [fetchOne_eq] at hone
    cases hmany : (p.fetchMany x (req.take 1) state).1 with
    | error e => rw [hmany] at hone; exact nomatch hone
    | ok all =>
      rw [hmany] at hone
      obtain rfl := Except.ok.inj hone
      obtain ⟨root, c, hc, hplaced⟩ := isPlacedAt_of_fetchMany hmany
      refine ⟨root, _, c, hc, fun names q hq => hplaced names q ?_⟩
      obtain ⟨r, hr, hq⟩ := Record.mem_reached.1 hq
      exact Record.mem_reached.2 ⟨r, List.mem_of_mem_head? (Option.mem_toList.1 hr), hq⟩

/-- Every record of a fetch becomes an object in which relations take the places of fields, and
    in which nothing is lost just if no relation has the name of a field. Where no entity has a
    relation with the name of one of its columns, nothing is lost. -/
theorem toJson_of_gives (h : p.Gives x req state records) :
    (∀ names, ∀ q ∈ Record.reached names records, ∃ es, q.toJson = .obj es ∧ q.IsOverlaidBy es ∧
        (q.IsListedBy es ↔ q.shared = [])) ∧
      ((∀ e ∈ p.catalog.entities, ∀ r ∈ e.relations, r.name ∉ e.columns) →
        ∀ names, ∀ q ∈ Record.reached names records,
          ∃ es, q.toJson = .obj es ∧ q.IsListedBy es) := by
  obtain ⟨root, req, c, hc, hplaced⟩ := isPlacedAt_of_gives h
  -- The names of fields and relations are those of columns and relations of one entity.
  refine ⟨fun names q hq => ?_, fun hcatalog names q hq => ?_⟩
  · obtain ⟨n, -, -, hn⟩ := hplaced names q hq
    obtain ⟨es, hes, hoverlaid⟩ := hn.mapped.exists_toJson
    exact ⟨es, hes, hoverlaid, hoverlaid.isListedBy_iff⟩
  · obtain ⟨n, hmem, -, hn⟩ := hplaced names q hq
    obtain ⟨es, hes, hoverlaid⟩ := hn.mapped.exists_toJson
    refine ⟨es, hes, hoverlaid.isListedBy_iff.2 (List.filter_eq_nil_iff.2 fun name hname => ?_)⟩
    obtain ⟨e, he, hcolumns⟩ := hn.fields
    obtain ⟨r, hbelow, rfl⟩ := hn.relations name hname
    rw [List.contains_iff_mem]
    exact fun hfield => hcatalog e (Catalog.entity_eq_ok he).1 _
      (hc.selected.relation_mem_of_below hmem hbelow he) (hcolumns _ hfield)

/-- The posts of all users are objects with an entry for each field and for the author. -/
theorem toJson_of_gives_writers :
    ∃ records, writerPlanner.Gives Session.executor writerRequest { store := writerStore } records ∧
      (Record.reached ["posts"] records).length = 3 ∧
      ∀ q ∈ Record.reached ["posts"] records, ∃ es, q.toJson = .obj es ∧ q.IsListedBy es := by
  obtain ⟨records, hrecords, hlength⟩ : ∃ records, (writerPlanner.fetchMany Session.executor
      writerRequest { store := writerStore }).1 = .ok records ∧
        (Record.reached ["posts"] records).length = 3 := ⟨_, rfl, rfl⟩
  exact ⟨records, .inl hrecords, hlength,
    (toJson_of_gives (.inl hrecords)).2 (by decide) ["posts"]⟩

/-- Notes are kept with their author, and nothing else tells the column from the relation. -/
def noteDecls : List EntityDecl :=
  [{ name := "Note", table := "notes", columns := ["id", "author"]
     relations := [{ RelationDecl.manyToOne "author" "User" "author" with eager := true }] },
   { name := "User", table := "users", columns := ["id"] }]

/-- A note and its author. -/
def noteStore : Store :=
  { tables :=
      [("notes", [[("id", .int 1), ("author", .int 7)]]),
       ("users", [[("id", .int 7)]])] }

/-- The number of the author is not in the object of a note. -/
theorem lost_author :
    ∃ catalog r author es, Catalog.build noteDecls = .ok catalog ∧
      (fetchMany ⟨catalog, {}, {}⟩ Session.executor { root := "Note" }
        { store := noteStore }).1 = .ok [r] ∧
      r.get? "author" = some (.int 7) ∧ r.relation? "author" = some (.one (some author)) ∧
      r.toJson = .obj es ∧ es.lookup "author" = some author.toJson ∧ es.length = 2 ∧
      r.fields.length + r.relations.length = 3 ∧ ¬r.IsListedBy es := by
  obtain ⟨catalog, hbuild, r, hfetch, author, hfield, hrelation, hmapped, hshared, hlength⟩ :
      ∃ catalog, Catalog.build noteDecls = .ok catalog ∧ ∃ r,
        (fetchMany ⟨catalog, {}, {}⟩ Session.executor { root := "Note" }
          { store := noteStore }).1 = .ok [r] ∧ ∃ author, r.get? "author" = some (.int 7) ∧
        r.relation? "author" = some (.one (some author)) ∧
        (Assoc.keys r.fields = ["id", "author"] ∧ Assoc.keys r.relations = ["author"]) ∧
        r.shared = ["author"] ∧ r.fields.length + r.relations.length = 3 :=
    ⟨_, rfl, _, rfl, _, rfl, rfl, ⟨rfl, rfl⟩, rfl, rfl⟩
  have hr : r.IsMapped := ⟨hmapped.1 ▸ by decide, hmapped.2 ▸ by decide⟩
  obtain ⟨es, hes, hoverlaid⟩ := hr.exists_toJson
  refine ⟨catalog, r, author, es, hbuild, hfetch, hfield, hrelation, hes, ?_, ?_, hlength, ?_⟩
  · rw [hoverlaid.lookup, hrelation]
    rfl
  · have hcount := hoverlaid.length
    rw [hshared, hlength] at hcount
    exact Nat.succ.inj hcount
  · rw [hoverlaid.isListedBy_iff, hshared]
    exact List.cons_ne_nil _ _

end Planner

end EntityFetch
