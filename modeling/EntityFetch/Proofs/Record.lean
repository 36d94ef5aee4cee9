import EntityFetch.Catalog.Relation
import EntityFetch.Record
import EntityFetch.Proofs.Assoc

/-!
# Records at the ends of paths

What is reached along a path after a change is what was reached before, changed if the change is
made there or below (`reached_updateAt`, `reached_updateAt_append`), and the same if it is made
elsewhere, unless this gives another relation to go along (`reached_updateAt_of_related`).

What holds of every record that can be reached from one (`Record.Everywhere`) holds
of the record itself and everywhere below its relations (`everywhere_iff`). It is kept
by giving a record another relation of which all records are as they should be, be it
at the record itself (`Everywhere.setRelation`) or at the end of a path
(`Everywhere.updateAt`).
-/

namespace EntityFetch

/-- Whether there is one record at most or any number. -/
def Related.cardinality {ρ : Type} : Related ρ → Cardinality
  | one _ => .one
  | many _ => .many

theorem Related.cardinality_map {ρ σ : Type} (f : ρ → σ) (rel : Related ρ) :
    (rel.map f).cardinality = rel.cardinality := by
  cases rel <;> rfl

end EntityFetch

namespace EntityFetch.Record

variable {names : List String} {r q : Record} {rs : List Record}

/-- The records of a relation, none if it is not loaded. -/
def related (r : Record) (name : String) : List Record :=
  ((r.relation? name).map Related.toList).getD []

theorem reached_cons (name : String) (names : List String) (r : Record) :
    reached (name :: names) [r] = reached names (r.related name) := by
  rw [reached, List.flatMap_cons, List.flatMap_nil, List.append_nil]
  rfl

theorem reached_flatMap {α : Type} (f : α → List Record) (as : List α) :
    reached names (as.flatMap f) = as.flatMap fun a => reached names (f a) := by
  cases names with
  | nil => rfl
  | cons name names => exact List.flatMap_assoc

/-- A path is gone along relation by relation. -/
theorem reached_cons_eq (name : String) (names : List String) (rs : List Record) :
    reached (name :: names) rs = reached names (rs.flatMap (related · name)) :=
  (reached_flatMap ..).symm

/-- Every record is reached from one of those at the start. -/
theorem mem_reached : q ∈ reached names rs ↔ ∃ r ∈ rs, q ∈ reached names [r] := by
  cases names with
  | nil => simp [reached]
  | cons name names =>
    rw [reached, List.mem_flatMap]
    simp only [reached_cons]
    rfl

theorem relation?_setRelation (r : Record) (name name' : String) (related : Related Record) :
    (r.setRelation name related).relation? name' =
      if name' == name then some related else r.relation? name' :=
  Assoc.lookup_insert ..

theorem relation?_updateAt (name : String) (names : List String) (f : Record → Record)
    (r : Record) (name' : String) : (updateAt (name :: names) f r).relation? name' =
      if name' == name then (r.relation? name).map (Related.map (updateAt names f))
      else r.relation? name' :=
  Assoc.lookup_modify ..

theorem related_setRelation (r : Record) (name name' : String) (rel : Related Record) :
    (r.setRelation name rel).related name' =
      if name' == name then rel.toList else r.related name' := by
  rw [related, relation?_setRelation]
  split <;> rfl

theorem related_updateAt (name : String) (names : List String) (f : Record → Record) (r : Record)
    (name' : String) : (updateAt (name :: names) f r).related name' =
      if name' == name then (r.related name).map (updateAt names f) else r.related name' := by
  rw [related, relation?_updateAt]
  split
  · rw [related]
    cases r.relation? name with
    | none => rfl
    | some rel =>
      cases rel with
      | one o => cases o <;> rfl
      | many rs => rfl
  · rfl

/-- A change at the end of a path that leaves the fields of a record as they are. -/
theorem fields_updateAt {f : Record → Record} (hf : ∀ r, (f r).fields = r.fields)
    (names : List String) (r : Record) : (updateAt names f r).fields = r.fields := by
  cases names with
  | nil => exact hf r
  | cons name names => rfl

/-- Only what is done to the records at the end of the path matters. -/
theorem updateAt_congr {f g : Record → Record} (h : ∀ q ∈ reached names [r], f q = g q) :
    updateAt names f r = updateAt names g r := by
  induction names generalizing r with
  | nil => exact h r (List.mem_singleton_self r)
  | cons name names ih =>
    have hrelation : ∀ rel, r.relations.lookup name = some rel →
        rel.map (updateAt names f) = rel.map (updateAt names g) := by
      intro rel hrel
      have hall : ∀ q ∈ rel.toList, updateAt names f q = updateAt names g q := by
        refine fun q hq => ih fun q' hq' => h q' ?_
        rw [reached_cons, related, relation?, hrel]
        exact mem_reached.2 ⟨q, hq, hq'⟩
      cases rel with
      | one o =>
        exact congrArg Related.one (Option.map_congr fun q hq => hall q (Option.mem_toList.2 hq))
      | many rs => exact congrArg Related.many (List.map_congr_left hall)
    rw [updateAt, updateAt, Assoc.modify_congr hrelation]

/-- What is reached along the path of a change is what was reached before, changed. -/
theorem reached_updateAt (names : List String) (f : Record → Record) (rs : List Record) :
    reached names (rs.map (updateAt names f)) = (reached names rs).map f := by
  induction names generalizing rs with
  | nil => rfl
  | cons name names ih =>
    have hbelow : ∀ r : Record, (updateAt (name :: names) f r).related name =
        (r.related name).map (updateAt names f) := fun r => by
      rw [related_updateAt, if_pos (beq_self_eq_true name)]
    rw [reached_cons_eq, reached_cons_eq, List.flatMap_map]
    simp only [hbelow, ← List.map_flatMap, ih]

/-- A path is gone along part by part. -/
theorem reached_append (names rest : List String) (rs : List Record) :
    reached (names ++ rest) rs = reached rest (reached names rs) := by
  induction names generalizing rs with
  | nil => rfl
  | cons name names ih => rw [List.cons_append, reached_cons_eq, reached_cons_eq, ih]

/-- A change at the end of a path is one at the end of its first part, of what is below. -/
theorem updateAt_append (names rest : List String) (f : Record → Record) :
    updateAt (names ++ rest) f = updateAt names (updateAt rest f) := by
  induction names with
  | nil => rfl
  | cons name names ih =>
    funext r
    rw [List.cons_append, updateAt, ih, updateAt]

/-- A change below what is reached along a path. -/
theorem reached_updateAt_append (names rest : List String) (f : Record → Record)
    (rs : List Record) :
    reached names (rs.map (updateAt (names ++ rest) f)) =
      (reached names rs).map (updateAt rest f) := by
  rw [updateAt_append, reached_updateAt]

/-- A change elsewhere does not change what is reached along a path, if it keeps the relation by
    which the path goes on from there. -/
theorem reached_updateAt_of_related {path : List String} {f : Record → Record}
    (hpath : ¬ path <+: names)
    (hrelated : ∀ name, names ++ [name] <+: path → ∀ r, (f r).related name = r.related name)
    (rs : List Record) : reached path (rs.map (updateAt names f)) = reached path rs := by
  induction names generalizing path rs with
  | nil =>
    rcases path with _ | ⟨first, path⟩
    · exact absurd List.nil_prefix hpath
    · rw [reached_cons_eq, reached_cons_eq, List.flatMap_map]
      simp only [updateAt, hrelated first ⟨path, rfl⟩]
  | cons name names ih =>
    rcases path with _ | ⟨first, path⟩
    · exact absurd List.nil_prefix hpath
    · rw [reached_cons_eq, reached_cons_eq, List.flatMap_map]
      by_cases heq : first = name
      · subst heq
        -- The change is made below the first relation, on the rest of the path.
        have hone : ∀ r : Record, (updateAt (first :: names) f r).related first =
            (r.related first).map (updateAt names f) := fun r => by
          rw [related_updateAt, if_pos (beq_self_eq_true first)]
        simp only [hone, ← List.map_flatMap]
        exact ih (fun h => hpath (List.cons_prefix_cons.2 ⟨rfl, h⟩))
          (fun name h => hrelated name (List.cons_prefix_cons.2 ⟨rfl, h⟩)) _
      · have hother : ∀ r : Record, (updateAt (name :: names) f r).related first =
            r.related first := fun r => by
          rw [related_updateAt, if_neg (by simpa using heq)]
        simp only [hother]

/-- Giving records another relation does not change what is reached along a path on which
    the relation is not, as far as it is seen that changes below a record are not. -/
theorem map_reached_updateAt {α : Type} {view : Record → α} {name : String} {f : Record → Record}
    {path : List String}
    (hbelow : ∀ first rest r, view (updateAt (first :: rest) f r) = view r)
    (hself : names = path → ∀ r, view (f r) = view r)
    (hrelated : ∀ r name', name' ≠ name → (f r).related name' = r.related name')
    (hpath : ¬ names ++ [name] <+: path) (rs : List Record) :
    (reached path (rs.map (updateAt names f))).map view = (reached path rs).map view := by
  by_cases hprefix : path <+: names
  · obtain ⟨rest, rfl⟩ := hprefix
    rw [reached_updateAt_append, List.map_map]
    refine List.map_congr_left fun r _ => ?_
    cases rest with
    | nil => exact hself (List.append_nil path) r
    | cons first rest => exact hbelow first rest r
  · rw [reached_updateAt_of_related hprefix fun name' hname' r =>
      hrelated r name' fun heq => hpath (heq ▸ hname')]

/-! ### Surfaces -/

/-- The loaded relations, each with whether it leads to one record or to many. -/
def kinds (r : Record) : List (String × Cardinality) :=
  r.relations.map fun e => (e.1, e.2.cardinality)

/-- A record without the records below it. -/
def surface (r : Record) : String × List (String × Value) × List (String × Cardinality) :=
  (r.entity, r.fields, r.kinds)

/-- A change of the records of a relation leaves the surface as it is, if there is still one
    record at most or any number of them. -/
theorem surface_modify {change : Related Record → Related Record}
    (hchange : ∀ rel, (change rel).cardinality = rel.cardinality) (name : String) (r : Record) :
    surface { r with relations := Assoc.modify name change r.relations } = r.surface := by
  have hkinds : kinds { r with relations := Assoc.modify name change r.relations } = r.kinds :=
    Assoc.map_modify (fun _ rel => by rw [hchange]) name r.relations
  rw [surface, hkinds]
  rfl

/-- A change below a record leaves its surface as it is. -/
theorem surface_updateAt (name : String) (names : List String) (f : Record → Record)
    (r : Record) : (updateAt (name :: names) f r).surface = r.surface :=
  surface_modify (Related.cardinality_map _) name r

/-- A relation that is new comes last. -/
theorem kinds_setRelation {name : String} (hname : name ∉ r.kinds.map Prod.fst)
    (rel : Related Record) :
    (r.setRelation name rel).kinds = r.kinds ++ [(name, rel.cardinality)] := by
  have hkeys : name ∉ Assoc.keys r.relations := by
    rwa [kinds, List.map_map] at hname
  rw [kinds, Record.setRelation, Assoc.insert_of_not_mem rel hkeys, List.map_append]
  rfl

/-- A relation of some kind is loaded. -/
theorem exists_of_mem_kinds {name : String} {k : Cardinality} (h : (name, k) ∈ r.kinds) :
    ∃ rel, r.relation? name = some rel := by
  obtain ⟨e, he, heq⟩ := List.mem_map.1 h
  obtain ⟨rfl, -⟩ := Prod.mk.inj heq
  refine Option.ne_none_iff_exists'.1 fun hnone => ?_
  exact Assoc.lookup_eq_none_iff.1 hnone (List.mem_map_of_mem he)

/-! ### What holds everywhere -/

/-- What holds of every record that is reached from one, each at its path. -/
def Everywhere (P : List String → Record → Prop) (path : List String) (r : Record) : Prop :=
  ∀ names, ∀ q ∈ reached names [r], P (path ++ names) q

variable {P : List String → Record → Prop} {path : List String}

/-- It holds of the record itself and below its relations. -/
theorem everywhere_iff : Everywhere P path r ↔
    P path r ∧ ∀ name, ∀ q ∈ r.related name, Everywhere P (path ++ [name]) q := by
  constructor
  · intro h
    refine ⟨?_, fun name q hq names q' hq' => ?_⟩
    · have := h [] r (List.mem_singleton_self r)
      rwa [List.append_nil] at this
    · rw [List.append_assoc]
      refine h (name :: names) q' ?_
      rw [reached_cons]
      exact mem_reached.2 ⟨q, hq, hq'⟩
  · rintro ⟨hr, hbelow⟩ names q hq
    cases names with
    | nil =>
      rw [List.append_nil, List.mem_singleton.1 hq]
      exact hr
    | cons name names =>
      rw [reached_cons] at hq
      obtain ⟨q', hq', hq⟩ := mem_reached.1 hq
      have := hbelow name q' hq' names q hq
      rwa [List.append_assoc] at this

variable {Q : List String → Record → Prop}

theorem Everywhere.imp (h : Everywhere P path r)
    (hPQ : ∀ names q, P (path ++ names) q → Q (path ++ names) q) : Everywhere Q path r :=
  fun names q hq => hPQ names q (h names q hq)

/-- A relation whose records are as they should be then, at a record that is as it should be
    then. Below the other relations nothing changes. -/
theorem Everywhere.of_setRelation {name : String} {rel : Related Record}
    (hkeep : ∀ way q, way ≠ path → P way q → Q way q) (hr : Q path (r.setRelation name rel))
    (hrel : ∀ q ∈ rel.toList, Everywhere Q (path ++ [name]) q) (h : Everywhere P path r) :
    Everywhere Q path (r.setRelation name rel) := by
  refine everywhere_iff.2 ⟨hr, fun name' q hq => ?_⟩
  rw [related_setRelation] at hq
  split at hq
  · next heq =>
    rw [eq_of_beq heq]
    exact hrel q hq
  · refine ((everywhere_iff.1 h).2 name' q hq).imp fun way q' => hkeep _ q' fun heq => ?_
    simpa using congrArg List.length heq

/-- A relation whose records are as they should be. What holds must not depend on the
    relations of a record. -/
theorem Everywhere.setRelation (hP : ∀ path (r : Record) rels, P path r →
    P path { r with relations := rels }) (h : Everywhere P path r) {name : String}
    {rel : Related Record} (hrel : ∀ q ∈ rel.toList, Everywhere P (path ++ [name]) q) :
    Everywhere P path (r.setRelation name rel) :=
  h.of_setRelation (fun _ _ _ hq => hq) (hP path r _ (everywhere_iff.1 h).1) hrel

/-- A change at the end of a path after which there holds what should. Elsewhere records
    are changed below their surface at most. -/
theorem Everywhere.of_updateAt {f : Record → Record}
    (hkeep : ∀ way (q q' : Record), way ≠ path ++ names → q'.surface = q.surface →
      P way q → Q way q')
    (hf : ∀ o, Everywhere P (path ++ names) o → Everywhere Q (path ++ names) (f o))
    (h : Everywhere P path r) : Everywhere Q path (updateAt names f r) := by
  induction names generalizing path r with
  | nil =>
    rw [List.append_nil] at hf
    exact hf r h
  | cons name names ih =>
    obtain ⟨hr, hbelow⟩ := everywhere_iff.1 h
    -- The record itself is before the end of the path, so that only what is below it is changed.
    refine everywhere_iff.2
      ⟨hkeep path r _ (by simp) (surface_updateAt ..) hr, fun name' q hq => ?_⟩
    rw [related_updateAt] at hq
    split at hq
    · next heq =>
      obtain rfl := eq_of_beq heq
      obtain ⟨q', hq', rfl⟩ := List.mem_map.1 hq
      refine ih (fun way q q' hway => hkeep way q q' ?_) (fun o ho => ?_) (hbelow name' q' hq')
      · rwa [List.append_assoc] at hway
      · rw [List.append_assoc] at ho ⊢
        exact hf o ho
    · next hne =>
      refine (hbelow name' q hq).imp fun way q' => hkeep _ q' q' (fun heq => hne ?_) rfl
      rw [List.append_assoc, List.append_cancel_left_eq] at heq
      exact beq_iff_eq.2 (List.cons.inj heq).1

/-- A change at the end of a path that keeps what holds there. -/
theorem Everywhere.updateAt (hP : ∀ path (r : Record) rels, P path r →
    P path { r with relations := rels }) {f : Record → Record}
    (hf : ∀ o, Everywhere P (path ++ names) o → Everywhere P (path ++ names) (f o))
    (h : Everywhere P path r) : Everywhere P path (updateAt names f r) := by
  refine h.of_updateAt (fun way q q' _ hsurface hq => ?_) hf
  obtain ⟨entity, fields, relations⟩ := q'
  obtain ⟨rfl, hrest⟩ := Prod.mk.inj hsurface
  obtain ⟨rfl, -⟩ := Prod.mk.inj hrest
  exact hP way q relations hq

end EntityFetch.Record
