import EntityFetch.Proofs.Combination
import EntityFetch.Proofs.Filter
import EntityFetch.Proofs.Sorted

/-!
# Which rows of the root are read

A row of the root is read exactly if all conditions are true of it and one row can
be picked for every inner join such that each of them matches the row picked for
its owner (`Reading.Reaches`). No other join has a say, however many rows it finds:
an inner join starts at the root or at an inner join and has no filters.
-/

namespace EntityFetch

/-- Whether a relation leads from a row of its owner to a row of its target. -/
def Relation.Matches (e : Relation) (r t : TableRow) : Prop :=
  (r.value e.ownerColumn).equal? (t.value e.targetColumn) = some true

namespace Joint

theorem mem_found {store : Store} {j : Joint} {x : Combination} {r : TableRow} :
    r ∈ j.found store x ↔ r ∈ store.rows j.target.table ∧
      (cell (x.at? j.parent) j.edge.ownerColumn).equal? (r.value j.edge.targetColumn) = some true ∧
        ∀ a ∈ j.filters, a.filter.holds r.value := by
  rw [found, List.mem_filter, Store.matchesJoin, Bool.and_eq_true, beq_iff_eq, List.all_eq_true]
  rfl

/-- A row that is found for a row of the owner is one to which the relation leads. -/
theorem matches_of_mem_found {store : Store} {j : Joint} {x : Combination} {o r : TableRow}
    (ho : x.at? j.parent = some o) (h : r ∈ j.found store x) : j.edge.Matches o r := by
  have := (mem_found.1 h).2.1
  rwa [ho] at this

end Joint

namespace Reading

variable {R : Reading} {store : Store} {s : Statement} {r r' : TableRow}

/-- Whether every row of the root has a row at a slot. -/
def IsInner (R : Reading) (i : Nat) : Prop :=
  ∃ t, R.slots[i]? = some t ∧ t.isInner = true

theorem isInner_succ {i : Nat} :
    R.IsInner (i + 1) ↔ ∃ j, R.joints[i]? = some j ∧ j.kind = .inner := by
  unfold IsInner slots
  simp only [List.getElem?_cons_succ, List.getElem?_map, Option.map_eq_some_iff]
  constructor
  · rintro ⟨t, ⟨j, hj, rfl⟩, ht⟩
    exact ⟨j, hj, by simpa [Slot.isInner, Joint.slot] using ht⟩
  · rintro ⟨j, hj, hkind⟩
    exact ⟨j.slot, ⟨j, hj, rfl⟩, by simp [Slot.isInner, Joint.slot, hkind]⟩

/-- An inner join starts at the root or at an inner join. -/
theorem IsJoinable.isInner_parent (hR : R.IsJoinable) {j : Joint} (hj : j ∈ R.joints)
    (hkind : j.kind = .inner) : R.IsInner j.parent :=
  ⟨j.owner, hR.owner j hj, (hR.inner j hj hkind).2⟩

/-- Whether rows can be picked for all inner joins, each of which matches the one
    picked for its owner. -/
def Reaches (R : Reading) (store : Store) (r : TableRow) : Prop :=
  ∃ pick : Nat → TableRow, pick 0 = r ∧
    ∀ (i : Nat) (j : Joint), R.joints[i]? = some j → j.kind = .inner →
      pick (i + 1) ∈ store.rows j.target.table ∧ j.edge.Matches (pick j.parent) (pick (i + 1))

/-- A combination of a row of the root starts with it and fits all joints. -/
theorem IsJoinable.fits (hR : R.IsJoinable) {y : Combination}
    (hy : y ∈ expand store R.joints [some r]) :
    y.at? 0 = some r ∧ y.length = R.slots.length ∧
      ∀ (i : Nat) (j : Joint), R.joints[i]? = some j → j.Fits store y (i + 1) := by
  obtain ⟨⟨rest, rfl⟩, hlen, hfits⟩ := fits_of_mem_expand (fun i j hj => by
    have := hR.parent_le i j hj
    rw [List.length_singleton]
    omega) hy
  refine ⟨rfl, ?_, fun i j hj => ?_⟩
  · rw [hlen, R.length_slots, List.length_singleton, Nat.add_comm]
  · have := hfits i j hj
    rwa [List.length_singleton, Nat.add_comm] at this

/-- An inner join has a row in every combination. -/
theorem exists_of_fits_inner {y : Combination} {i : Nat} {j : Joint} (h : j.Fits store y (i + 1))
    (hkind : j.kind = .inner) : ∃ t ∈ j.found store y, y.at? (i + 1) = some t := by
  rcases h with ⟨t, ht, hplace⟩ | ⟨-, hleft, -⟩
  · exact ⟨t, ht, by rw [Combination.at?, hplace]; rfl⟩
  · cases hkind.symm.trans hleft

/-- A combination has a row at every inner slot. -/
theorem IsJoinable.exists_at?_of_isInner (hR : R.IsJoinable)
    {y : Combination}
    (hy : y ∈ expand store R.joints [some r]) {i : Nat} (hi : R.IsInner i) :
    ∃ o, y.at? i = some o := by
  obtain ⟨hroot, -, hfits⟩ := hR.fits hy
  cases i with
  | zero => exact ⟨r, hroot⟩
  | succ i =>
    obtain ⟨j, hj, hkind⟩ := isInner_succ.1 hi
    obtain ⟨o, -, ho⟩ := exists_of_fits_inner (hfits i j hj) hkind
    exact ⟨o, ho⟩

/-- The rows of a combination are picked for the inner joins. -/
theorem IsJoinable.reaches_of_mem_expand (hR : R.IsJoinable) {y : Combination}
    (hy : y ∈ expand store R.joints [some r]) : R.Reaches store r := by
  obtain ⟨hroot, -, hfits⟩ := hR.fits hy
  refine ⟨fun i => (y.at? i).getD [], congrArg (·.getD []) hroot, fun i j hj hkind => ?_⟩
  obtain ⟨o, ho⟩ := hR.exists_at?_of_isInner hy (hR.isInner_parent (List.mem_of_getElem? hj) hkind)
  obtain ⟨t, ht, hat⟩ := exists_of_fits_inner (hfits i j hj) hkind
  simp only [hat, ho]
  exact ⟨(Joint.mem_found.1 ht).1, Joint.matches_of_mem_found ho ht⟩

/-- A combination goes on, from some joint on, with rows that are picked for the inner joins to
    come. -/
theorem IsJoinable.exists_mem_expand_drop (hR : R.IsJoinable) {n : Nat} {x : Combination}
    {pick : Nat → TableRow} (hlen : x.length = n + 1)
    (hbefore : ∀ i ≤ n, R.IsInner i → x.at? i = some (pick i))
    (hpick : ∀ (m : Nat) (j : Joint), R.joints[m]? = some j → n ≤ m → j.kind = .inner →
      pick (m + 1) ∈ store.rows j.target.table ∧
        j.edge.Matches (pick j.parent) (pick (m + 1))) :
    ∃ y, y ∈ expand store (R.joints.drop n) x := by
  have hslot : ∀ m, x.length + m = n + m + 1 := fun m => by omega
  have hstart : ∀ i < x.length, R.IsInner i → x.at? i = some (pick i) :=
    fun i hi => hbefore i (by omega)
  have hleft : ∀ (m : Nat) (j : Joint), (R.joints.drop n)[m]? = some j →
      ¬R.IsInner (x.length + m) → j.kind = .left := by
    intro m j hj hinner
    rw [List.getElem?_drop] at hj
    rw [hslot, isInner_succ] at hinner
    cases hkind : j.kind with
    | inner => exact absurd ⟨j, hj, hkind⟩ hinner
    | left => rfl
  -- An inner join has an inner owner, for which a row is picked that the joint starts from.
  have hpicked : ∀ (m : Nat) (j : Joint), (R.joints.drop n)[m]? = some j →
      R.IsInner (x.length + m) → R.IsInner j.parent ∧ j.parent < x.length + m ∧
        ∀ y : Combination, y.at? j.parent = some (pick j.parent) →
          pick (x.length + m) ∈ j.found store y := by
    intro m j hj hinner
    rw [List.getElem?_drop] at hj
    rw [hslot] at hinner ⊢
    obtain ⟨j', hj', hkind⟩ := isInner_succ.1 hinner
    obtain rfl := Option.some.inj (hj.symm.trans hj')
    have hmem := List.mem_of_getElem? hj
    have hparent := hR.parent_le _ j hj
    refine ⟨hR.isInner_parent hmem hkind, by omega, fun y hy => Joint.mem_found.2 ?_⟩
    obtain ⟨hrow, hmatch⟩ := hpick _ j hj (Nat.le_add_right n m) hkind
    rw [hy, (hR.inner j hmem hkind).1]
    exact ⟨hrow, hmatch, fun a ha => absurd ha List.not_mem_nil⟩
  obtain ⟨y, hy, -⟩ := exists_mem_expand pick R.IsInner hstart hleft hpicked
  exact ⟨y, hy⟩

/-- Rows that are picked for the inner joins are in a combination. -/
theorem IsJoinable.exists_mem_expand_of_reaches (hR : R.IsJoinable) (h : R.Reaches store r) :
    ∃ y, y ∈ expand store R.joints [some r] := by
  obtain ⟨pick, hroot, hpick⟩ := h
  have hbefore : ∀ i ≤ 0, R.IsInner i → Combination.at? [some r] i = some (pick i) := by
    intro i hi _
    obtain rfl := Nat.le_zero.1 hi
    exact congrArg some hroot.symm
  exact hR.exists_mem_expand_drop (n := 0) rfl hbefore fun m j hj _ => hpick m j hj

/-- Rows are combined with others exactly if all inner joins reach a row. -/
theorem IsJoinable.exists_mem_expand_iff (hR : R.IsJoinable) :
    (∃ y, y ∈ expand store R.joints [some r]) ↔ R.Reaches store r :=
  ⟨fun ⟨_, hy⟩ => hR.reaches_of_mem_expand hy, hR.exists_mem_expand_of_reaches⟩

/-- Only the columns of the root matter. -/
theorem IsJoinable.reaches_congr (hR : R.IsJoinable)
    (h : ∀ c ∈ R.entity.columns, r.value c = r'.value c) (hr : R.Reaches store r) :
    R.Reaches store r' := by
  obtain ⟨pick, rfl, hpick⟩ := hr
  refine ⟨fun i => if i = 0 then r' else pick i, rfl, fun i j hj hkind => ?_⟩
  obtain ⟨hmem, hmatch⟩ := hpick i j hj hkind
  refine ⟨hmem, ?_⟩
  have hj' := List.mem_of_getElem? hj
  simp only [Nat.succ_ne_zero, if_false]
  split
  · next hzero =>
    have howner := hR.owner j hj'
    rw [hzero, slots, List.getElem?_cons_zero, Option.some.injEq] at howner
    have hcolumn := hR.ownerColumn_mem j hj'
    rw [← howner] at hcolumn
    rw [Relation.Matches, ← h _ hcolumn, ← hzero]
    exact hmatch
  · exact hmatch

end Reading

/-! ### Statements -/

namespace Store

theorem order_perm (s : Statement) (rows : List Row) : (order s rows).Perm rows := by
  unfold order
  split
  · exact .refl _
  · exact sortBy_perm rows

/-- Without limit and offset all rows that are read are answered. -/
theorem mem_evaluate {store : Store} {s : Statement} (hlimit : s.limit = none)
    (hoffset : s.offset = none) {row : Row} :
    row ∈ store.evaluate s ↔ row ∈ store.joinedRows s := by
  rw [evaluate, hlimit, hoffset]
  exact (order_perm s _).mem_iff

end Store

namespace Reading

variable {R : Reading} {store : Store} {s : Statement} {r : TableRow}

/-- A row of the root is read exactly if all conditions are true of it and all inner
    joins reach a row. -/
theorem IsJoinable.exists_mem_evaluate_iff (hR : R.IsJoinable) (hs : s.Reads R)
    (hcolumns : ∀ p ∈ s.predicates, ∀ c ∈ p.filter.columns, c ∈ R.entity.columns)
    (hlimit : s.limit = none) (hoffset : s.offset = none) (hr : r ∈ store.rows s.root.table) :
    (∃ row ∈ store.evaluate s, ∀ c ∈ R.entity.columns,
      row.get? R.aliasName c = some (r.value c)) ↔
        (∀ p ∈ s.predicates, p.filter.holds r.value) ∧ R.Reaches store r := by
  have hread : ∀ {r' : TableRow} {y : Combination}, y ∈ expand store R.joints [some r'] →
      ∀ c ∈ R.entity.columns, (y.row R.slots).get? R.aliasName c = some (r'.value c) := by
    intro r' y hy c hc
    obtain ⟨hroot, hlen, -⟩ := hR.fits hy
    have hpos : 0 < y.length := by
      rw [hlen]
      exact Nat.succ_pos _
    have := Combination.get?_row hR.aliases_nodup (Nat.le_of_eq hlen) hpos
      (s := R.rootSlot) rfl hc
    rwa [hroot] at this
  have hmem : ∀ {r' : TableRow}, r' ∈ store.rootRows s ↔ r' ∈ store.rows s.root.table ∧
      ∀ p ∈ s.predicates, p.filter.holds r'.value := by
    intro r'
    rw [Store.rootRows, List.mem_filter, List.all_eq_true]
    rfl
  constructor
  · rintro ⟨row, hrow, hvalues⟩
    rw [Store.mem_evaluate hlimit hoffset, joinedRows_eq hR hs, List.mem_map] at hrow
    obtain ⟨y, hy, rfl⟩ := hrow
    obtain ⟨r', hr', hy⟩ := List.mem_flatMap.1 hy
    -- The row that was read has the same values in all columns of the root.
    have hsame : ∀ c ∈ R.entity.columns, r'.value c = r.value c := fun c hc =>
      Option.some.inj ((hread hy c hc).symm.trans (hvalues c hc))
    refine ⟨fun p hp => ?_, hR.reaches_congr hsame (hR.exists_mem_expand_iff.1 ⟨y, hy⟩)⟩
    rw [← Filter.holds_congr fun c hc => hsame c (hcolumns p hp c hc)]
    exact (hmem.1 hr').2 p hp
  · rintro ⟨hholds, hreaches⟩
    obtain ⟨y, hy⟩ := hR.exists_mem_expand_iff.2 hreaches
    refine ⟨y.row R.slots, ?_, hread hy⟩
    rw [Store.mem_evaluate hlimit hoffset, joinedRows_eq hR hs]
    exact List.mem_map_of_mem (List.mem_flatMap.2 ⟨r, hmem.2 ⟨hr, hholds⟩, hy⟩)

end Reading

namespace Statement

/-- Whether every row of the root has a row at an alias. -/
def IsInnerAt (s : Statement) (aliasName : String) : Prop :=
  aliasName = s.root.aliasName ∨ ∃ j ∈ s.joins, j.aliasName = aliasName ∧ j.kind = .inner

/-- Whether rows can be picked for the aliases of all inner joins, each of which has
    the key of the one picked for its parent. -/
def Reaches (s : Statement) (store : Store) (r : TableRow) : Prop :=
  ∃ pick : String → TableRow, pick s.root.aliasName = r ∧
    ∀ j ∈ s.joins, j.kind = .inner → pick j.aliasName ∈ store.rows j.table.table ∧
      ((pick j.parentAlias).value j.parentColumn).equal? ((pick j.aliasName).value j.column) =
        some true

end Statement

namespace Reading

variable {R : Reading} {store : Store} {s : Statement} {r : TableRow}

/-- The place of a slot is found by its alias. -/
theorem IsJoinable.idxOf_alias (hR : R.IsJoinable) {i : Nat} {t : Slot}
    (ht : R.slots[i]? = some t) : (R.slots.map Slot.aliasName).idxOf t.aliasName = i := by
  have hget : (R.slots.map Slot.aliasName)[i]? = some t.aliasName := by
    rw [List.getElem?_map, ht]
    rfl
  obtain ⟨hi, hval⟩ := List.getElem?_eq_some_iff.1 hget
  rw [← hval]
  exact hR.aliases_nodup.idxOf_getElem i hi

/-- It makes no difference whether rows are picked for places or for aliases. -/
theorem IsJoinable.reaches_iff (hR : R.IsJoinable) (hs : s.Reads R) :
    R.Reaches store r ↔ s.Reaches store r := by
  have hjoin : ∀ j ∈ s.joins, ∃ (i : Nat) (J : Joint), R.joints[i]? = some J ∧ j = J.join := by
    intro j hj
    rw [hs.joins_eq] at hj
    obtain ⟨J, hJ, rfl⟩ := List.mem_map.1 hj
    obtain ⟨i, hi⟩ := List.mem_iff_getElem?.1 hJ
    exact ⟨i, J, hi, rfl⟩
  constructor
  · rintro ⟨pick, hroot, hpick⟩
    refine ⟨fun a => pick ((R.slots.map Slot.aliasName).idxOf a), ?_, fun j hj hkind => ?_⟩
    · rw [hs.root_eq]
      have hzero := hR.idxOf_alias (show R.slots[0]? = some R.rootSlot from rfl)
      exact (congrArg pick hzero).trans hroot
    · obtain ⟨i, J, hJ, rfl⟩ := hjoin j hj
      have halias := hR.idxOf_alias (getElem?_joints hJ)
      have hparent := hR.idxOf_alias (hR.owner J (List.mem_of_getElem? hJ))
      simp only [show J.join.aliasName = J.slot.aliasName from rfl,
        show J.join.parentAlias = J.owner.aliasName from rfl, halias, hparent]
      exact hpick i J hJ hkind
  · rintro ⟨pick, hroot, hpick⟩
    rw [hs.root_eq] at hroot
    refine ⟨fun i => pick ((R.slots[i]?.map Slot.aliasName).getD ""), hroot,
      fun i J hJ hkind => ?_⟩
    have hmem := List.mem_of_getElem? hJ
    have hj : J.join ∈ s.joins := hs.joins_eq ▸ List.mem_map_of_mem hmem
    simp only [getElem?_joints hJ, hR.owner J hmem]
    exact hpick J.join hj hkind

/-- A joint starts at an inner slot exactly if its parent's alias is that of the root
    or of an inner join. -/
theorem IsJoinable.isInner_owner_iff (hR : R.IsJoinable) (hs : s.Reads R) {J : Joint}
    (hJ : J ∈ R.joints) : J.owner.isInner = true ↔ s.IsInnerAt J.owner.aliasName := by
  have howner := hR.owner J hJ
  have hinner : R.IsInner J.parent ↔ J.owner.isInner = true := by
    constructor
    · rintro ⟨t, ht, htrue⟩
      rwa [← Option.some.inj (ht.symm.trans howner)]
    · exact fun h => ⟨J.owner, howner, h⟩
  rw [← hinner, Statement.IsInnerAt, hs.root_eq, hs.joins_eq]
  constructor
  · intro h
    cases hp : J.parent with
    | zero =>
      rw [hp] at howner
      exact Or.inl (congrArg Slot.aliasName (Option.some.inj howner).symm)
    | succ i =>
      rw [hp] at h howner
      obtain ⟨J', hJ', hkind⟩ := isInner_succ.1 h
      have hslot := Option.some.inj ((getElem?_joints hJ').symm.trans howner)
      exact Or.inr ⟨J'.join, List.mem_map_of_mem (List.mem_of_getElem? hJ'),
        congrArg Slot.aliasName hslot, hkind⟩
  · have hplace := hR.idxOf_alias howner
    rintro (hroot | ⟨j, hj, halias, hkind⟩)
    · rw [hroot] at hplace
      have hzero := hR.idxOf_alias (show R.slots[0]? = some R.rootSlot from rfl)
      rw [show J.parent = 0 from hplace.symm.trans hzero]
      exact ⟨R.rootSlot, rfl, rfl⟩
    · obtain ⟨J', hJ', rfl⟩ := List.mem_map.1 hj
      obtain ⟨i, hi⟩ := List.mem_iff_getElem?.1 hJ'
      rw [← halias] at hplace
      rw [show J.parent = i + 1 from hplace.symm.trans (hR.idxOf_alias (getElem?_joints hi))]
      exact isInner_succ.2 ⟨J', hi, hkind⟩

end Reading

/-! ### Posts and their authors -/

/-- Posts, the author of which is loaded with them. -/
def postDecls : List EntityDecl :=
  [{ name := "Post", table := "posts", columns := ["id", "author_id"]
     relations := [{ RelationDecl.manyToOne "author" "User" "author_id" with eager := true }] },
   { name := "User", table := "users", columns := ["id", "active"] }]

/-- The relation from a post to its author. -/
def postAuthor : Relation :=
  { name := "author", owner := "Post", target := "User", cardinality := .one, nullable := false
    eager := true, strategy := none, owning := true, ownerColumn := "author_id"
    targetColumn := "id" }

/-- The catalog of posts and users. -/
def postCatalog : Catalog :=
  { entities :=
      [{ name := "Post", table := "posts", primaryKey := "id", columns := ["id", "author_id"]
         relations := [postAuthor] },
       { name := "User", table := "users", primaryKey := "id", columns := ["id", "active"]
         relations := [] }] }

/-- A post of an author and one whose author is missing. -/
def postStore : Store :=
  { tables :=
      [("posts", [[("id", .int 1), ("author_id", .int 1)], [("id", .int 2), ("author_id", .int 9)]]),
       ("users", [[("id", .int 1), ("active", .bool true)]])] }

end EntityFetch
