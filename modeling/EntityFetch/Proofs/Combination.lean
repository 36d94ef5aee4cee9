import EntityFetch.Store
import EntityFetch.Proofs.Reading
import EntityFetch.Proofs.Row
import Mathlib.Data.List.Induction

/-!
# Combinations of rows

What a statement reads besides its order are combinations of rows, one for each
slot (`Combination`). They are made slot by slot: a combination is extended by
every row that a joint finds for it (`Joint.extend`), until all joints are through
(`expand`). A row of the result is a combination written out
(`Reading.joinedRows_eq`).

A joint looks only at the slot of its owner, so that later rows of a combination do
not change what it finds (`Joint.found_append`).
-/

namespace EntityFetch

/-- A row for every slot, none where there was nothing to join. -/
abbrev Combination := List (Option TableRow)

/-- The value of a column of a row, null if there is no row. -/
def cell (r : Option TableRow) (column : String) : Value :=
  (r.map (·.value column)).getD .null

namespace Combination

/-- The row at a slot. -/
def at? (x : Combination) (i : Nat) : Option TableRow :=
  x[i]?.join

/-- The combination written out. -/
def row (slots : List Slot) (x : Combination) : Row :=
  (slots.zip x).foldl (fun r p => r.insertAll p.1.aliasName p.1.columns (cell p.2)) {}

variable {slots : List Slot} {x : Combination}

theorem at?_append_left {i : Nat} (h : i < x.length) (y : Combination) :
    at? (x ++ y) i = x.at? i := by
  rw [at?, at?, List.getElem?_append_left h]

theorem at?_append_length (o : Option TableRow) : at? (x ++ [o]) x.length = o := by
  rw [at?, List.getElem?_append_right (Nat.le_refl _), Nat.sub_self]
  rfl

theorem zip_append_singleton {s : Slot} (h : slots[x.length]? = some s) (o : Option TableRow) :
    slots.zip (x ++ [o]) = slots.zip x ++ [(s, o)] := by
  induction x generalizing slots with
  | nil =>
    cases slots with
    | nil => exact nomatch h
    | cons t slots =>
      obtain rfl := Option.some.inj h
      rw [List.nil_append, List.zip_cons_cons, List.zip_nil_right, List.zip_nil_right,
        List.nil_append]
  | cons r x ih =>
    cases slots with
    | nil => exact nomatch h
    | cons t slots =>
      rw [List.cons_append, List.zip_cons_cons, List.zip_cons_cons, ih h, List.cons_append]

/-- One more row is written to the slot that comes next. -/
theorem row_append {s : Slot} (h : slots[x.length]? = some s) (o : Option TableRow) :
    row slots (x ++ [o]) = (row slots x).insertAll s.aliasName s.columns (cell o) := by
  rw [row, zip_append_singleton h, List.foldl_append]
  rfl

/-- Every slot is read back from the row. -/
theorem get?_row (hnodup : (slots.map Slot.aliasName).Nodup) (hlen : x.length ≤ slots.length)
    {i : Nat} {s : Slot} (hi : i < x.length) (hs : slots[i]? = some s) {c : String}
    (hc : c ∈ s.columns) : (row slots x).get? s.aliasName c = some (cell (x.at? i) c) := by
  induction x using List.reverseRecOn with
  | nil => exact absurd hi (Nat.not_lt_zero _)
  | append_singleton x o ih =>
    rw [List.length_append, List.length_singleton] at hi hlen
    obtain ⟨t, ht⟩ : ∃ t, slots[x.length]? = some t :=
      ⟨_, List.getElem?_eq_getElem (Nat.lt_of_succ_le hlen)⟩
    rw [row_append ht, Row.get?_insertAll]
    rcases Nat.lt_or_ge i x.length with hlt | hge
    · -- What was written before is at another alias.
      have hne : s.aliasName ≠ t.aliasName := by
        intro heq
        have hslot : ∀ {n : Nat} {u : Slot}, slots[n]? = some u →
            (slots.map Slot.aliasName)[n]? = some u.aliasName := fun h => by
          rw [List.getElem?_map, h]
          rfl
        have hsame := (List.getElem?_inj (Nat.lt_of_lt_of_le hlt (by
          rw [List.length_map]
          omega)) hnodup).1 ((hslot hs).trans (heq ▸ (hslot ht).symm))
        omega
      rw [if_neg fun h => hne h.1, at?_append_left hlt]
      exact ih (by omega) hlt
    · obtain rfl : i = x.length := by omega
      obtain rfl := Option.some.inj (hs.symm.trans ht)
      rw [if_pos ⟨rfl, hc⟩, at?_append_length]

end Combination

/-! ### Extending combinations -/

namespace Joint

/-- The rows that a joint finds for a combination. -/
def found (store : Store) (j : Joint) (x : Combination) : List TableRow :=
  (store.rows j.target.table).filter
    (Store.matchesJoin j.join (cell (x.at? j.parent) j.edge.ownerColumn))

/-- The combinations that a joint makes of one. -/
def extend (store : Store) (j : Joint) (x : Combination) : List Combination :=
  match j.found store x, j.kind with
  | [], .inner => []
  | [], .left => [x ++ [none]]
  | found, _ => found.map fun r => x ++ [some r]

/-- What is found depends on the slot of the owner alone. -/
theorem found_append {store : Store} {j : Joint} {x : Combination} (h : j.parent < x.length)
    (y : Combination) : j.found store (x ++ y) = j.found store x := by
  rw [found, found, Combination.at?_append_left h]

/-- A combination is extended by a row that is found or, if there is none, by
    nothing at a left join. -/
theorem mem_extend {store : Store} {j : Joint} {x y : Combination} :
    y ∈ j.extend store x ↔ (∃ r ∈ j.found store x, y = x ++ [some r]) ∨
      j.found store x = [] ∧ j.kind = .left ∧ y = x ++ [none] := by
  unfold extend
  split
  · next hnil hkind => simp [hnil, hkind]
  · next hnil hkind => simp [hnil, hkind]
  · next hinner hleft =>
    have hne : j.found store x ≠ [] := by
      intro hnil
      cases hkind : j.kind with
      | inner => exact hinner hnil hkind
      | left => exact hleft hnil hkind
    simp [hne, eq_comm]

theorem length_of_mem_extend {store : Store} {j : Joint} {x y : Combination}
    (h : y ∈ j.extend store x) : y.length = x.length + 1 := by
  rcases mem_extend.1 h with ⟨r, -, rfl⟩ | ⟨-, -, rfl⟩ <;> exact List.length_append

end Joint

/-- The combinations that joints make of one, one joint after the other. -/
def expand (store : Store) : List Joint → Combination → List Combination
  | [], x => [x]
  | j :: js, x => (j.extend store x).flatMap (expand store js)

/-- A combination has at a place what a joint finds for it, or nothing if the
    joint is a left join and finds nothing. -/
def Joint.Fits (store : Store) (j : Joint) (x : Combination) (i : Nat) : Prop :=
  (∃ r ∈ j.found store x, x[i]? = some (some r)) ∨
    j.found store x = [] ∧ j.kind = .left ∧ x[i]? = some none

/-- A combination that is expanded starts with the one it is made of, and fits all
    joints. -/
theorem fits_of_mem_expand {store : Store} {js : List Joint} {x y : Combination}
    (hparent : ∀ (n : Nat) (j : Joint), js[n]? = some j → j.parent < x.length + n)
    (h : y ∈ expand store js x) :
    x <+: y ∧ y.length = x.length + js.length ∧
      ∀ (n : Nat) (j : Joint), js[n]? = some j → j.Fits store y (x.length + n) := by
  induction js generalizing x with
  | nil =>
    rw [expand, List.mem_singleton] at h
    exact ⟨h ▸ List.prefix_refl _, h ▸ rfl, fun n j hj => absurd hj (by simp)⟩
  | cons j js ih =>
    obtain ⟨z, hz, h⟩ := List.mem_flatMap.1 h
    obtain ⟨o, rfl, ho⟩ : ∃ o, z = x ++ [o] ∧ ((∃ r ∈ j.found store x, o = some r) ∨
        j.found store x = [] ∧ j.kind = .left ∧ o = none) := by
      rcases Joint.mem_extend.1 hz with ⟨r, hr, rfl⟩ | ⟨hnil, hleft, rfl⟩
      · exact ⟨some r, rfl, Or.inl ⟨r, hr, rfl⟩⟩
      · exact ⟨none, rfl, Or.inr ⟨hnil, hleft, rfl⟩⟩
    have hlen : (x ++ [o]).length = x.length + 1 := List.length_append
    obtain ⟨hpre, hlength, hfits⟩ := ih (fun n j hj => by
      have := hparent (n + 1) j hj
      omega) h
    refine ⟨(List.prefix_append x [o]).trans hpre, ?_, fun n j' hj' => ?_⟩
    · rw [hlength, hlen, List.length_cons]
      omega
    · cases n with
      | zero =>
        obtain rfl := Option.some.inj hj'
        obtain ⟨rest, rfl⟩ := hpre
        have hplace : ((x ++ [o]) ++ rest)[x.length]? = some o := by simp
        -- The slot of the owner comes before, so that the joint finds the same now.
        have hfound : j.found store ((x ++ [o]) ++ rest) = j.found store x := by
          rw [List.append_assoc, Joint.found_append (hparent 0 j rfl)]
        rw [Joint.Fits, hfound, Nat.add_zero, hplace]
        rcases ho with ⟨r, hr, rfl⟩ | ⟨hnil, hleft, rfl⟩
        · exact Or.inl ⟨r, hr, rfl⟩
        · exact Or.inr ⟨hnil, hleft, rfl⟩
      | succ n =>
        have := hfits n j' hj'
        rwa [hlen, Nat.add_assoc, Nat.add_comm 1 n] at this

/-- If rows can be picked for some slots, all those of inner joins among them, then
    there is a combination that has these rows there. -/
theorem exists_mem_expand {store : Store} {js : List Joint} {x : Combination}
    (pick : Nat → TableRow) (picked : Nat → Prop)
    (hx : ∀ i < x.length, picked i → x.at? i = some (pick i))
    (hleft : ∀ (n : Nat) (j : Joint), js[n]? = some j → ¬ picked (x.length + n) → j.kind = .left)
    (hpicked : ∀ (n : Nat) (j : Joint), js[n]? = some j → picked (x.length + n) →
      picked j.parent ∧ j.parent < x.length + n ∧
        ∀ y : Combination, y.at? j.parent = some (pick j.parent) →
          pick (x.length + n) ∈ j.found store y) :
    ∃ y ∈ expand store js x, ∀ i < x.length + js.length, picked i → y.at? i = some (pick i) := by
  induction js generalizing x with
  | nil => exact ⟨x, List.mem_singleton_self x, hx⟩
  | cons j js ih =>
    obtain ⟨o, hmem, ho⟩ : ∃ o, x ++ [o] ∈ j.extend store x ∧
        (picked x.length → o = some (pick x.length)) := by
      by_cases hp : picked x.length
      · obtain ⟨hparent, hlt, hfound⟩ := hpicked 0 j rfl hp
        exact ⟨_, Joint.mem_extend.2 (Or.inl ⟨_, hfound x (hx _ hlt hparent), rfl⟩), fun _ => rfl⟩
      · -- No row is picked here, so that any extension will do.
        rcases hfound : j.found store x with _ | ⟨r, found⟩
        · exact ⟨none, Joint.mem_extend.2 (Or.inr ⟨hfound, hleft 0 j rfl hp, rfl⟩),
            fun h => absurd h hp⟩
        · exact ⟨some r, Joint.mem_extend.2 (Or.inl ⟨r, hfound ▸ List.mem_cons_self, rfl⟩),
            fun h => absurd h hp⟩
    have hlen : (x ++ [o]).length = x.length + 1 := List.length_append
    have hshift : ∀ n, x.length + 1 + n = x.length + (n + 1) := fun n => by omega
    obtain ⟨y, hy, hall⟩ := ih (x := x ++ [o])
      (fun i hi hp => by
        rw [hlen] at hi
        rcases Nat.lt_or_ge i x.length with hlt | hge
        · rw [Combination.at?_append_left hlt]
          exact hx i hlt hp
        · obtain rfl : i = x.length := by omega
          rw [Combination.at?_append_length, ho hp])
      (fun n j' hj' => by
        rw [hlen, hshift]
        exact hleft (n + 1) j' hj')
      (fun n j' hj' => by
        rw [hlen, hshift]
        exact hpicked (n + 1) j' hj')
    refine ⟨y, List.mem_flatMap.2 ⟨_, hmem, hy⟩, fun i hi => hall i ?_⟩
    rw [hlen]
    rw [List.length_cons] at hi
    omega

/-! ### What a statement reads -/

namespace Slot

/-- The references of a slot are all at its alias. -/
theorem filter_columnRefs (s : Slot) (aliasName : String) :
    (s.columnRefs.filter (·.aliasName == aliasName)).map ColumnRef.column =
      if s.aliasName = aliasName then s.columns else [] := by
  unfold columnRefs
  split
  · next heq => simp [List.filter_map, heq, Function.comp_def]
  · next hne => simp [List.filter_map, hne, Function.comp_def]

/-- The references at the alias of a slot are to the columns of the slot. -/
theorem columns_of_columnRefs {slots : List Slot} (hnodup : (slots.map aliasName).Nodup)
    {s : Slot} (hs : s ∈ slots) :
    ((slots.flatMap columnRefs).filter (·.aliasName == s.aliasName)).map ColumnRef.column =
      s.columns := by
  induction slots with
  | nil => exact absurd hs List.not_mem_nil
  | cons t slots ih =>
    rw [List.map_cons, List.nodup_cons] at hnodup
    rw [List.flatMap_cons, List.filter_append, List.map_append, filter_columnRefs]
    rcases List.mem_cons.1 hs with rfl | hs
    · have hrest : ∀ u ∈ slots, ¬ u.aliasName = s.aliasName :=
        fun u hu heq => hnodup.1 (heq ▸ List.mem_map_of_mem hu)
      rw [if_pos rfl, List.filter_flatMap, List.map_flatMap]
      simp only [filter_columnRefs]
      rw [List.flatMap_eq_nil_iff.2 fun u hu => if_neg (hrest u hu), List.append_nil]
    · have hne : ¬ t.aliasName = s.aliasName :=
        fun heq => hnodup.1 (heq ▸ List.mem_map_of_mem hs)
      rw [if_neg hne, List.nil_append]
      exact ih hnodup.2 hs

end Slot

/-- A statement that reads what was decided. Its conditions are left open. -/
structure Statement.Reads (s : Statement) (R : Reading) : Prop where
  root_eq : s.root = { table := R.entity.table, aliasName := R.aliasName }
  columns_eq : s.columns = R.slots.flatMap Slot.columnRefs
  joins_eq : s.joins = R.joints.map Joint.join

namespace Statement.Reads

variable {s : Statement} {R : Reading}

theorem statement (R : Reading) (scope : QueryScope) : (R.statement scope).Reads R :=
  ⟨rfl, rfl, rfl⟩

theorem bindKeys (h : s.Reads R) (keys : List Value) : (s.bindKeys keys).Reads R :=
  ⟨h.root_eq, h.columns_eq, h.joins_eq⟩

/-- What is read at an alias are the columns of its slot. -/
theorem columnsOf (h : s.Reads R) (hnodup : (R.slots.map Slot.aliasName).Nodup) {t : Slot}
    (ht : t ∈ R.slots) : s.columnsOf t.aliasName = t.columns := by
  rw [Statement.columnsOf, h.columns_eq]
  exact Slot.columns_of_columnRefs hnodup ht

theorem columnsOf_root (h : s.Reads R) (hnodup : (R.slots.map Slot.aliasName).Nodup) :
    s.columnsOf s.root.aliasName = R.entity.columns := by
  rw [h.root_eq]
  exact h.columnsOf (t := R.rootSlot) hnodup List.mem_cons_self

end Statement.Reads

namespace Reading

variable {k : Compiler} {plan : LoadPlan} {scope : QueryScope} {root : Entity} {R : Reading}
  {s : Statement} {store : Store}

/-- A reading whose joins are on columns that are read. Inner joins have no filters
    and start at the root or at other inner joins. -/
structure IsJoinable (R : Reading) : Prop where
  aliases_nodup : (R.slots.map Slot.aliasName).Nodup
  parent_le : ∀ (i : Nat) (j : Joint), R.joints[i]? = some j → j.parent ≤ i
  owner : ∀ j ∈ R.joints, R.slots[j.parent]? = some j.owner
  ownerColumn_mem : ∀ j ∈ R.joints, j.edge.ownerColumn ∈ j.owner.columns
  inner : ∀ j ∈ R.joints, j.kind = .inner → j.filters = [] ∧ j.owner.isInner = true

theorem IsSound.isJoinable (h : R.IsSound k plan scope) (hsel : plan.IsSelected k.catalog root)
    (hc : k.catalog.IsSound) : R.IsJoinable where
  aliases_nodup := h.aliases_nodup
  parent_le := h.parent_le
  owner j hj := (h.settled j hj).owner
  ownerColumn_mem _ hj := h.ownerColumn_mem hsel hc hj
  inner j hj hkind := by
    rw [(h.settled j hj).kind, Joint.kindOf_eq_inner] at hkind
    exact hkind.2.2.2

theorem length_slots (R : Reading) : R.slots.length = R.joints.length + 1 := by
  rw [slots, List.length_cons, List.length_map]

/-- A join makes of a combination that is written out those that its joint makes,
    written out. -/
theorem joinRow_row (hR : R.IsJoinable) (hs : s.Reads R) {i : Nat} {j : Joint}
    (hj : R.joints[i]? = some j) {x : Combination} (hx : x.length = i + 1) :
    Store.joinRow s (store.rows j.target.table) j.join (x.row R.slots) =
      (j.extend store x).map (Combination.row R.slots) := by
  have hmem := List.mem_of_getElem? hj
  have hparent : j.parent < x.length := by
    have := hR.parent_le i j hj
    omega
  have hlen : x.length ≤ R.slots.length := by
    have := (List.getElem?_eq_some_iff.1 hj).1
    rw [R.length_slots]
    omega
  have hvalue : (x.row R.slots).get? j.join.parentAlias j.join.parentColumn =
      some (cell (x.at? j.parent) j.edge.ownerColumn) :=
    Combination.get?_row hR.aliases_nodup hlen hparent (hR.owner j hmem) (hR.ownerColumn_mem j hmem)
  have hslot : R.slots[x.length]? = some j.slot := by
    rw [hx]
    exact getElem?_joints hj
  have hcolumns : s.columnsOf j.join.aliasName = j.target.columns :=
    hs.columnsOf (t := j.slot) hR.aliases_nodup (List.mem_of_getElem? hslot)
  have hwritten : ∀ o : Option TableRow, (x.row R.slots).insertAll j.join.aliasName
      j.target.columns (cell o) = Combination.row R.slots (x ++ [o]) :=
    fun o => (Combination.row_append hslot o).symm
  have hfound : (store.rows j.target.table).filter (Store.matchesJoin j.join
      (cell (x.at? j.parent) j.edge.ownerColumn)) = j.found store x := rfl
  have hkind : j.join.kind = j.kind := rfl
  rw [Store.joinRow, hvalue, hcolumns, Joint.extend]
  simp only [Option.getD_some, hfound, hkind]
  cases j.found store x with
  | nil =>
    cases j.kind with
    | inner => rfl
    | left => exact congrArg (fun r => [r]) (hwritten none)
  | cons r found =>
    simp only [List.map_map]
    exact List.map_congr_left fun r _ => hwritten (some r)

/-- Combinations are made joint after joint. What is shown for a joint may use that its slot is the
    next one. -/
theorem expand_induct (store : Store) {P : List Joint → Combination → Prop} (done : ∀ x, P [] x)
    (step : ∀ (n : Nat) (j : Joint) (rest : List Joint) (x : Combination), R.joints[n]? = some j →
      x.length = n + 1 → (∀ y ∈ j.extend store x, P rest y) → P (j :: rest) x)
    (o : Option TableRow) : P R.joints [o] := by
  suffices hrest : ∀ (rest before : List Joint) (x : Combination), before ++ rest = R.joints →
      x.length = before.length + 1 → P rest x from hrest R.joints [] [o] rfl rfl
  intro rest
  induction rest with
  | nil => exact fun _ x _ _ => done x
  | cons j rest ih =>
    intro before x hsplit hlen
    refine step before.length j rest x (getElem?_of_append_cons hsplit) hlen fun y hy => ?_
    refine ih (before ++ [j]) y ?_ ?_
    · rw [List.append_assoc]
      exact hsplit
    · rw [Joint.length_of_mem_extend hy, hlen, List.length_append, List.length_singleton]

/-- If a join makes of what stands for a combination what stands for those its joint makes,
    so do some joins one after another. -/
theorem foldl_flatMap_joins {ρ : Type} {write : Combination → ρ} {join : Join → ρ → List ρ}
    (hjoin : ∀ {i : Nat} {j : Joint}, R.joints[i]? = some j → ∀ {x : Combination},
      x.length = i + 1 → join j.join (write x) = (j.extend store x).map write)
    {before rest : List Joint} (hsplit : before ++ rest = R.joints) {xs : List Combination}
    (hxs : ∀ x ∈ xs, x.length = before.length + 1) :
    (rest.map Joint.join).foldl (fun ys j => ys.flatMap (join j)) (xs.map write) =
      (xs.flatMap (expand store rest)).map write := by
  induction rest generalizing before xs with
  | nil =>
    rw [List.map_nil, List.foldl_nil]
    congr 1
    exact (List.flatMap_singleton' xs).symm
  | cons j rest ih =>
    have hj : R.joints[before.length]? = some j := getElem?_of_append_cons hsplit
    have hstep : (xs.map write).flatMap (join j.join) =
        (xs.flatMap (j.extend store)).map write := by
      rw [List.flatMap_map, List.map_flatMap]
      exact List.flatMap_congr fun x hx => hjoin hj (hxs x hx)
    have hsplit : before ++ [j] ++ rest = R.joints := by
      rw [List.append_assoc, List.singleton_append, hsplit]
    rw [List.map_cons, List.foldl_cons, hstep, ih hsplit]
    · rw [List.flatMap_assoc]
      rfl
    · intro y hy
      obtain ⟨x, hx, hy⟩ := List.mem_flatMap.1 hy
      rw [Joint.length_of_mem_extend hy, hxs x hx, List.length_append, List.length_singleton]

/-- What the statement of a reading reads are combinations, written out. -/
theorem joinedRows_eq (hR : R.IsJoinable) (hs : s.Reads R) :
    store.joinedRows s = ((store.rootRows s).flatMap fun r =>
      expand store R.joints [some r]).map (Combination.row R.slots) := by
  have hroot := hs.columnsOf_root hR.aliases_nodup
  -- Before any join a row of the root is a combination of one slot.
  have hstart : ((store.rootRows s).map fun r =>
      ({} : Row).insertAll s.root.aliasName (s.columnsOf s.root.aliasName) r.value) =
        ((store.rootRows s).map fun r => [some r]).map (Combination.row R.slots) := by
    rw [List.map_map, hroot, hs.root_eq]
    refine List.map_congr_left fun r _ => ?_
    rw [Function.comp_apply, Combination.row, slots, List.zip_cons_cons, List.zip_nil_right]
    rfl
  rw [Store.joinedRows, hstart, hs.joins_eq,
    foldl_flatMap_joins (joinRow_row hR hs) (List.nil_append R.joints)]
  · rw [List.flatMap_map]
  · intro x hx
    obtain ⟨r, -, rfl⟩ := List.mem_map.1 hx
    rfl

end Reading

end EntityFetch
