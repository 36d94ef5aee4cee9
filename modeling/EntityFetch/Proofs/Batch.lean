import EntityFetch.FollowUp
import EntityFetch.Proofs.Outline

/-!
# Keys in batches

The rows of a relation are looked up by the keys of all owners, each once and so many at
a time, and are then given to the owners by key. On values that are null or have an
order, having the same key is being equal (`Value.equal?_iff`), so that an owner gets
the rows of the batch with its key and no others: those that a look-up of its key alone
would give it, in their order (`Branch.IsBatched.filter_loaded`).
-/

namespace EntityFetch

open Std

/-! ### Keys -/

namespace Value

/-- Whether a value is null or of a kind that has an order. -/
def IsPlain (v : Value) : Prop :=
  ∃ k, v.isNullOr k

variable {v w : Value}

theorem isPlain_iff : v.IsPlain ↔
    v = null ∨ (∃ b, v = bool b) ∨ (∃ n, v = int n) ∨ ∃ s, v = str s := by
  constructor
  · rintro ⟨k, hk⟩
    rw [isNullOr_iff] at hk
    rcases hk with h | h
    · exact Or.inl h
    · cases k with
      | bool => exact Or.inr (Or.inl (hasKind_bool.1 h))
      | int => exact Or.inr (Or.inr (Or.inl (hasKind_int.1 h)))
      | str => exact Or.inr (Or.inr (Or.inr (hasKind_str.1 h)))
  · rintro (rfl | ⟨b, rfl⟩ | ⟨n, rfl⟩ | ⟨s, rfl⟩)
    · exact ⟨.int, rfl⟩
    · exact ⟨.bool, rfl⟩
    · exact ⟨.int, rfl⟩
    · exact ⟨.str, rfl⟩

/-- Values that are null or have an order are equal if they have the same key. -/
theorem equal?_iff (hv : v.IsPlain) (hw : w.IsPlain) :
    v.equal? w = some true ↔ v.key?.isSome ∧ v.key? = w.key? := by
  rw [isPlain_iff] at hv hw
  rcases hv with rfl | ⟨a, rfl⟩ | ⟨a, rfl⟩ | ⟨a, rfl⟩ <;>
    rcases hw with rfl | ⟨b, rfl⟩ | ⟨b, rfl⟩ | ⟨b, rfl⟩ <;>
    simp [equal?, isNull, compare?, key?]

/-- Looking up a value among others is finding an equal one. -/
theorem memberOf?_iff {vs : List Value} :
    Filter.memberOf? v vs = some true ↔ ∃ w ∈ vs, v.equal? w = some true := by
  have hnull : v.isNull = true → ∀ w, v.equal? w ≠ some true := by
    intro hv w h
    rw [equal?, hv] at h
    exact nomatch h
  unfold Filter.memberOf?
  split
  · next hnil =>
    rw [List.isEmpty_iff] at hnil
    simp [hnil]
  · split
    · next hv =>
      simp only [reduceCtorEq, false_iff, not_exists, not_and]
      exact fun w _ => hnull hv w
    · split
      · next hany => simpa using hany
      · next hany =>
        have hnone : ¬ ∃ w ∈ vs, v.equal? w = some true := by simpa using hany
        split <;> simp [hnone]

end Value

/-- The values that are left have a key each, and no two the same. -/
theorem nodup_distinctKeys (seen : List Key) (vs : List Value) :
    ((distinctKeys seen vs).map Value.key?).Nodup ∧
      ∀ v ∈ distinctKeys seen vs, v ∈ vs ∧ ∃ k, v.key? = some k ∧ k ∉ seen := by
  induction vs generalizing seen with
  | nil => exact ⟨List.nodup_nil, fun _ h => absurd h List.not_mem_nil⟩
  | cons v vs ih =>
    -- What is left of the rest is left whether or not the first value is.
    have hmore : ∀ {seen : List Key} {w : Value}, w ∈ distinctKeys seen vs →
        w ∈ v :: vs ∧ ∃ k, w.key? = some k ∧ k ∉ seen := fun hw =>
      ⟨List.mem_cons_of_mem v ((ih _).2 _ hw).1, ((ih _).2 _ hw).2⟩
    unfold distinctKeys
    split
    · exact ⟨(ih seen).1, fun w hw => hmore hw⟩
    · next k hk =>
      split
      · exact ⟨(ih seen).1, fun w hw => hmore hw⟩
      · next hnew =>
        rw [List.contains_iff_mem] at hnew
        constructor
        · rw [List.map_cons, List.nodup_cons]
          refine ⟨fun hmem => ?_, (ih (k :: seen)).1⟩
          obtain ⟨w, hw, heq⟩ := List.mem_map.1 hmem
          obtain ⟨-, k', hk', hnot⟩ := hmore hw
          rw [hk', hk] at heq
          exact hnot (Option.some.inj heq ▸ List.mem_cons_self)
        · intro w hw
          rcases List.mem_cons.1 hw with rfl | hw
          · exact ⟨List.mem_cons_self, k, hk, hnew⟩
          · obtain ⟨hmem, k', hk', hnot⟩ := hmore hw
            exact ⟨hmem, k', hk', fun h => hnot (List.mem_cons_of_mem k h)⟩

/-- The key of every value is left, unless it was seen. -/
theorem exists_mem_distinctKeys {seen : List Key} {vs : List Value} {v : Value} {k : Key}
    (hv : v ∈ vs) (hk : v.key? = some k) (hnew : k ∉ seen) :
    ∃ w ∈ distinctKeys seen vs, w.key? = some k := by
  induction vs generalizing seen with
  | nil => exact absurd hv List.not_mem_nil
  | cons u vs ih =>
    unfold distinctKeys
    rcases List.mem_cons.1 hv with rfl | hv
    · rw [hk]
      simp only [List.contains_iff_mem, hnew, if_false]
      exact ⟨v, List.mem_cons_self, hk⟩
    · split
      · exact ih hv hnew
      · next k' hk' =>
        split
        · exact ih hv hnew
        · by_cases heq : k = k'
          · exact ⟨u, List.mem_cons_self, heq ▸ hk'⟩
          · have hnew' : k ∉ k' :: seen := fun h => (List.mem_cons.1 h).elim heq hnew
            obtain ⟨w, hw, hwk⟩ := ih hv hnew'
            exact ⟨w, List.mem_cons_of_mem u hw, hwk⟩

/-- The pieces of a list, one after the other, are the list. -/
theorem flatten_chunks {α : Type} (n : Nat) (as : List α) : (chunks n as).flatten = as := by
  -- The bound on the number of pieces is never reached, as no piece is empty.
  have hpieces : ∀ (left : Nat) (as : List α), as.length ≤ left →
      (piecesOf n left as).flatten = as := by
    intro left
    induction left with
    | zero =>
      intro as h
      rw [List.length_eq_zero_iff.1 (Nat.le_zero.1 h)]
      rfl
    | succ left ih =>
      intro as h
      cases as with
      | nil => rfl
      | cons a as =>
        have hdrop : ((a :: as).drop (max n 1)).length ≤ left := by
          rw [List.length_drop]
          omega
        have hcut : piecesOf n (left + 1) (a :: as) =
            (a :: as).take (max n 1) :: piecesOf n left ((a :: as).drop (max n 1)) := rfl
        rw [hcut, List.flatten_cons, ih _ hdrop, List.take_append_drop]
  exact hpieces _ as (Nat.le_refl _)

/-- Pieces are not empty and not too long. -/
theorem length_of_mem_chunks {α : Type} {n : Nat} {as piece : List α} (h : piece ∈ chunks n as) :
    piece ≠ [] ∧ piece.length ≤ max n 1 := by
  have hpieces : ∀ (left : Nat) (as : List α), ∀ piece ∈ piecesOf n left as,
      piece ≠ [] ∧ piece.length ≤ max n 1 := by
    intro left
    induction left with
    | zero => exact fun _ _ hpiece => absurd hpiece List.not_mem_nil
    | succ left ih =>
      intro as piece hpiece
      cases as with
      | nil => exact absurd hpiece List.not_mem_nil
      | cons a as =>
        rcases List.mem_cons.1 hpiece with rfl | hpiece
        · refine ⟨?_, List.length_take_le _ _⟩
          rw [ne_eq, List.take_eq_nil_iff]
          simp
        · exact ih _ piece hpiece
  exact hpieces _ as piece h

/-- Only the last piece may be shorter than the others. -/
theorem length_of_mem_dropLast_chunks {α : Type} {n : Nat} {as piece : List α}
    (h : piece ∈ (chunks n as).dropLast) : piece.length = max n 1 := by
  have hpieces : ∀ (left : Nat) (as : List α), ∀ piece ∈ (piecesOf n left as).dropLast,
      piece.length = max n 1 := by
    intro left
    induction left with
    | zero => exact fun _ _ hpiece => absurd hpiece List.not_mem_nil
    | succ left ih =>
      intro as piece hpiece
      cases as with
      | nil => exact absurd hpiece List.not_mem_nil
      | cons a as =>
        have hcut : piecesOf n (left + 1) (a :: as) =
            (a :: as).take (max n 1) :: piecesOf n left ((a :: as).drop (max n 1)) := rfl
        rw [hcut] at hpiece
        by_cases hlast : piecesOf n left ((a :: as).drop (max n 1)) = []
        · rw [hlast] at hpiece
          exact absurd hpiece List.not_mem_nil
        · rw [List.dropLast_cons_of_ne_nil hlast] at hpiece
          rcases List.mem_cons.1 hpiece with rfl | hpiece
          · -- Something is left after the first piece, which is full.
            refine List.length_take_of_le (Nat.le_of_lt (Nat.lt_of_not_le fun hle => hlast ?_))
            rw [List.drop_eq_nil_of_le hle]
            cases left <;> rfl
          · exact ih _ piece hpiece
  exact hpieces _ as piece h

/-! ### Rows with distinct primary keys -/

/-- Whether the primary keys of the rows of an entity are distinct, and all integers or all
    texts. -/
structure Store.HasKeys (store : Store) (e : Entity) : Prop where
  nodup : ((store.rows e.table).map (·.value e.primaryKey)).Nodup
  kind : (∀ r ∈ store.rows e.table, (r.value e.primaryKey).hasKind .int) ∨
    ∀ r ∈ store.rows e.table, (r.value e.primaryKey).hasKind .str

namespace Store.HasKeys

variable {store : Store} {e : Entity} {a b : TableRow} {rows : List TableRow}

theorem eq_of_value (h : store.HasKeys e) (ha : a ∈ store.rows e.table)
    (hb : b ∈ store.rows e.table) (heq : a.value e.primaryKey = b.value e.primaryKey) : a = b :=
  List.inj_on_of_nodup_map h.nodup ha hb heq

/-- The keys of two rows are both whole numbers or both texts. -/
theorem alike (h : store.HasKeys e) (ha : a ∈ store.rows e.table) (hb : b ∈ store.rows e.table) :
    (∃ n m, a.value e.primaryKey = .int n ∧ b.value e.primaryKey = .int m) ∨
      ∃ s t, a.value e.primaryKey = .str s ∧ b.value e.primaryKey = .str t := by
  rcases h.kind with hint | hstr
  · obtain ⟨n, hn⟩ := Value.hasKind_int.1 (hint a ha)
    obtain ⟨m, hm⟩ := Value.hasKind_int.1 (hint b hb)
    exact Or.inl ⟨n, m, hn, hm⟩
  · obtain ⟨s, hs⟩ := Value.hasKind_str.1 (hstr a ha)
    obtain ⟨t, ht⟩ := Value.hasKind_str.1 (hstr b hb)
    exact Or.inr ⟨s, t, hs, ht⟩

/-- Rows have keys, and no two the same. -/
theorem key? (h : store.HasKeys e) (ha : a ∈ store.rows e.table) :
    (a.value e.primaryKey).key?.isSome ∧ ∀ b ∈ store.rows e.table,
      (a.value e.primaryKey).key? = (b.value e.primaryKey).key? → a = b := by
  constructor
  · rcases h.alike ha ha with ⟨n, -, hn, -⟩ | ⟨s, -, hs, -⟩
    · rw [hn]
      rfl
    · rw [hs]
      rfl
  · intro b hb heq
    refine h.eq_of_value ha hb ?_
    rcases h.alike ha hb with ⟨n, m, hn, hm⟩ | ⟨s, t, hs, ht⟩
    · rw [hn, hm] at heq ⊢
      simpa [Value.key?] using heq
    · rw [hs, ht] at heq ⊢
      simpa [Value.key?] using heq

theorem isNull_eq_false (h : store.HasKeys e) (ha : a ∈ store.rows e.table) :
    (a.value e.primaryKey).isNull = false := by
  have hkey := (h.key? ha).1
  cases hv : a.value e.primaryKey with
  | null =>
    rw [hv] at hkey
    exact nomatch hkey
  | _ => rfl

theorem isPreorderOn (h : store.HasKeys e) :
    IsPreorderOn (TableRow.compareBy [{ column := e.primaryKey }]) (store.rows e.table) := by
  refine TableRow.isPreorderOn_compareBy fun o ho => ?_
  obtain rfl := List.mem_singleton.1 ho
  rcases h.kind with hint | hstr
  · exact ⟨.int, fun r hr => Value.isNullOr_iff.2 (Or.inr (hint r hr))⟩
  · exact ⟨.str, fun r hr => Value.isNullOr_iff.2 (Or.inr (hstr r hr))⟩

/-- Rows are sorted as a statement does. -/
theorem sortBy_eq (h : store.HasKeys e) (hrows : ∀ r ∈ rows, r ∈ store.rows e.table) :
    sortBy (TableRow.isBelow [{ column := e.primaryKey }]) rows = e.sorted rows :=
  (h.isPreorderOn.mono hrows).sortBy_eq

theorem filter_sorted (h : store.HasKeys e) (hrows : ∀ r ∈ rows, r ∈ store.rows e.table)
    (p : TableRow → Bool) : (e.sorted rows).filter p = e.sorted (rows.filter p) := by
  rw [← h.sortBy_eq hrows, ← h.sortBy_eq fun r hr => hrows r (List.mem_filter.1 hr).1]
  exact ((h.isPreorderOn.mono hrows).sortBy_filter p).symm

theorem rows_nodup (h : store.HasKeys e) : (store.rows e.table).Nodup :=
  List.Nodup.of_map _ h.nodup

end Store.HasKeys

theorem Entity.mem_sorted {e : Entity} {rows : List TableRow} {r : TableRow} :
    r ∈ e.sorted rows ↔ r ∈ rows :=
  (List.mergeSort_perm _ _).mem_iff

/-- A single row is sorted. -/
theorem Entity.sorted_eq_self {e : Entity} {rows : List TableRow} (h : rows.length ≤ 1) :
    e.sorted rows = rows := by
  rcases rows with _ | ⟨t, _ | ⟨t', rest⟩⟩
  · exact List.mergeSort_nil
  · exact List.mergeSort_singleton t
  · simp at h

/-! ### Batches -/

namespace Branch

variable {store : Store} {b : Branch} {v : Value} {batches : List (List Value)}

/-- The rows that are looked up by some keys. -/
def batch (store : Store) (b : Branch) (keys : List Value) : List TableRow :=
  (store.rows b.target.table).filter fun t =>
    Filter.memberOf? (t.value b.edge.targetColumn) keys == some true &&
      b.filters.all fun a => a.filter.holds t.value

/-- The rows that are looked up batch by batch. -/
def loaded (store : Store) (b : Branch) (batches : List (List Value)) : List TableRow :=
  batches.flatMap fun keys => b.target.sorted (b.batch store keys)

theorem mem_rows_of_mem_batch {keys : List Value} {t : TableRow} (h : t ∈ b.batch store keys) :
    t ∈ store.rows b.target.table :=
  (List.mem_filter.1 h).1

theorem mem_rows_of_mem_loaded {t : TableRow} (h : t ∈ b.loaded store batches) :
    t ∈ store.rows b.target.table := by
  obtain ⟨keys, -, h⟩ := List.mem_flatMap.1 h
  exact mem_rows_of_mem_batch (Entity.mem_sorted.1 h)

/-- What an owner with a value in its column gets of the relation if some rows only have
    records. -/
def given (store : Store) (b : Branch) (give? : TableRow → Option Record) (v : Value) :
    Related Record :=
  let records := (b.target.sorted (b.found store v)).filterMap give?
  match b.edge.cardinality with
  | .one => .one records.head?
  | .many => .many records

/-- Batches of distinct keys, by which the rows of a branch are looked up. -/
structure IsBatched (store : Store) (b : Branch) (batches : List (List Value)) : Prop where
  keyed : store.HasKeys b.target
  target : ∀ t ∈ store.rows b.target.table, (t.value b.edge.targetColumn).IsPlain
  plain : ∀ w ∈ batches.flatten, w.IsPlain
  nodup : (batches.flatten.map Value.key?).Nodup

/-- A batch of the distinct keys of some values has the key of each. -/
theorem exists_mem_chunks {vs : List Value} {v : Value} (hv : v ∈ vs) (hsome : v.key?.isSome)
    (n : Nat) : ∃ w ∈ (chunks n (distinctKeys [] vs)).flatten, v.key? = w.key? := by
  obtain ⟨key, hkey⟩ := Option.isSome_iff_exists.1 hsome
  obtain ⟨w, hw, hsame⟩ := exists_mem_distinctKeys hv hkey List.not_mem_nil
  rw [flatten_chunks]
  exact ⟨w, hw, hkey.trans hsame.symm⟩

/-- The distinct keys of some values, in batches. -/
theorem isBatched_chunks (hkeyed : store.HasKeys b.target)
    (htarget : ∀ t ∈ store.rows b.target.table, (t.value b.edge.targetColumn).IsPlain)
    {vs : List Value} (hvs : ∀ v ∈ vs, v.IsPlain) (n : Nat) :
    b.IsBatched store (chunks n (distinctKeys [] vs)) where
  keyed := hkeyed
  target := htarget
  plain := by
    rw [flatten_chunks]
    exact fun w hw => hvs w ((nodup_distinctKeys _ _).2 w hw).1
  nodup := by
    rw [flatten_chunks]
    exact (nodup_distinctKeys _ _).1

namespace IsBatched

/-- A row that is looked up has the key of a batch. -/
theorem exists_of_mem_batch (h : b.IsBatched store batches) {keys : List Value}
    (hkeys : keys ∈ batches) {t : TableRow} (ht : t ∈ b.batch store keys) :
    ∃ w ∈ keys, (t.value b.edge.targetColumn).key? = w.key? := by
  obtain ⟨ht, hin⟩ := List.mem_filter.1 ht
  rw [Bool.and_eq_true, beq_iff_eq, Value.memberOf?_iff] at hin
  obtain ⟨⟨w, hw, hequal⟩, -⟩ := hin
  have hplain := h.plain w (List.mem_flatten_of_mem hkeys hw)
  exact ⟨w, hw, ((Value.equal?_iff (h.target t ht) hplain).1 hequal).2⟩

/-- No key is in two batches. -/
theorem disjoint (h : b.IsBatched store batches) : batches.Pairwise fun ks ks' =>
    ∀ w ∈ ks, ∀ w' ∈ ks', w.key? ≠ w'.key? := by
  have hnodup := h.nodup
  rw [List.map_flatten, List.nodup_flatten, List.pairwise_map] at hnodup
  refine hnodup.2.imp fun hdisjoint w hw w' hw' heq => ?_
  exact hdisjoint (List.mem_map_of_mem hw) (heq ▸ List.mem_map_of_mem hw')

/-- No row is looked up twice. -/
theorem nodup_loaded (h : b.IsBatched store batches) : (b.loaded store batches).Nodup := by
  refine List.nodup_flatMap.2 ⟨fun keys _ => ?_, ?_⟩
  · exact (List.mergeSort_perm _ _).nodup_iff.2 (h.keyed.rows_nodup.filter _)
  · refine h.disjoint.imp_of_mem fun {ks ks'} hks hks' hdisjoint t ht ht' => ?_
    obtain ⟨w, hw, hkey⟩ := h.exists_of_mem_batch hks (Entity.mem_sorted.1 ht)
    obtain ⟨w', hw', hkey'⟩ := h.exists_of_mem_batch hks' (Entity.mem_sorted.1 ht')
    exact hdisjoint w hw w' hw' (hkey.symm.trans hkey')

/-- Among the rows of the batch with the key of an owner those with this key are the ones
    that are found for the owner. -/
theorem filter_batch (h : b.IsBatched store batches) {keys : List Value} (hkeys : keys ∈ batches)
    (hv : v.IsPlain) {w : Value} (hw : w ∈ keys) (hkey : v.key? = w.key?)
    (hsome : v.key?.isSome) :
    (b.batch store keys).filter (fun t => (t.value b.edge.targetColumn).key? == v.key?) =
      b.found store v := by
  rw [batch, List.filter_filter, found]
  refine List.filter_congr fun t ht => ?_
  have htarget := h.target t ht
  have hplain := h.plain w (List.mem_flatten_of_mem hkeys hw)
  rw [Bool.eq_iff_iff, Bool.and_eq_true, Bool.and_eq_true, Bool.and_eq_true, beq_iff_eq,
    beq_iff_eq, beq_iff_eq, Value.memberOf?_iff, Value.equal?_iff hv htarget]
  constructor
  · rintro ⟨hsame, -, hfilters⟩
    exact ⟨⟨hsome, hsame.symm⟩, hfilters⟩
  · rintro ⟨⟨-, hsame⟩, hfilters⟩
    refine ⟨hsame.symm, ⟨w, hw, (Value.equal?_iff htarget hplain).2 ⟨?_, ?_⟩⟩, hfilters⟩
    · rwa [← hsame]
    · rw [← hsame, hkey]

/-- The rows with the key of an owner are those that a look-up of its key alone gives. -/
theorem filter_loaded (h : b.IsBatched store batches) (hv : v.IsPlain) (hsome : v.key?.isSome)
    (hmem : ∃ w ∈ batches.flatten, v.key? = w.key?) :
    (b.loaded store batches).filter (fun t => (t.value b.edge.targetColumn).key? == v.key?) =
      b.target.sorted (b.found store v) := by
  obtain ⟨w, hw, hkey⟩ := hmem
  obtain ⟨keys, hkeys, hw⟩ := List.mem_flatten.1 hw
  obtain ⟨before, after, hsplit⟩ := List.append_of_mem hkeys
  have hdisjoint := h.disjoint
  rw [hsplit, List.pairwise_append, List.pairwise_cons] at hdisjoint
  obtain ⟨-, ⟨hafter, -⟩, hbefore⟩ := hdisjoint
  -- No other batch has rows with the key.
  have hnone : ∀ ks ∈ batches, (∀ w' ∈ ks, w'.key? ≠ w.key?) →
      (b.target.sorted (b.batch store ks)).filter
        (fun t => (t.value b.edge.targetColumn).key? == v.key?) = [] := by
    intro ks hks hother
    refine List.filter_eq_nil_iff.2 fun t ht heq => ?_
    obtain ⟨w', hw', hkey'⟩ := h.exists_of_mem_batch hks (Entity.mem_sorted.1 ht)
    exact hother w' hw' (hkey'.symm.trans ((beq_iff_eq.1 heq).trans hkey))
  have hmem : ∀ ks ∈ before ++ keys :: after, ks ∈ batches := fun ks hks => hsplit ▸ hks
  have hfirst : (before.flatMap fun ks => b.target.sorted (b.batch store ks)).filter
      (fun t => (t.value b.edge.targetColumn).key? == v.key?) = [] := by
    rw [List.filter_flatMap, List.flatMap_eq_nil_iff]
    exact fun ks hks => hnone ks (hmem ks (List.mem_append_left _ hks)) fun w' hw' =>
      hbefore ks hks keys List.mem_cons_self w' hw' w hw
  have hlast : (after.flatMap fun ks => b.target.sorted (b.batch store ks)).filter
      (fun t => (t.value b.edge.targetColumn).key? == v.key?) = [] := by
    rw [List.filter_flatMap, List.flatMap_eq_nil_iff]
    exact fun ks hks => hnone ks (hmem ks (List.mem_append_right _ (List.mem_cons_of_mem _ hks)))
      fun w' hw' => (hafter ks hks w hw w' hw').symm
  rw [loaded, hsplit, List.flatMap_append, List.flatMap_cons, List.filter_append,
    List.filter_append, hfirst, hlast, List.nil_append, List.append_nil,
    h.keyed.filter_sorted fun _ => mem_rows_of_mem_batch, h.filter_batch hkeys hv hw hkey hsome]

/-- An owner gets the records of the rows that are found for its value, as far as these have
    records. -/
theorem relatedTo_filterMap (h : b.IsBatched store batches) {give? : TableRow → Option Record}
    (hgive : ∀ t r, give? t = some r →
      r.key? b.edge.targetColumn = (t.value b.edge.targetColumn).key?)
    {owner : Record} (hv : (owner.value b.edge.ownerColumn).IsPlain)
    (hmem : (owner.value b.edge.ownerColumn).key?.isSome →
      ∃ w ∈ batches.flatten, (owner.value b.edge.ownerColumn).key? = w.key?) :
    CompiledPlan.relatedTo b.edge ((b.loaded store batches).filterMap give?) owner =
      b.given store give? (owner.value b.edge.ownerColumn) := by
  have hkey : owner.key? b.edge.ownerColumn = (owner.value b.edge.ownerColumn).key? := by
    rw [Record.key?, Record.value]
    cases owner.get? b.edge.ownerColumn <;> rfl
  have hfilter : ∀ k, ((b.loaded store batches).filterMap give?).filter
      (fun r => r.key? b.edge.targetColumn == k) =
        ((b.loaded store batches).filter fun t =>
          (t.value b.edge.targetColumn).key? == k).filterMap give? := by
    intro k
    rw [List.filter_filterMap, List.filterMap_filter]
    refine List.filterMap_congr fun t _ => ?_
    rcases hrec : give? t with _ | r
    · simp
    · rw [Option.filter_some, hgive t r hrec]
  rw [CompiledPlan.relatedTo, given, hkey]
  rcases hk : (owner.value b.edge.ownerColumn).key? with _ | k
  · -- What has no key equals nothing.
    have hnil : b.found store (owner.value b.edge.ownerColumn) = [] := by
      refine List.filter_eq_nil_iff.2 fun t ht hin => ?_
      rw [Bool.and_eq_true, beq_iff_eq, Value.equal?_iff hv (h.target t ht), hk] at hin
      cases hin.1.1
    have hsorted : b.target.sorted [] = [] := Entity.sorted_eq_self (Nat.zero_le 1)
    rw [hnil, hsorted]
    cases b.edge.cardinality <;> rfl
  · have hsome : (owner.value b.edge.ownerColumn).key?.isSome := by rw [hk]; rfl
    have hfound : ((b.loaded store batches).filterMap give?).filter
        (fun r => r.key? b.edge.targetColumn == some k) =
          (b.target.sorted (b.found store (owner.value b.edge.ownerColumn))).filterMap give? := by
      rw [hfilter, ← hk, h.filter_loaded hv hsome (hmem hsome)]
    simp only
    cases b.edge.cardinality with
    | one => exact congrArg (fun records => Related.one records.head?) hfound
    | many => exact congrArg Related.many hfound

/-- An owner gets the records of the rows that are found for it. -/
theorem relatedTo_eq (h : b.IsBatched store batches)
    (hcolumn : b.edge.targetColumn ∈ b.target.columns) (js : List Branch) (way : List Relation)
    {owner : Record} (hv : (owner.value b.edge.ownerColumn).IsPlain)
    (hmem : (owner.value b.edge.ownerColumn).key?.isSome →
      ∃ w ∈ batches.flatten, (owner.value b.edge.ownerColumn).key? = w.key?)
    (hsingle : b.edge.cardinality = .one →
      (b.found store (owner.value b.edge.ownerColumn)).length ≤ 1) :
    CompiledPlan.relatedTo b.edge
        ((b.loaded store batches).map (recordOf store js way b.target)) owner =
      b.related store (recordOf store js way b.target) (owner.value b.edge.ownerColumn) := by
  have hgive : ∀ t r, (some ∘ recordOf store js way b.target) t = some r →
      r.key? b.edge.targetColumn = (t.value b.edge.targetColumn).key? := by
    intro t r hr
    rw [← Option.some.inj hr, Record.key?, get?_recordOf hcolumn]
    rfl
  rw [← List.filterMap_eq_map, h.relatedTo_filterMap hgive hv hmem, given, related,
    List.filterMap_eq_map]
  rcases hcard : b.edge.cardinality with _ | _
  · simp only [Entity.sorted_eq_self (hsingle hcard), List.head?_map]
  · rfl

end IsBatched

end Branch

end EntityFetch
