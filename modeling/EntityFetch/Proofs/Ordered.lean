import EntityFetch.Proofs.Answer

/-!
# Rows in order

The sort gives what the stable sort of the library gives, if the comparison is a total
preorder on the elements that are there, and it does not break off
(`Store.IsPreorderOn.sort?_eq`). The order of rows by some columns is one on rows of which
every column holds null or values of one kind that has an order
(`TableRow.isPreorderOn_compareBy`).
-/

namespace EntityFetch

open Std

namespace Store

variable {α : Type} {cmp : α → α → Ordering}

/-! ### Comparing elements of a list -/

/-- Whether a comparison is a total preorder on the elements of a list. -/
def IsPreorderOn (cmp : α → α → Ordering) (as : List α) : Prop :=
  TransCmp fun a b : { a // a ∈ as } => cmp a b

variable {as bs : List α}

theorem IsPreorderOn.mono (h : IsPreorderOn cmp as) (hsub : ∀ b ∈ bs, b ∈ as) :
    IsPreorderOn cmp bs where
  eq_swap {a b} := h.eq_swap (a := ⟨a.1, hsub a.1 a.2⟩) (b := ⟨b.1, hsub b.1 b.2⟩)
  isLE_trans {a b c} := h.isLE_trans (a := ⟨a.1, hsub a.1 a.2⟩) (b := ⟨b.1, hsub b.1 b.2⟩)
    (c := ⟨c.1, hsub c.1 c.2⟩)

/-- Only the comparison of the elements that are there matters. -/
theorem IsPreorderOn.congr (h : IsPreorderOn cmp as) {cmp' : α → α → Ordering}
    (heq : ∀ a ∈ as, ∀ b ∈ as, cmp' a b = cmp a b) : IsPreorderOn cmp' as := by
  have hfun : (fun a b : { a // a ∈ as } => cmp' a b) = fun a b : { a // a ∈ as } => cmp a b :=
    funext fun a => funext fun b => heq a.1 a.2 b.1 b.2
  rw [IsPreorderOn, hfun]
  exact h

theorem IsPreorderOn.eq_trans (h : IsPreorderOn cmp as) {a b c : α} (ha : a ∈ as) (hb : b ∈ as)
    (hc : c ∈ as) (hab : cmp a b = .eq) (hbc : cmp b c = .eq) : cmp a c = .eq :=
  @TransCmp.eq_trans _ (fun a b : { a // a ∈ as } => cmp a b) h ⟨a, ha⟩ ⟨b, hb⟩ ⟨c, hc⟩ hab hbc

/-- Of three elements in order the first and the last differ if two of them do. -/
theorem IsPreorderOn.eq_of_isLE (h : IsPreorderOn cmp as) {a b c : α} (ha : a ∈ as) (hb : b ∈ as)
    (hc : c ∈ as) (hab : (cmp a b).isLE) (hbc : (cmp b c).isLE) (hac : cmp a c = .eq) :
    cmp a b = .eq ∧ cmp b c = .eq := by
  have hlt : cmp a b ≠ .lt := fun hlt => by
    have := @TransCmp.lt_of_lt_of_isLE _ (fun a b : { a // a ∈ as } => cmp a b) h
      ⟨a, ha⟩ ⟨b, hb⟩ ⟨c, hc⟩ hlt hbc
    exact absurd (hac.symm.trans this) nofun
  have hlt' : cmp b c ≠ .lt := fun hlt => by
    have := @TransCmp.lt_of_isLE_of_lt _ (fun a b : { a // a ∈ as } => cmp a b) h
      ⟨a, ha⟩ ⟨b, hb⟩ ⟨c, hc⟩ hab hlt
    exact absurd (hac.symm.trans this) nofun
  exact ⟨(Ordering.isLE_iff_eq_lt_or_eq_eq.1 hab).resolve_left hlt,
    (Ordering.isLE_iff_eq_lt_or_eq_eq.1 hbc).resolve_left hlt'⟩

/-- Elements of a list are sorted as those of a type. -/
theorem mergeSort_attach (as : List α) :
    (as.attach.mergeSort fun a b => (cmp a.1 b.1).isLE).map Subtype.val =
      as.mergeSort fun a b => (cmp a b).isLE := by
  rw [List.map_mergeSort (s := fun a b => (cmp a b).isLE) fun _ _ _ _ => rfl,
    List.attach_map_subtype_val]

theorem IsPreorderOn.sort?_eq (h : IsPreorderOn cmp as) :
    Sorting.sort? (fun a b => cmp a b == .lt) as =
      some (as.mergeSort fun a b => (cmp a b).isLE) := by
  have : TransCmp fun a b : { a // a ∈ as } => cmp a b := h
  conv_lhs => rw [← List.attach_map_subtype_val as, Sorting.sort?_map]
  have hattach : Sorting.sort? (fun a b : { a // a ∈ as } => cmp a b == .lt) as.attach = _ :=
    Sorting.sort?_eq as.attach
  rw [hattach, Option.map_some, mergeSort_attach]

theorem IsPreorderOn.sortBy_eq (h : IsPreorderOn cmp as) :
    sortBy (fun a b => cmp a b == .lt) as = as.mergeSort fun a b => (cmp a b).isLE := by
  rw [sortBy, h.sort?_eq, Option.getD_some]

theorem IsPreorderOn.pairwise_mergeSort (h : IsPreorderOn cmp as) :
    (as.mergeSort fun a b => (cmp a b).isLE).Pairwise fun a b => (cmp a b).isLE := by
  have hcmp : TransCmp fun a b : { a // a ∈ as } => cmp a b := h
  rw [← mergeSort_attach, List.pairwise_map]
  exact (Sorting.IsStableSort.mergeSort as.attach).sorted

/-! ### Comparisons made of others -/

theorem isPreorderOn_iff : IsPreorderOn cmp as ↔
    (∀ a ∈ as, ∀ b ∈ as, cmp b a = (cmp a b).swap) ∧
      ∀ a ∈ as, ∀ b ∈ as, ∀ c ∈ as, (cmp a b).isLE → (cmp b c).isLE → (cmp a c).isLE := by
  refine ⟨fun h => ⟨fun a ha b hb => h.eq_swap (a := ⟨b, hb⟩) (b := ⟨a, ha⟩),
    fun a ha b hb c hc => h.isLE_trans (a := ⟨a, ha⟩) (b := ⟨b, hb⟩) (c := ⟨c, hc⟩)⟩, ?_⟩
  rintro ⟨hswap, htrans⟩
  exact { eq_swap := fun {a b} => hswap b.1 b.2 a.1 a.2
          isLE_trans := fun {a b c} => htrans a.1 a.2 b.1 b.2 c.1 c.2 }

/-- Elements are compared by something else just as that is. -/
theorem isPreorderOn_map {β : Type} {cmp : β → β → Ordering} {f : α → β} :
    IsPreorderOn cmp (as.map f) ↔ IsPreorderOn (fun a b => cmp (f a) (f b)) as := by
  simp only [isPreorderOn_iff, List.forall_mem_map]

theorem IsPreorderOn.swap (h : IsPreorderOn cmp as) :
    IsPreorderOn (fun a b => (cmp a b).swap) as := by
  obtain ⟨hswap, htrans⟩ := isPreorderOn_iff.1 h
  refine isPreorderOn_iff.2 ⟨fun a ha b hb => congrArg _ (hswap a ha b hb), ?_⟩
  intro a ha b hb c hc hab hbc
  rw [← hswap a ha b hb] at hab
  rw [← hswap b hb c hc] at hbc
  rw [← hswap a ha c hc]
  exact htrans c hc b hb a ha hbc hab

theorem isPreorderOn_swap :
    IsPreorderOn (fun a b => (cmp a b).swap) as ↔ IsPreorderOn cmp as := by
  refine ⟨fun h => ?_, .swap⟩
  simpa only [Ordering.swap_swap] using h.swap

/-- Of several comparisons the first that sees a difference is decisive. -/
theorem isPreorderOn_foldr {ι : Type} {cmps : ι → α → α → Ordering} {is : List ι}
    (h : ∀ i ∈ is, IsPreorderOn (cmps i) as) :
    IsPreorderOn (fun a b => is.foldr (fun i c => (cmps i a b).then c) .eq) as := by
  induction is with
  | nil => exact { eq_swap := rfl, isLE_trans := fun _ _ => rfl }
  | cons i is ih =>
    have hfirst : TransCmp fun a b : { a // a ∈ as } => cmps i a b := h i List.mem_cons_self
    have hrest : TransCmp fun a b : { a // a ∈ as } =>
        is.foldr (fun i c => (cmps i a b).then c) .eq :=
      ih fun j hj => h j (List.mem_cons_of_mem _ hj)
    exact inferInstanceAs (TransCmp (compareLex (fun a b : { a // a ∈ as } => cmps i a b)
      fun a b => is.foldr (fun i c => (cmps i a b).then c) .eq))

end Store

/-! ### Values that have an order -/

/-- A kind of values that has an order. -/
inductive Kind where
  | bool
  | int
  | str
deriving DecidableEq, Repr

namespace Value

/-- Whether a value is of a kind. -/
def hasKind : Value → Kind → Bool
  | bool _, .bool => true
  | int _, .int => true
  | str _, .str => true
  | _, _ => false

/-- The truth value of a value of that kind. -/
def bool? : Value → Option Bool
  | bool b => some b
  | _ => none

/-- The integer of a value of that kind. -/
def int? : Value → Option Int
  | int n => some n
  | _ => none

/-- Whether a value is null or of a kind. -/
def isNullOr (k : Kind) (v : Value) : Bool :=
  v.isNull || v.hasKind k

variable {v w : Value}

theorem hasKind_bool : v.hasKind .bool ↔ ∃ b, v = bool b := by
  cases v <;> simp [hasKind]

theorem hasKind_int : v.hasKind .int ↔ ∃ n, v = int n := by
  cases v <;> simp [hasKind]

theorem hasKind_str : v.hasKind .str ↔ ∃ s, v = str s := by
  cases v <;> simp [hasKind]

theorem isNull_iff : v.isNull ↔ v = null := by
  cases v <;> simp [isNull]

theorem isNullOr_iff {k : Kind} : v.isNullOr k ↔ v = null ∨ v.hasKind k := by
  rw [isNullOr, Bool.or_eq_true, isNull_iff]

end Value

namespace Store

variable {v w : Value}

theorem compareValues_bool (hv : v.isNullOr .bool) (hw : w.isNullOr .bool) :
    compareValues v w = compare v.bool? w.bool? := by
  simp only [Value.isNullOr_iff, Value.hasKind_bool] at hv hw
  rcases hv with rfl | ⟨a, rfl⟩ <;> rcases hw with rfl | ⟨b, rfl⟩ <;> rfl

theorem compareValues_int (hv : v.isNullOr .int) (hw : w.isNullOr .int) :
    compareValues v w = compare v.int? w.int? := by
  simp only [Value.isNullOr_iff, Value.hasKind_int] at hv hw
  rcases hv with rfl | ⟨a, rfl⟩ <;> rcases hw with rfl | ⟨b, rfl⟩ <;> rfl

theorem compareValues_str (hv : v.isNullOr .str) (hw : w.isNullOr .str) :
    compareValues v w = compare v.str? w.str? := by
  simp only [Value.isNullOr_iff, Value.hasKind_str] at hv hw
  rcases hv with rfl | ⟨a, rfl⟩ <;> rcases hw with rfl | ⟨b, rfl⟩ <;> rfl

/-- Null and the values of one kind are ordered. -/
theorem transCmp_compareValues {α : Type} {value : α → Value} {k : Kind}
    (h : ∀ a, (value a).isNullOr k) :
    TransCmp fun a b => compareValues (value a) (value b) := by
  cases k with
  | bool =>
    simp only [compareValues_bool (h _) (h _)]
    exact inferInstanceAs (TransCmp (compareOn fun a => (value a).bool?))
  | int =>
    simp only [compareValues_int (h _) (h _)]
    exact inferInstanceAs (TransCmp (compareOn fun a => (value a).int?))
  | str =>
    simp only [compareValues_str (h _) (h _)]
    exact inferInstanceAs (TransCmp (compareOn fun a => (value a).str?))

end Store

namespace TableRow

variable {rows : List TableRow} {os : List OrderBy}

/-- Rows whose columns each hold null or values of one kind are ordered by them. -/
theorem isPreorderOn_compareBy
    (h : ∀ o ∈ os, ∃ k, ∀ r ∈ rows, (r.value o.column).isNullOr k) :
    Store.IsPreorderOn (compareBy os) rows := by
  refine Store.isPreorderOn_foldr fun o ho => ?_
  obtain ⟨k, hk⟩ := h o ho
  have hvalue : Store.IsPreorderOn
      (fun a b : TableRow => Store.compareValues (a.value o.column) (b.value o.column)) rows :=
    Store.transCmp_compareValues fun r => hk r.1 r.2
  unfold OrderBy.compare
  cases o.direction with
  | ascending => exact hvalue
  | descending => exact hvalue.swap

end TableRow

end EntityFetch
