import EntityFetch.Proofs.Ordered

/-!
# Values of several kinds

Null comes before all other values, and values that cannot be compared are equal in their order.
That makes a value of another kind equal to both of two values that differ, so that a column of
several kinds has no order in general.

* `Value.AreComparable`: besides null there is one kind, or there is no difference at all.
* `Store.isPreorderOn_compareValues`: the values that have an order are those that are comparable.
* `Store.order_of_areComparable`: rows whose columns are comparable are sorted, and a single
  column orders them only if it is.
-/

namespace EntityFetch

open Std

/-! ### Values -/

namespace Value

/-- Whether a value is a float. -/
def isFloat : Value → Bool
  | float _ => true
  | _ => false

/-- Whether values are, null aside, of one kind that has an order or all equal in their order. -/
def AreComparable (vs : List Value) : Prop :=
  (∃ k, ∀ v ∈ vs, v.isNullOr k) ∨
    ∀ v ∈ vs, ∀ w ∈ vs, v ≠ null → w ≠ null → Store.compareValues v w = .eq

theorem isNullOr_of_hasKind {v : Value} {k : Kind} (h : v.hasKind k) : v.isNullOr k :=
  isNullOr_iff.2 (.inr h)

theorem hasKind_unique {v : Value} {k k' : Kind} (h : v.hasKind k) (h' : v.hasKind k') :
    k = k' := by
  cases v <;> cases k <;> cases k' <;> trivial

end Value

namespace Store

variable {v w : Value} {vs : List Value}

theorem compareValues_json (a b : Json) : compareValues (.json a) (.json b) = .eq := by
  change (if a == b then some Ordering.eq else none).getD .eq = .eq
  split <;> rfl

/-- Values are of one kind if they differ in their order and neither is null. -/
theorem hasKind_or_eq (hv : v.isFloat = false) (hw : w.isFloat = false) (hvnull : v ≠ .null)
    (hwnull : w ≠ .null) : (∃ k, v.hasKind k ∧ w.hasKind k) ∨ compareValues v w = .eq := by
  cases v with
  | null => exact absurd rfl hvnull
  | float x => cases hv
  | bool a => cases w <;> first | exact .inr rfl | exact .inl ⟨.bool, rfl, rfl⟩ | contradiction
  | int a => cases w <;> first | exact .inr rfl | exact .inl ⟨.int, rfl, rfl⟩ | contradiction
  | str a => cases w <;> first | exact .inr rfl | exact .inl ⟨.str, rfl, rfl⟩ | contradiction
  | json a => cases w <;> first | exact .inr rfl | exact .inr (compareValues_json a _) | contradiction
  | list as => cases w <;> first | exact .inr rfl | contradiction

theorem isPreorderOn_of_isNullOr {k : Kind} (h : ∀ v ∈ vs, v.isNullOr k) :
    IsPreorderOn compareValues vs :=
  transCmp_compareValues fun v => h v.1 v.2

/-- The order of two values is that of the same two turned round. -/
theorem compareValues_swap (hv : v.isFloat = false) (hw : w.isFloat = false) :
    compareValues w v = (compareValues v w).swap := by
  by_cases hvnull : v = .null
  · subst hvnull
    cases w <;> rfl
  by_cases hwnull : w = .null
  · subst hwnull
    cases v <;> rfl
  by_cases hkind : ∃ k, v.hasKind k ∧ w.hasKind k
  · obtain ⟨k, hvk, hwk⟩ := hkind
    have hboth : ∀ u ∈ [v, w], u.isNullOr k := by
      simp [Value.isNullOr_of_hasKind hvk, Value.isNullOr_of_hasKind hwk]
    exact (isPreorderOn_iff.1 (isPreorderOn_of_isNullOr hboth)).1 v (by simp) w (by simp)
  · rw [(hasKind_or_eq hv hw hvnull hwnull).resolve_left hkind,
      (hasKind_or_eq hw hv hwnull hvnull).resolve_left fun ⟨k, hwk, hvk⟩ => hkind ⟨k, hvk, hwk⟩]
    rfl

/-- Values among which there is no difference but that to null are ordered. -/
theorem isPreorderOn_of_eq
    (h : ∀ v ∈ vs, ∀ w ∈ vs, v ≠ .null → w ≠ .null → compareValues v w = .eq) :
    IsPreorderOn compareValues vs := by
  have hnull : (fun v w : { v // v ∈ vs } => compareValues v w) =
      compareOn fun v => !v.1.isNull := by
    funext ⟨v, hv⟩ ⟨w, hw⟩
    have hvw := h v hv w hw
    simp only [compareOn]
    cases v <;> cases w <;> first | rfl | exact hvw nofun nofun
  unfold IsPreorderOn
  rw [hnull]
  infer_instance

theorem isPreorderOn_of_areComparable (h : Value.AreComparable vs) :
    IsPreorderOn compareValues vs :=
  h.elim (fun ⟨_, hk⟩ => isPreorderOn_of_isNullOr hk) isPreorderOn_of_eq

/-- Values other than floats are ordered just if they are comparable. -/
theorem isPreorderOn_compareValues (hfloat : ∀ v ∈ vs, v.isFloat = false) :
    IsPreorderOn compareValues vs ↔ Value.AreComparable vs := by
  refine ⟨fun h => or_iff_not_imp_right.2 fun hdiffer => ?_, isPreorderOn_of_areComparable⟩
  push Not at hdiffer
  obtain ⟨v, hv, w, hw, hvnull, hwnull, hne⟩ := hdiffer
  obtain ⟨k, hvk, hwk⟩ :=
    (hasKind_or_eq (hfloat v hv) (hfloat w hw) hvnull hwnull).resolve_right hne
  refine ⟨k, fun u hu => Value.isNullOr_iff.2 (or_iff_not_imp_left.2 fun hnull => ?_)⟩
  -- A value of another kind would be equal to both of the two that differ.
  by_contra hk
  have htie : ∀ x ∈ vs, x ≠ .null → x.hasKind k → compareValues x u = .eq := by
    intro x hx hxnull hxk
    refine (hasKind_or_eq (hfloat x hx) (hfloat u hu) hxnull hnull).resolve_left ?_
    rintro ⟨k', hxk', huk'⟩
    exact hk (Value.hasKind_unique hxk hxk' ▸ huk')
  have hwu := htie w hw hwnull hwk
  have huw : compareValues u w = .eq := by
    rw [compareValues_swap (hfloat w hw) (hfloat u hu), hwu]
    rfl
  exact hne (h.eq_trans hv hu hw (htie v hv hvnull hvk) huw)

end Store

/-! ### Rows -/

/-- What an ordering says of two values. -/
def OrderBy.between (o : OrderBy) (v w : Value) : Ordering :=
  match o.direction with
  | .ascending => Store.compareValues v w
  | .descending => (Store.compareValues v w).swap

/-- The values that rows have for an ordering of a statement. -/
def Statement.orderValues (s : Statement) (o : OrderBy) (rows : List Row) : List Value :=
  rows.map fun r => (r.get? s.root.aliasName o.column).getD .null

namespace Store

variable {s : Statement} {rows : List Row} {vs : List Value}

theorem compareRows_cons (aliasName : String) (a b : Row) (o : OrderBy) (os : List OrderBy) :
    compareRows aliasName a b (o :: os) = (o.between ((a.get? aliasName o.column).getD .null)
      ((b.get? aliasName o.column).getD .null)).then (compareRows aliasName a b os) := by
  rw [compareRows, OrderBy.between]
  cases o.direction <;> simp only <;>
    cases compareValues ((a.get? aliasName o.column).getD .null)
      ((b.get? aliasName o.column).getD .null) <;> rfl

theorem compareRows_eq_foldr (aliasName : String) (a b : Row) (os : List OrderBy) :
    compareRows aliasName a b os = os.foldr (fun o c => (o.between
      ((a.get? aliasName o.column).getD .null) ((b.get? aliasName o.column).getD .null)).then c)
        .eq := by
  induction os with
  | nil => rfl
  | cons o os ih => rw [List.foldr_cons, ← ih, compareRows_cons]

theorem isPreorderOn_between (o : OrderBy) :
    IsPreorderOn o.between vs ↔ IsPreorderOn compareValues vs := by
  unfold OrderBy.between
  cases o.direction with
  | ascending => exact Iff.rfl
  | descending => exact isPreorderOn_swap

/-- Rows are compared by the values that they have for the orderings. -/
theorem isPreorderOn_foldr_between {α : Type} {value : α → OrderBy → Value} {as : List α}
    {os : List OrderBy} (h : ∀ o ∈ os, Value.AreComparable (as.map fun a => value a o)) :
    IsPreorderOn (fun a b => os.foldr (fun o c => (o.between (value a o) (value b o)).then c) .eq)
      as :=
  isPreorderOn_foldr fun o ho =>
    isPreorderOn_map.1 ((isPreorderOn_between o).2 (isPreorderOn_of_areComparable (h o ho)))

/-- Rows of which every column has comparable values are ordered by several columns. -/
theorem isPreorderOn_compareRows
    (h : ∀ o ∈ s.orderBy, Value.AreComparable (s.orderValues o rows)) :
    IsPreorderOn (fun a b => compareRows s.root.aliasName a b s.orderBy) rows := by
  simp only [compareRows_eq_foldr]
  exact isPreorderOn_foldr_between h

/-- One column orders rows just if it has comparable values. -/
theorem isPreorderOn_compareRows_singleton {o : OrderBy} (ho : s.orderBy = [o])
    (hfloat : ∀ v ∈ s.orderValues o rows, v.isFloat = false) :
    IsPreorderOn (fun a b => compareRows s.root.aliasName a b s.orderBy) rows ↔
      Value.AreComparable (s.orderValues o rows) := by
  have hone : (fun a b => compareRows s.root.aliasName a b s.orderBy) = fun a b =>
      o.between ((a.get? s.root.aliasName o.column).getD .null)
        ((b.get? s.root.aliasName o.column).getD .null) := by
    funext a b
    rw [ho, compareRows_cons, compareRows, Ordering.then_eq]
  rw [hone, ← isPreorderOn_compareValues hfloat, ← isPreorderOn_between o]
  exact isPreorderOn_map.symm

end Store

namespace TableRow

variable {rows rows' : List TableRow} {os : List OrderBy}

/-- Whether the columns of an order have comparable values in some rows. -/
def AreComparable (rows : List TableRow) (os : List OrderBy) : Prop :=
  ∀ o ∈ os, Value.AreComparable (rows.map fun r => r.value o.column)

theorem AreComparable.mono (h : AreComparable rows os) (hsub : ∀ r ∈ rows', r ∈ rows) :
    AreComparable rows' os := by
  intro o ho
  have hmem : ∀ v ∈ rows'.map (·.value o.column), v ∈ rows.map (·.value o.column) := by
    intro v hv
    obtain ⟨r, hr, rfl⟩ := List.mem_map.1 hv
    exact List.mem_map_of_mem (hsub r hr)
  exact (h o ho).imp (fun ⟨k, hk⟩ => ⟨k, fun v hv => hk v (hmem v hv)⟩)
    fun heq v hv w hw => heq v (hmem v hv) w (hmem w hw)

/-- Rows with comparable columns are ordered by them. -/
theorem AreComparable.isPreorderOn (h : AreComparable rows os) :
    Store.IsPreorderOn (compareBy os) rows :=
  Store.isPreorderOn_foldr_between h

end TableRow

namespace Store

variable {s : Statement} {rows : List Row} {vs : List Value}

/-- The order of values that are no floats does not depend on the side from which it is seen. It
    is transitive just among comparable values, and rows whose columns have comparable values are
    sorted by them: the columns order the rows, the sorted rows are those of the stable sort, and
    no row is above a later one. A single column whose values are not comparable orders no rows. -/
theorem order_of_areComparable (hvs : ∀ v ∈ vs, v.isFloat = false)
    (hrows : ∀ o ∈ s.orderBy, ∀ v ∈ s.orderValues o rows, v.isFloat = false) :
    (∀ v ∈ vs, ∀ w ∈ vs, compareValues w v = (compareValues v w).swap) ∧
    ((∀ u ∈ vs, ∀ v ∈ vs, ∀ w ∈ vs, (compareValues u v).isLE → (compareValues v w).isLE →
        (compareValues u w).isLE ∧
          (compareValues u w = .eq → compareValues u v = .eq ∧ compareValues v w = .eq)) ↔
      Value.AreComparable vs) ∧
    ((∀ o ∈ s.orderBy, Value.AreComparable (s.orderValues o rows)) →
      IsPreorderOn (fun a b => compareRows s.root.aliasName a b s.orderBy) rows ∧
      order s rows =
        rows.mergeSort (fun a b => (compareRows s.root.aliasName a b s.orderBy).isLE) ∧
      (order s rows).Pairwise fun a b => (compareRows s.root.aliasName a b s.orderBy).isLE) ∧
    ∀ o, s.orderBy = [o] →
      (IsPreorderOn (fun a b => compareRows s.root.aliasName a b s.orderBy) rows ↔
        Value.AreComparable (s.orderValues o rows)) := by
  have hswap : ∀ v ∈ vs, ∀ w ∈ vs, compareValues w v = (compareValues v w).swap :=
    fun v hv w hw => compareValues_swap (hvs v hv) (hvs w hw)
  refine ⟨hswap, ⟨fun h => ?_, fun h => ?_⟩, fun h => ?_, fun o ho => ?_⟩
  · refine (isPreorderOn_compareValues hvs).1 (isPreorderOn_iff.2 ⟨hswap, ?_⟩)
    exact fun u hu v hv w hw huv hvw => (h u hu v hv w hw huv hvw).1
  · intro u hu v hv w hw huv hvw
    have hpre := (isPreorderOn_compareValues hvs).2 h
    exact ⟨(isPreorderOn_iff.1 hpre).2 u hu v hv w hw huv hvw, hpre.eq_of_isLE hu hv hw huv hvw⟩
  · have hpre := isPreorderOn_compareRows h
    have hsort : order s rows = rows.mergeSort fun a b =>
        (compareRows s.root.aliasName a b s.orderBy).isLE := by rw [order_eq_sortBy, hpre.sortBy_eq]
    exact ⟨hpre, hsort, hsort ▸ hpre.pairwise_mergeSort⟩
  · exact isPreorderOn_compareRows_singleton ho (hrows o (ho ▸ List.mem_singleton.2 rfl))

/-! ### Items of several kinds -/

/-- Items in the order of what they cost. -/
def itemStatement : Statement :=
  { root := { table := "items", aliasName := "item" }, columns := [], joins := [],
    predicates := [], orderBy := [{ column := "cost" }], limit := none, offset := none }

/-- The row of an item that costs something. -/
def itemRow (cost : Value) : Row :=
  Row.insert {} "item" "cost" cost

/-- Items that cost numbers or nothing are sorted; a word among the numbers leaves no order. -/
theorem order_of_areComparable_items :
    order itemStatement ([.int 2, .null, .int 1].map itemRow) =
      [.null, .int 1, .int 2].map itemRow ∧
    (order itemStatement ([.int 2, .null, .int 1].map itemRow)).Pairwise
      (fun a b => (compareRows "item" a b itemStatement.orderBy).isLE) ∧
    ¬ IsPreorderOn (fun a b => compareRows "item" a b itemStatement.orderBy)
      ([.int 2, .str "x", .int 1].map itemRow) := by
  have hvs : ∀ v ∈ [Value.int 2, .str "x", .int 1], v.isFloat = false := by decide
  have hnumbers : ∀ o ∈ itemStatement.orderBy, ∀ v ∈
      itemStatement.orderValues o ([.int 2, .null, .int 1].map itemRow), v.isFloat = false := by
    decide
  have hmixed : ∀ o ∈ itemStatement.orderBy, ∀ v ∈
      itemStatement.orderValues o ([.int 2, .str "x", .int 1].map itemRow), v.isFloat = false := by
    decide
  have hcomparable : ∀ o ∈ itemStatement.orderBy, Value.AreComparable
      (itemStatement.orderValues o ([.int 2, .null, .int 1].map itemRow)) := by
    refine fun o ho => .inl ⟨.int, ?_⟩
    obtain rfl := List.mem_singleton.1 ho
    decide
  obtain ⟨-, hsort, hsorted⟩ := (order_of_areComparable hvs hnumbers).2.2.1 hcomparable
  refine ⟨rfl, hsorted, fun h => ?_⟩
  have hsplit : Value.AreComparable [.int 2, .str "x", .int 1] :=
    ((order_of_areComparable hvs hmixed).2.2.2 { column := "cost" } rfl).1 h
  -- The costs are not of one kind, and two of them differ.
  rcases hsplit with ⟨k, hk⟩ | htie
  · have htwo := hk (.int 2) (by simp)
    have hword := hk (.str "x") (by simp)
    cases k <;> trivial
  · exact absurd (htie (.int 2) (by simp) (.int 1) (by simp) nofun nofun) nofun

/-- Two and one are each equal to a word in their order, and yet two is above one. With the word
    between them they are not sorted. -/
theorem intransitive_items :
    compareValues (.int 2) (.str "x") = .eq ∧ compareValues (.str "x") (.int 1) = .eq ∧
    compareValues (.int 2) (.int 1) = .gt ∧
    ¬ IsPreorderOn compareValues [.int 2, .str "x", .int 1] ∧
    order itemStatement ([.int 2, .str "x", .int 1].map itemRow) =
      [.int 2, .str "x", .int 1].map itemRow := by
  refine ⟨rfl, rfl, rfl, fun h => ?_, rfl⟩
  exact absurd (h.eq_trans (a := .int 2) (b := .str "x") (c := .int 1) (by simp) (by simp)
    (by simp) rfl rfl) nofun

end Store

end EntityFetch
