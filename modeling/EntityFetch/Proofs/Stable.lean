import EntityFetch.Proofs.Comparison
import EntityFetch.Proofs.Sort

/-!
# Stable sorts

A stable sort of a list is in order and has, for every element, those that equal it in the
order in which the list has them (`Sorting.IsStableSort`). There is one only, which is that
of the library (`Sorting.IsStableSort.eq_mergeSort`), so that no place of an element has to
be followed through a sort. Inserting, merging from either end and the sort of a short piece
give it as long as the comparison is a total preorder (`Sorting.sortShort_eq`): then the two
ends of a merge meet.
-/

namespace EntityFetch.Sorting

open Std

variable {α : Type} {cmp : α → α → Ordering} {as bs us vs ws : List α}

/-- The comparison of a sort by an order. -/
abbrev isLess (cmp : α → α → Ordering) (a b : α) : Bool :=
  cmp a b == .lt

/-- A list in order that has the elements of another one, those that are equal in the order
    of that one. -/
structure IsStableSort (cmp : α → α → Ordering) (ws as : List α) : Prop where
  sorted : ws.Pairwise fun a b => (cmp a b).isLE
  alike : ∀ c, ws.filter (cmp c · == .eq) = as.filter (cmp c · == .eq)

theorem not_isLess [OrientedCmp cmp] (a b : α) : (!isLess cmp b a) = (cmp a b).isLE := by
  have hswap : cmp b a = (cmp a b).swap := OrientedCmp.eq_swap
  rw [isLess, hswap]
  cases cmp a b <;> rfl

theorem not_isLess_iff [OrientedCmp cmp] {a b : α} : ¬isLess cmp b a = true ↔ (cmp a b).isLE := by
  rw [← not_isLess, Bool.not_eq_true', Bool.not_eq_true]

theorem isLE_or_isLE [OrientedCmp cmp] (a b : α) : ((cmp a b).isLE || (cmp b a).isLE) = true := by
  have hswap : cmp b a = (cmp a b).swap := OrientedCmp.eq_swap
  rw [hswap]
  cases cmp a b <;> rfl

/-- The first element of a sorted list is at most any other one. -/
theorem isLE_of_mem_cons [ReflCmp cmp] {a b : α}
    (h : (a :: as).Pairwise fun a b => (cmp a b).isLE) (hb : b ∈ a :: as) : (cmp a b).isLE := by
  rcases List.mem_cons.1 hb with rfl | hb
  · have hself : cmp b b = .eq := ReflCmp.compare_self
    rw [hself]
    rfl
  · exact (List.pairwise_cons.1 h).1 b hb

/-- Nothing in a sorted list equals an element below the first one. -/
theorem filter_eq_nil_of_lt [TransCmp cmp] {a b c : α}
    (h : (a :: as).Pairwise fun a b => (cmp a b).isLE) (hlt : cmp b a = .lt)
    (hcb : cmp c b = .eq) : (a :: as).filter (cmp c · == .eq) = [] := by
  refine List.filter_eq_nil_iff.2 fun x hx hcx => ?_
  have hbx : cmp b x = .lt := TransCmp.lt_of_lt_of_isLE hlt (isLE_of_mem_cons h hx)
  rw [TransCmp.eq_trans (OrientedCmp.eq_symm hcb) (beq_iff_eq.1 hcx)] at hbx
  cases hbx

namespace IsStableSort

theorem nil : IsStableSort cmp [] [] :=
  ⟨.nil, fun _ => rfl⟩

theorem of_sorted (h : as.Pairwise fun a b => (cmp a b).isLE) : IsStableSort cmp as as :=
  ⟨h, fun _ => rfl⟩

theorem mem_filter_self [ReflCmp cmp] {a : α} : a ∈ as.filter (cmp a · == .eq) ↔ a ∈ as := by
  have hself : cmp a a = .eq := ReflCmp.compare_self
  simp [List.mem_filter, hself]

theorem mem_iff [ReflCmp cmp] (h : IsStableSort cmp ws as) {a : α} : a ∈ ws ↔ a ∈ as := by
  exact ⟨fun ha => mem_filter_self.1 (h.alike a ▸ mem_filter_self.2 ha),
    fun ha => mem_filter_self.1 (h.alike a ▸ mem_filter_self.2 ha)⟩

/-- Both lists have the elements of a class in the same order, so that their first elements
    are the same, and so on. -/
theorem unique [TransCmp cmp] (h : IsStableSort cmp ws as) (h' : IsStableSort cmp us as) :
    ws = us := by
  suffices hall : ∀ ws us : List α, (ws.Pairwise fun a b => (cmp a b).isLE) →
      (us.Pairwise fun a b => (cmp a b).isLE) →
      (∀ c, ws.filter (cmp c · == .eq) = us.filter (cmp c · == .eq)) → ws = us from
    hall ws us h.sorted h'.sorted fun c => (h.alike c).trans (h'.alike c).symm
  have hself : ∀ a, cmp a a = .eq := fun _ => ReflCmp.compare_self
  have hmem : ∀ {ws us : List α}, (∀ c, ws.filter (cmp c · == .eq) = us.filter (cmp c · == .eq)) →
      ∀ {a}, a ∈ ws → a ∈ us := by
    intro ws us halike a ha
    exact mem_filter_self.1 (halike a ▸ mem_filter_self.2 ha)
  intro ws
  induction ws with
  | nil =>
    intro us _ _ halike
    refine (List.eq_nil_iff_forall_not_mem.2 fun b hb => ?_).symm
    exact List.not_mem_nil (hmem (fun c => (halike c).symm) hb)
  | cons a ws ih =>
    intro us hws hus halike
    rcases us with _ | ⟨b, us⟩
    · exact absurd (hmem halike List.mem_cons_self) List.not_mem_nil
    · have hba := isLE_of_mem_cons hus (hmem halike List.mem_cons_self)
      have hab := isLE_of_mem_cons hws (hmem (fun c => (halike c).symm) List.mem_cons_self)
      have heq : cmp a b = .eq := OrientedCmp.isLE_antisymm hab hba
      have ha := halike a
      rw [List.filter_cons_of_pos (by rw [hself]; rfl),
        List.filter_cons_of_pos (by rw [heq]; rfl)] at ha
      obtain rfl : a = b := (List.cons.inj ha).1
      refine congrArg (a :: ·) (ih us (List.pairwise_cons.1 hws).2 (List.pairwise_cons.1 hus).2
        fun c => ?_)
      have hc := halike c
      rw [List.filter_cons, List.filter_cons] at hc
      split at hc
      · exact (List.cons.inj hc).2
      · exact hc

theorem mergeSort [TransCmp cmp] (as : List α) :
    IsStableSort cmp (as.mergeSort fun a b => (cmp a b).isLE) as := by
  have htrans : ∀ a b c : α, (cmp a b).isLE → (cmp b c).isLE → (cmp a c).isLE :=
    fun _ _ _ => TransCmp.isLE_trans
  refine ⟨List.pairwise_mergeSort htrans isLE_or_isLE as, fun c => ?_⟩
  -- A class is in order already, so that the library's sort has it as a part.
  have hclass : (as.filter (cmp c · == .eq)).Pairwise fun a b => (cmp a b).isLE := by
    refine List.pairwise_of_forall_mem_list fun a ha b hb => ?_
    have ha := beq_iff_eq.1 (List.mem_filter.1 ha).2
    have hb := beq_iff_eq.1 (List.mem_filter.1 hb).2
    have hac : cmp a c = .eq := OrientedCmp.eq_symm ha
    rw [TransCmp.eq_trans hac hb]
    rfl
  have hsub := List.sublist_mergeSort htrans isLE_or_isLE hclass List.filter_sublist
  have hperm := (List.mergeSort_perm as fun a b => (cmp a b).isLE).filter (cmp c · == .eq)
  have hsub := hsub.filter (cmp c · == .eq)
  rw [List.filter_filter] at hsub
  simp only [Bool.and_self] at hsub
  exact (hsub.eq_of_length hperm.length_eq.symm).symm

theorem eq_mergeSort [TransCmp cmp] (h : IsStableSort cmp ws as) :
    ws = as.mergeSort fun a b => (cmp a b).isLE :=
  h.unique (mergeSort as)

theorem length_eq [TransCmp cmp] (h : IsStableSort cmp ws as) : ws.length = as.length := by
  rw [h.eq_mergeSort, List.length_mergeSort]

/-- Turned round, a stable sort is one for the order turned round. -/
theorem reverse [OrientedCmp cmp] (h : IsStableSort cmp ws as) :
    IsStableSort (fun a b => cmp b a) ws.reverse as.reverse := by
  refine ⟨List.pairwise_reverse.2 h.sorted, fun c => ?_⟩
  have hclass : (fun a => cmp a c == .eq) = fun a => cmp c a == .eq := by
    funext a
    have hswap : cmp a c = (cmp c a).swap := OrientedCmp.eq_swap
    rw [hswap]
    cases cmp c a <;> rfl
  rw [List.filter_reverse, List.filter_reverse, hclass, h.alike c]

/-- What is sorted may have been sorted in two parts before. -/
theorem of_append (h : IsStableSort cmp ws (us ++ vs)) (hus : IsStableSort cmp us as)
    (hvs : IsStableSort cmp vs bs) : IsStableSort cmp ws (as ++ bs) := by
  refine ⟨h.sorted, fun c => ?_⟩
  rw [h.alike c, List.filter_append, List.filter_append, hus.alike c, hvs.alike c]

/-- What does not tell elements of a class apart holds of all of them or of none. -/
theorem filter_class {p : α → Bool} (hclass : ∀ a b, cmp a b = .eq → p a = p b) (c : α) :
    as.filter (fun a => cmp c a == .eq && p a) =
      if p c then as.filter (cmp c · == .eq) else [] := by
  have heq : ∀ a, (cmp c a == .eq && p a) = (cmp c a == .eq && p c) := by
    intro a
    cases ha : cmp c a with
    | eq => rw [hclass c a ha]
    | lt => rfl
    | gt => rfl
  rw [funext heq]
  cases p c <;> simp

/-- Two parts are sorted apart, if the elements of one are at most those of the other and
    no element of one equals one of the other. -/
theorem append_of_filter [TransCmp cmp] {p : α → Bool}
    (hclass : ∀ a b, cmp a b = .eq → p a = p b)
    (hle : ∀ a ∈ as, ∀ b ∈ as, p a = true → p b = false → (cmp a b).isLE)
    (hus : IsStableSort cmp us (as.filter p)) (hvs : IsStableSort cmp vs (as.filter (!p ·))) :
    IsStableSort cmp (us ++ vs) as := by
  refine ⟨List.pairwise_append.2 ⟨hus.sorted, hvs.sorted, fun a ha b hb => ?_⟩, fun c => ?_⟩
  · obtain ⟨ha, hpa⟩ := List.mem_filter.1 (hus.mem_iff.1 ha)
    obtain ⟨hb, hpb⟩ := List.mem_filter.1 (hvs.mem_iff.1 hb)
    exact hle a ha b hb hpa (by simpa using hpb)
  · rw [List.filter_append, hus.alike, hvs.alike, List.filter_filter, List.filter_filter]
    have hnot : ∀ a b, cmp a b = .eq → (!p a) = !p b := fun a b h => congrArg _ (hclass a b h)
    -- A class is on one side.
    rw [filter_class hclass, filter_class hnot]
    cases p c
    · exact List.nil_append _
    · exact List.append_nil _

end IsStableSort

/-! ### Inserting -/

/-- The list in reverse, into which an element is put, stays in order. -/
theorem pairwise_insertSorted [TransCmp cmp] (h : as.Pairwise fun a b => (cmp b a).isLE) (a : α) :
    (insertSorted (isLess cmp) a as).Pairwise fun a b => (cmp b a).isLE := by
  induction as with
  | nil => exact List.pairwise_singleton _ _
  | cons b as ih =>
    obtain ⟨hb, hrest⟩ := List.pairwise_cons.1 h
    rw [insertSorted]
    split
    · next hlt =>
      refine List.pairwise_cons.2 ⟨fun x hx => ?_, ih hrest⟩
      rcases List.mem_cons.1 ((insertSorted_perm a as).mem_iff.1 hx) with rfl | hx
      · rw [beq_iff_eq.1 hlt]
        rfl
      · exact hb x hx
    · next hlt =>
      have hle := not_isLess_iff.1 hlt
      refine List.pairwise_cons.2 ⟨fun x hx => ?_, h⟩
      rcases List.mem_cons.1 hx with rfl | hx
      · exact hle
      · exact TransCmp.isLE_trans (hb x hx) hle

/-- An element is put before all that equal it, since it moves only past others. -/
theorem filter_insertSorted [TransCmp cmp] (a c : α) (as : List α) :
    (insertSorted (isLess cmp) a as).filter (cmp c · == .eq) =
      (a :: as).filter (cmp c · == .eq) := by
  induction as with
  | nil => rfl
  | cons b as ih =>
    rw [insertSorted]
    split
    · next hlt =>
      have hne : cmp c a = .eq → cmp c b ≠ .eq := by
        intro ha hb
        have hlt := beq_iff_eq.1 hlt
        rw [TransCmp.eq_trans (OrientedCmp.eq_symm ha) hb] at hlt
        cases hlt
      rw [List.filter_cons, ih, List.filter_cons, List.filter_cons, List.filter_cons]
      by_cases ha : cmp c a = .eq
      · simp [ha, hne ha]
      · simp [ha]
    · rfl

/-- An element that comes after those that are sorted is put where it belongs. -/
theorem IsStableSort.insertSorted [TransCmp cmp] {sorted : List α}
    (h : IsStableSort cmp sorted.reverse as) (a : α) :
    IsStableSort cmp (Sorting.insertSorted (isLess cmp) a sorted).reverse (as ++ [a]) := by
  have hsorted := List.pairwise_reverse.1 h.sorted
  refine ⟨List.pairwise_reverse.2 (pairwise_insertSorted hsorted a), fun c => ?_⟩
  rw [List.filter_reverse, filter_insertSorted, ← List.filter_reverse, List.reverse_cons,
    List.filter_append, List.filter_append, h.alike c]

theorem IsStableSort.insertAll [TransCmp cmp] (h : IsStableSort cmp ws as) (bs : List α) :
    IsStableSort cmp (Sorting.insertAll (isLess cmp) ws bs) (as ++ bs) := by
  rw [← List.reverse_reverse ws] at h
  unfold Sorting.insertAll
  generalize ws.reverse = sorted at h
  induction bs generalizing as sorted with
  | nil => simpa using h
  | cons b bs ih =>
    rw [List.foldl_cons, List.append_cons]
    exact ih _ (h.insertSorted b)

/-! ### Merging -/

section Merge

variable (isBelow : α → α → Bool)

theorem merge_nil_left (bs : List α) : merge isBelow [] bs = bs := by
  simp [merge, mergeSteps]

theorem merge_nil_right (as : List α) : merge isBelow as [] = as := by
  cases as <;> simp [merge, mergeSteps]

theorem merge_cons_cons (a b : α) (as bs : List α) :
    merge isBelow (a :: as) (b :: bs) =
      if isBelow b a then b :: merge isBelow (a :: as) bs else a :: merge isBelow as (b :: bs) := by
  have hlength : as.length + 1 + bs.length = as.length + (bs.length + 1) := by omega
  simp only [merge, List.length_cons, ← Nat.add_assoc, mergeSteps]
  split
  · rfl
  · simp only [hlength, List.cons_append]
    rfl

/-- What some steps have merged is the start of the whole merge, and the rest is merged of
    what is left. -/
theorem mergeSteps_append (n : ℕ) (as bs : List α) :
    (mergeSteps isBelow n as bs).merged ++
        merge isBelow (mergeSteps isBelow n as bs).left (mergeSteps isBelow n as bs).right =
      merge isBelow as bs := by
  induction n generalizing as bs with
  | zero => simp [mergeSteps]
  | succ n ih =>
    rcases as with _ | ⟨a, as⟩
    · simp [mergeSteps]
    rcases bs with _ | ⟨b, bs⟩
    · simp [mergeSteps]
    rw [mergeSteps, merge_cons_cons]
    split
    · exact congrArg (b :: ·) (ih (a :: as) bs)
    · exact congrArg (a :: ·) (ih as (b :: bs))

/-- As long as both lists last, every step merges one element. -/
theorem length_mergeSteps {n : ℕ} (has : n ≤ as.length) (hbs : n ≤ bs.length) :
    (mergeSteps isBelow n as bs).merged.length = n := by
  induction n generalizing as bs with
  | zero => simp [mergeSteps]
  | succ n ih =>
    rcases as with _ | ⟨a, as⟩
    · cases has
    rcases bs with _ | ⟨b, bs⟩
    · cases hbs
    rw [List.length_cons] at has hbs
    rw [mergeSteps]
    split
    · exact congrArg (· + 1) (ih (by rw [List.length_cons]; omega) (by omega))
    · exact congrArg (· + 1) (ih (by omega) (by rw [List.length_cons]; omega))

theorem merge_eq (as bs : List α) :
    merge isBelow as bs = as.merge bs fun a b => !isBelow b a := by
  induction as generalizing bs with
  | nil => rw [merge_nil_left, List.nil_merge]
  | cons a as iha =>
    induction bs with
    | nil => rw [merge_nil_right, List.merge_right]
    | cons b bs ihb =>
      rw [merge_cons_cons, List.cons_merge_cons, iha, ihb]
      cases isBelow b a <;> rfl

end Merge

/-- Of equal elements those of the first list come first: what is taken from the second list
    before them is below them. -/
theorem filter_merge [TransCmp cmp] (has : as.Pairwise fun a b => (cmp a b).isLE) (bs : List α)
    (c : α) : (merge (isLess cmp) as bs).filter (cmp c · == .eq) =
      (as ++ bs).filter (cmp c · == .eq) := by
  induction as generalizing bs with
  | nil => rw [merge_nil_left, List.nil_append]
  | cons a as iha =>
    induction bs with
    | nil => rw [merge_nil_right, List.append_nil]
    | cons b bs ihb =>
      rw [merge_cons_cons]
      split
      · next hlt =>
        rw [List.filter_cons, ihb, List.filter_append, List.filter_append]
        by_cases hb : cmp c b = .eq
        · rw [filter_eq_nil_of_lt has (beq_iff_eq.1 hlt) hb]
          simp [hb]
        · simp [hb]
      · rw [List.cons_append, List.filter_cons, List.filter_cons,
          iha (List.pairwise_cons.1 has).2]

/-- Two sorted lists are merged in order, and of equal elements those of the first list
    come first. -/
theorem isStableSort_merge [TransCmp cmp] (has : as.Pairwise fun a b => (cmp a b).isLE)
    (hbs : bs.Pairwise fun a b => (cmp a b).isLE) :
    IsStableSort cmp (merge (isLess cmp) as bs) (as ++ bs) := by
  refine ⟨?_, filter_merge has bs⟩
  rw [merge_eq]
  simp only [not_isLess]
  exact List.pairwise_merge (fun _ _ _ => TransCmp.isLE_trans) isLE_or_isLE as bs has hbs

/-- A merge from the back gives the same. -/
theorem isStableSort_mergeBack [TransCmp cmp] (has : as.Pairwise fun a b => (cmp a b).isLE)
    (hbs : bs.Pairwise fun a b => (cmp a b).isLE) :
    IsStableSort cmp (mergeBack (isLess cmp) as bs) (as ++ bs) := by
  have h := (isStableSort_merge (List.pairwise_reverse.2 hbs) (List.pairwise_reverse.2 has)).reverse
  rwa [← List.reverse_append, List.reverse_reverse] at h

/-- Merging from the back turns a merge round. -/
theorem merge_swap_reverse [TransCmp cmp] (has : as.Pairwise fun a b => (cmp a b).isLE)
    (hbs : bs.Pairwise fun a b => (cmp a b).isLE) :
    merge (fun a b => isLess cmp b a) bs.reverse as.reverse =
      (merge (isLess cmp) as bs).reverse :=
  List.reverse_eq_iff.1 ((isStableSort_mergeBack has hbs).unique (isStableSort_merge has hbs))

/-- The first steps of a merge from both ends give the two ends of the whole merge. -/
theorem mergeSteps_ends [TransCmp cmp] {n : ℕ} (has : as.Pairwise fun a b => (cmp a b).isLE)
    (hbs : bs.Pairwise fun a b => (cmp a b).isLE) (hleft : n ≤ as.length) (hright : n ≤ bs.length) :
    ∃ middle, (mergeSteps (isLess cmp) n as bs).merged ++ middle ++
        (mergeSteps (fun a b => isLess cmp b a) n bs.reverse as.reverse).merged.reverse =
      merge (isLess cmp) as bs := by
  have hlength : (merge (isLess cmp) as bs).length = as.length + bs.length := by
    rw [(merge_perm as bs).length_eq, List.length_append]
  have hfront : (merge (isLess cmp) as bs).take n = (mergeSteps (isLess cmp) n as bs).merged := by
    rw [← mergeSteps_append (isLess cmp) n as bs]
    exact List.take_left' (length_mergeSteps _ hleft hright)
  have hback : (merge (isLess cmp) as bs).reverse.take n =
      (mergeSteps (fun a b => isLess cmp b a) n bs.reverse as.reverse).merged := by
    rw [← merge_swap_reverse has hbs, ← mergeSteps_append _ n bs.reverse as.reverse]
    refine List.take_left' (length_mergeSteps _ ?_ ?_) <;> rwa [List.length_reverse]
  have htake := take_append_middle (show n + n ≤ (merge (isLess cmp) as bs).length by omega)
  rw [hfront, hback] at htake
  exact ⟨_, htake⟩

/-- If the elements of one list are marked by `p` and those of the other one by `q`, the marks
    tell how many of each have been merged. -/
theorem countP_mergeSteps {p q : α → Bool} (isBelow : α → α → Bool) (n : ℕ)
    (has : ∀ a ∈ as, p a = true ∧ q a = false) (hbs : ∀ b ∈ bs, q b = true ∧ p b = false) :
    (mergeSteps isBelow n as bs).merged.countP p + (mergeSteps isBelow n as bs).left.length =
        as.length ∧
      (mergeSteps isBelow n as bs).merged.countP q +
        (mergeSteps isBelow n as bs).right.length = bs.length := by
  obtain ⟨i, j, hi, hj, hleft, hright, hperm⟩ := mergeSteps_spec isBelow n as bs
  have hp := List.countP_eq_length.2 fun a ha => (has a (List.mem_of_mem_take (i := i) ha)).1
  have hq := List.countP_eq_length.2 fun b hb => (hbs b (List.mem_of_mem_take (i := j) hb)).1
  have hp' : (bs.take j).countP p = 0 := List.countP_eq_zero.2 fun b hb =>
    Bool.eq_false_iff.1 (hbs b (List.mem_of_mem_take hb)).2
  have hq' : (as.take i).countP q = 0 := List.countP_eq_zero.2 fun a ha =>
    Bool.eq_false_iff.1 (has a (List.mem_of_mem_take ha)).2
  rw [hperm.countP_eq, hperm.countP_eq, List.countP_append, List.countP_append, hp, hq, hp', hq',
    hleft, hright, List.length_take, List.length_take, List.length_drop, List.length_drop]
  omega

/-- Of marked lists no element is taken from both ends. -/
theorem length_le_of_marked [TransCmp cmp] {p q : α → Bool} {n : ℕ}
    (has : as.Pairwise fun a b => (cmp a b).isLE) (hbs : bs.Pairwise fun a b => (cmp a b).isLE)
    (hleft : n ≤ as.length) (hright : n ≤ bs.length)
    (hp : ∀ a ∈ as, p a = true ∧ q a = false) (hq : ∀ b ∈ bs, q b = true ∧ p b = false) :
    as.length ≤ (mergeSteps (isLess cmp) n as bs).left.length +
        (mergeSteps (fun a b => isLess cmp b a) n bs.reverse as.reverse).right.length ∧
      bs.length ≤ (mergeSteps (isLess cmp) n as bs).right.length +
        (mergeSteps (fun a b => isLess cmp b a) n bs.reverse as.reverse).left.length := by
  obtain ⟨middle, hmiddle⟩ := mergeSteps_ends has hbs hleft hright
  have hcount : ∀ q : α → Bool, (mergeSteps (isLess cmp) n as bs).merged.countP q +
      (mergeSteps (fun a b => isLess cmp b a) n bs.reverse as.reverse).merged.countP q ≤
        as.countP q + bs.countP q := by
    intro q
    have h : (merge (isLess cmp) as bs).countP q = (as ++ bs).countP q :=
      (merge_perm as bs).countP_eq q
    rw [← hmiddle, List.countP_append, List.countP_append, List.countP_reverse,
      List.countP_append] at h
    omega
  have hfront := countP_mergeSteps (isLess cmp) n hp hq
  -- From the back the second list is the first one, and the marks are exchanged.
  have hback := countP_mergeSteps (fun a b => isLess cmp b a) n
    (fun b hb => hq b (List.mem_reverse.1 hb)) fun a ha => hp a (List.mem_reverse.1 ha)
  have hall := countP_mergeSteps (isLess cmp) 0 hp hq
  have hpas := List.countP_eq_length.2 fun a ha => (hp a ha).1
  have hqbs := List.countP_eq_length.2 fun b hb => (hq b hb).1
  have hpbs : bs.countP p = 0 := List.countP_eq_zero.2 fun b hb => Bool.eq_false_iff.1 (hq b hb).2
  have hqas : as.countP q = 0 := List.countP_eq_zero.2 fun a ha => Bool.eq_false_iff.1 (hp a ha).2
  have h := hcount p
  have h' := hcount q
  rw [List.length_reverse, List.length_reverse] at hback
  omega

/-- Of sorted lists no element is taken from both ends. -/
theorem length_le_of_sorted [TransCmp cmp] {n : ℕ}
    (has : as.Pairwise fun a b => (cmp a b).isLE) (hbs : bs.Pairwise fun a b => (cmp a b).isLE)
    (hleft : n ≤ as.length) (hright : n ≤ bs.length) :
    as.length ≤ (mergeSteps (isLess cmp) n as bs).left.length +
        (mergeSteps (fun a b => isLess cmp b a) n bs.reverse as.reverse).right.length ∧
      bs.length ≤ (mergeSteps (isLess cmp) n as bs).right.length +
        (mergeSteps (fun a b => isLess cmp b a) n bs.reverse as.reverse).left.length := by
  -- The elements are marked with the list that they are in, and compared without the marks.
  have hmarked : TransCmp fun x y : α × Bool => cmp x.1 y.1 :=
    { eq_swap := OrientedCmp.eq_swap, isLE_trans := TransCmp.isLE_trans }
  have hfst : ∀ (l : List α) (mark : Bool), (l.map fun a => (a, mark)).map Prod.fst = l := by
    intro l mark
    rw [List.map_map]
    exact List.map_id l
  have hends := length_le_of_marked (n := n) (p := fun x => x.2) (q := fun x => !x.2)
    (List.pairwise_map.2 has : (as.map fun a => (a, true)).Pairwise fun x y => (cmp x.1 y.1).isLE)
    (List.pairwise_map.2 hbs : (bs.map fun b => (b, false)).Pairwise fun x y => (cmp x.1 y.1).isLE)
    (by rwa [List.length_map]) (by rwa [List.length_map]) (by simp) (by simp)
  have hfront := mergeSteps_map (isLess cmp) Prod.fst n (as.map fun a => (a, true))
    (bs.map fun b => (b, false))
  have hback := mergeSteps_map (fun a b => isLess cmp b a) Prod.fst n
    (bs.map fun b => (b, false)).reverse (as.map fun a => (a, true)).reverse
  rw [List.map_reverse, List.map_reverse, hfst, hfst] at hback
  rw [hfst, hfst] at hfront
  rw [hfront, hback]
  simpa only [Merging.map, List.length_map] using hends

/-- Two sorted lists, of which the second one may have one element more, are merged from both
    ends. -/
theorem mergeBothEnds_eq [TransCmp cmp] (has : as.Pairwise fun a b => (cmp a b).isLE)
    (hbs : bs.Pairwise fun a b => (cmp a b).isLE) (hle : as.length ≤ bs.length)
    (hlt : bs.length ≤ as.length + 1) :
    mergeBothEnds (isLess cmp) as bs = some (merge (isLess cmp) as bs) := by
  obtain ⟨rest, hrest⟩ : ∃ rest, mergeBothEnds (isLess cmp) as bs =
      some ((mergeSteps (isLess cmp) as.length as bs).merged ++ rest ++
        (mergeSteps (fun a b => isLess cmp b a) as.length bs.reverse as.reverse).merged.reverse) := by
    unfold mergeBothEnds
    rw [if_pos (length_le_of_sorted has hbs (Nat.le_refl _) hle)]
    exact ⟨_, by rw [List.append_assoc _ (List.take _ _) (List.take _ _)]⟩
  obtain ⟨middle, hmiddle⟩ := mergeSteps_ends has hbs (Nat.le_refl _) hle
  -- One element at most is left between the ends.
  have hlength : middle.length ≤ 1 := by
    have hfront : (mergeSteps (isLess cmp) as.length as bs).merged.length = as.length :=
      length_mergeSteps _ (Nat.le_refl _) hle
    have hback : (mergeSteps (fun a b => isLess cmp b a) as.length bs.reverse
        as.reverse).merged.length = as.length :=
      length_mergeSteps _ (by rwa [List.length_reverse])
        (Nat.le_of_eq List.length_reverse.symm)
    have hall : (merge (isLess cmp) as bs).length = (as ++ bs).length :=
      (merge_perm as bs).length_eq
    rw [← hmiddle, List.length_append, List.length_append, List.length_reverse,
      List.length_append, hfront, hback] at hall
    omega
  have hperm := mergeBothEnds_perm hrest
  rw [hrest, ← hmiddle]
  have hsame := hperm.trans (hmiddle ▸ (merge_perm as bs).symm)
  rw [List.perm_append_right_iff, List.perm_append_left_iff] at hsame
  rcases middle with _ | ⟨m, _ | ⟨m', middle⟩⟩
  · rw [hsame.eq_nil]
  · rw [List.perm_singleton.1 hsame]
  · exact absurd hlength (by simp)

theorem isStableSort_inOrder [TransCmp cmp] (a b : α) :
    IsStableSort cmp [(inOrder (isLess cmp) a b).1, (inOrder (isLess cmp) a b).2] [a, b] := by
  have hmerge : merge (isLess cmp) [a] [b] =
      [(inOrder (isLess cmp) a b).1, (inOrder (isLess cmp) a b).2] := by
    rw [merge_cons_cons, merge_nil_left, merge_nil_right, inOrder]
    split <;> rfl
  exact hmerge ▸ isStableSort_merge (List.pairwise_singleton _ a) (List.pairwise_singleton _ b)

/-- Two pairs in order are merged. -/
theorem mergePairs_eq [TransCmp cmp] {p q : α × α} (hp : (cmp p.1 p.2).isLE)
    (hq : (cmp q.1 q.2).isLE) :
    mergePairs (isLess cmp) p q = merge (isLess cmp) [p.1, p.2] [q.1, q.2] := by
  have hp' : isLess cmp p.2 p.1 = false := Bool.eq_false_iff.2 (not_isLess_iff.2 hp)
  have hq' : isLess cmp q.2 q.1 = false := Bool.eq_false_iff.2 (not_isLess_iff.2 hq)
  have hleast : isLess cmp q.2 p.1 = true → isLess cmp q.2 p.2 = true := fun h =>
    beq_iff_eq.2 (TransCmp.lt_of_lt_of_isLE (beq_iff_eq.1 h) hp)
  have hgreatest : isLess cmp q.2 p.2 = true → isLess cmp q.1 p.2 = true := fun h =>
    beq_iff_eq.2 (TransCmp.lt_of_isLE_of_lt hq (beq_iff_eq.1 h))
  simp only [mergePairs, merge_cons_cons, merge_nil_left, merge_nil_right, inOrder, hp', hq']
  cases h₁ : isLess cmp q.1 p.1 <;> cases h₂ : isLess cmp q.2 p.2 <;>
    cases h₃ : isLess cmp q.2 p.1 <;> cases h₄ : isLess cmp q.1 p.2 <;> simp_all

theorem isStableSort_sortFour [TransCmp cmp] (a b c d : α) :
    IsStableSort cmp (sortFour (isLess cmp) a b c d) [a, b, c, d] := by
  have hab : IsStableSort cmp _ [a, b] := isStableSort_inOrder a b
  have hcd : IsStableSort cmp _ [c, d] := isStableSort_inOrder c d
  rw [sortFour, mergePairs_eq (List.rel_of_pairwise_cons hab.sorted List.mem_cons_self)
    (List.rel_of_pairwise_cons hcd.sorted List.mem_cons_self)]
  exact (isStableSort_merge hab.sorted hcd.sorted).of_append hab hcd

theorem isStableSort_sortHalf [TransCmp cmp] (isLong : Bool) (as : List α) :
    IsStableSort cmp (sortHalf (isLess cmp) isLong as) as := by
  unfold sortHalf
  split
  · next a b c d rest => exact (isStableSort_sortFour a b c d).insertAll rest
  · exact IsStableSort.nil.insertAll as

/-- A short piece is sorted, whatever its halves are. -/
theorem sortShort_eq [TransCmp cmp] (as : List α) :
    sortShort (isLess cmp) as = some (as.mergeSort fun a b => (cmp a b).isLE) := by
  have hleft : IsStableSort cmp _ (as.take (as.length / 2)) :=
    isStableSort_sortHalf (decide (8 ≤ as.length)) _
  have hright : IsStableSort cmp _ (as.drop (as.length / 2)) :=
    isStableSort_sortHalf (decide (8 ≤ as.length)) _
  have hlength := hleft.length_eq
  have hlength' := hright.length_eq
  rw [List.length_take] at hlength
  rw [List.length_drop] at hlength'
  rw [sortShort, mergeBothEnds_eq hleft.sorted hright.sorted (by omega) (by omega)]
  have hwhole := (isStableSort_merge hleft.sorted hright.sorted).of_append hleft hright
  rw [List.take_append_drop] at hwhole
  rw [hwhole.eq_mergeSort]

end EntityFetch.Sorting
