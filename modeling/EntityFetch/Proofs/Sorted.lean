import EntityFetch.Proofs.Stable
import EntityFetch.Store

/-!
# The sort is stable

With a comparison that is a total preorder the sort never breaks off, and what it gives is
the stable sort (`Sorting.sort?_eq`). Runs and merges have the elements of a part of the
list in stable order, so that the run that is left in the end has those of the whole list
(`Sorting.isKept_stable`); a partition takes the classes of equal elements apart, and what
equals a pivot that nothing is below is in order already (`Sorting.sortParts_eq`).
-/

namespace EntityFetch.Sorting

open Std

variable {α : Type} {cmp : α → α → Ordering} {as us ws : List α}

/-! ### Runs -/

/-- Neighbours in a run are related, and so all of its elements. -/
theorem pairwise_runLength (isBelow : α → α → Bool) {R : α → α → Prop} {isDescending : Bool}
    (htrans : ∀ a b c, R a b → R b c → R a c)
    (hR : ∀ a b, isBelow b a = isDescending → R a b) (a : α) (bs : List α) :
    (a :: bs.take (runLength isBelow isDescending a bs)).Pairwise R := by
  induction bs generalizing a with
  | nil => exact List.pairwise_singleton _ _
  | cons b bs ih =>
    rw [runLength]
    split
    · next hnext =>
      have hab := hR a b (beq_iff_eq.1 hnext)
      have hrest := ih b
      rw [List.take_succ_cons]
      refine List.pairwise_cons.2 ⟨fun x hx => ?_, hrest⟩
      rcases List.mem_cons.1 hx with rfl | hx
      · exact hab
      · exact htrans a b x hab ((List.pairwise_cons.1 hrest).1 x hx)
    · exact List.pairwise_singleton _ _

/-- A run that descends strictly has no two equal elements, so that it can be turned round. -/
theorem isStableSort_reverse [TransCmp cmp] (h : us.Pairwise fun a b => cmp b a = .lt) :
    IsStableSort cmp us.reverse us := by
  refine ⟨List.pairwise_reverse.2 (h.imp fun hlt => by rw [hlt]; rfl), fun c => ?_⟩
  rw [List.filter_reverse]
  have hclass := h.filter (cmp c · == .eq)
  have hmem : ∀ a ∈ us.filter (cmp c · == .eq), cmp c a = .eq :=
    fun a ha => beq_iff_eq.1 (List.mem_filter.1 ha).2
  generalize us.filter (cmp c · == .eq) = l at hclass hmem ⊢
  rcases l with _ | ⟨a, _ | ⟨b, rest⟩⟩
  · rfl
  · rfl
  · -- Two elements of a class are equal.
    have hlt := (List.pairwise_cons.1 hclass).1 b List.mem_cons_self
    rw [TransCmp.eq_trans (OrientedCmp.eq_symm (hmem b (List.mem_cons_of_mem a List.mem_cons_self)))
      (hmem a List.mem_cons_self)] at hlt
    cases hlt

/-- Being the stable sort of some elements is kept by the parts of the sort. -/
theorem isKept_stable [TransCmp cmp] : IsKept (isLess cmp) (IsStableSort cmp) where
  nil := .nil
  short as ws h := by
    rw [sortShort_eq] at h
    exact Option.some.inj h ▸ IsStableSort.mergeSort as
  start as := by
    rcases as with _ | ⟨a, _ | ⟨b, bs⟩⟩
    · exact .nil
    · exact .of_sorted (List.pairwise_singleton _ _)
    · have hstart : startRun (isLess cmp) (a :: b :: bs) =
          (runLength (isLess cmp) (isLess cmp b a) b bs + 2, isLess cmp b a) := rfl
      have hlength : runLength (isLess cmp) (isLess cmp b a) a (b :: bs) =
          runLength (isLess cmp) (isLess cmp b a) b bs + 1 := by
        rw [runLength, beq_self_eq_true, if_pos rfl]
      rw [hstart, List.take_succ_cons, ← hlength]
      cases isLess cmp b a with
      | true =>
        exact isStableSort_reverse (pairwise_runLength (isLess cmp) (R := fun a b => cmp b a = .lt)
          (fun _ _ _ hab hbc => TransCmp.lt_trans hbc hab) (fun _ _ h => beq_iff_eq.1 h) a _)
      | false =>
        exact .of_sorted (pairwise_runLength (isLess cmp) (fun _ _ _ => TransCmp.isLE_trans)
          (fun _ _ h => not_isLess_iff.1 (Bool.eq_false_iff.1 h)) a _)
  merge l r u v hl hr := by
    unfold mergeRuns
    split
    · exact (isStableSort_merge hl.sorted hr.sorted).of_append hl hr
    · exact (isStableSort_mergeBack hl.sorted hr.sorted).of_append hl hr

/-! ### Coming to an end -/

section Ends

variable {isBelow : α → α → Bool} {sortAll : List α → Option (List α)}
  (hshort : ∀ as, (sortShort isBelow as).isSome) (hall : ∀ as, (sortAll as).isSome)

include hshort in
theorem isSome_cutRuns (good : ℕ) (isEager : Bool) (left : ℕ) (as : List α) :
    (cutRuns isBelow good isEager left as).isSome := by
  have hfirst : ∀ as, (firstRun isBelow good isEager as).isSome := by
    intro as
    simp only [firstRun]
    split
    · rfl
    · split
      · rw [Option.isSome_map]
        exact hshort _
      · rfl
  induction left generalizing as with
  | zero => rfl
  | succ left ih =>
    rcases as with _ | ⟨a, as⟩
    · rfl
    · obtain ⟨⟨run, rest⟩, hrun⟩ := Option.isSome_iff_exists.1 (hfirst (a :: as))
      obtain ⟨runs, hruns⟩ := Option.isSome_iff_exists.1 (ih rest)
      simp [cutRuns, hrun, hruns]

include hall

theorem isSome_sorted (run : Run α) : (run.sorted sortAll).isSome := by
  unfold Run.sorted
  split
  · rfl
  · exact hall _

variable (isBelow) (scratch : ℕ)

theorem isSome_collapse (depth : ℕ) (stack : List (Run α × ℕ)) (run : Run α) :
    (collapse isBelow sortAll scratch depth stack run).isSome := by
  have hjoin : ∀ l r, (joinTwo isBelow sortAll scratch l r).isSome := by
    intro l r
    obtain ⟨left, hleft⟩ := Option.isSome_iff_exists.1 (isSome_sorted hall l)
    obtain ⟨right, hright⟩ := Option.isSome_iff_exists.1 (isSome_sorted hall r)
    simp only [joinTwo, hleft, hright]
    split <;> rfl
  induction stack generalizing run with
  | nil => rfl
  | cons x stack ih =>
    rw [collapse]
    split
    · obtain ⟨joined, hjoined⟩ := Option.isSome_iff_exists.1 (hjoin x.1 run)
      simpa [hjoined] using ih joined
    · rfl

theorem isSome_joinRuns (scale : ℕ) (runs : List (Run α)) (mid : ℕ) (stack : List (Run α × ℕ))
    (run : Run α) : (joinRuns isBelow sortAll scratch scale runs mid stack run).isSome := by
  induction runs generalizing mid stack run with
  | nil =>
    rw [joinRuns, Option.isSome_map]
    exact isSome_collapse isBelow hall scratch 0 stack run
  | cons next runs ih =>
    rw [joinRuns]
    obtain ⟨x, hx⟩ := Option.isSome_iff_exists.1 (isSome_collapse isBelow hall scratch
      (treeDepth scale (mid - run.elements.length) mid (mid + next.elements.length)) stack run)
    simpa [hx] using ih _ _ next

include hshort in
/-- Runs are joined to the end if short pieces and long ones are sorted to the end. -/
theorem isSome_sortRuns (isEager : Bool) (as : List α) :
    (sortRuns isBelow sortAll scratch isEager as).isSome := by
  obtain ⟨runs, hruns⟩ := Option.isSome_iff_exists.1
    (isSome_cutRuns hshort (goodLength as.length) isEager as.length as)
  simp only [sortRuns, hruns, Option.bind_eq_bind, Option.bind_some]
  rcases runs with _ | ⟨run, runs⟩
  · rfl
  · obtain ⟨last, hlast⟩ := Option.isSome_iff_exists.1 (isSome_joinRuns isBelow hall scratch
      (treeScale as.length) runs run.elements.length [] run)
    simp only [hlast, Option.bind_some]
    exact isSome_sorted hall last

end Ends

/-- Joining runs gives the stable sort, if long pieces are sorted so. -/
theorem sortRuns_eq [TransCmp cmp] {sortAll : List α → Option (List α)}
    (hall : ∀ as, sortAll as = some (as.mergeSort fun a b => (cmp a b).isLE)) (scratch : ℕ)
    (isEager : Bool) (as : List α) :
    sortRuns (isLess cmp) sortAll scratch isEager as =
      some (as.mergeSort fun a b => (cmp a b).isLE) := by
  have hend : (sortRuns (isLess cmp) sortAll scratch isEager as).isSome :=
    isSome_sortRuns (isLess cmp) (fun as => by rw [sortShort_eq]; rfl)
      (fun as => by rw [hall]; rfl) scratch isEager as
  obtain ⟨ws, hws⟩ := Option.isSome_iff_exists.1 hend
  rw [hws, (isKept_stable.sortRuns (fun as ws h => ?_) hws).eq_mergeSort]
  rw [hall] at h
  exact Option.some.inj h ▸ IsStableSort.mergeSort as

/-! ### Partitions -/

theorem medianFrom_lt (isBelow : α → α → Bool) {last : ℕ} (n i j k : ℕ) (hn : 0 < n)
    (hi : i + n ≤ last) (hj : j + n ≤ last) (hk : k + n ≤ last) :
    medianFrom isBelow as n i j k < last := by
  have hmedian : ∀ i j k, i < last → j < last → k < last → medianOf isBelow as i j k < last := by
    intro i j k hi hj hk
    simp only [medianOf]
    split
    · split
      · exact hj
      · exact hk
    · exact hi
  induction n using Nat.strongRecOn generalizing i j k with
  | ind n ih =>
    rw [medianFrom]
    split
    · -- Each of the three is in turn a median of places in its own eighth.
      have hpart : ∀ i, i + n ≤ last →
          medianFrom isBelow as (n / 8) i (i + n / 8 * 4) (i + n / 8 * 7) < last := fun i hi =>
        ih (n / 8) (by omega) _ _ _ (by omega) (by omega) (by omega) (by omega)
      exact hmedian _ _ _ (hpart i hi) (hpart j hj) (hpart k hk)
    · exact hmedian i j k (by omega) (by omega) (by omega)

theorem pivotPlace_lt (isBelow : α → α → Bool) (h : 8 ≤ as.length) :
    pivotPlace isBelow as < as.length :=
  medianFrom_lt isBelow _ _ _ _ (by omega) (by omega) (by omega) (by omega)

/-- Where the pivot goes as it would anyway, a partition takes apart what goes and what
    stays. -/
theorem partitionAt_eq (goes : α → Bool) {place : ℕ} {pivot : α} (hplace : as[place]? = some pivot) :
    partitionAt place (goes pivot) goes as = (as.filter goes, as.filter (!goes ·)) := by
  have hfst : ∀ p : α → Bool, ((as.zipIdx.filter fun x => p x.1).map Prod.fst) = as.filter p := by
    intro p
    conv_rhs => rw [← List.zipIdx_map_fst 0 as, List.filter_map]
    rfl
  have hgoes : ∀ x ∈ as.zipIdx, (if x.2 = place then goes pivot else goes x.1) = goes x.1 := by
    intro x hx
    split
    · next heq =>
      have hget := List.mem_zipIdx_iff_getElem?.1 hx
      rw [heq, hplace] at hget
      rw [Option.some.inj hget]
    · rfl
  simp only [partitionAt, List.partition_eq_filter_filter, Function.comp_def]
  rw [List.filter_congr hgoes, List.filter_congr fun x hx => congrArg not (hgoes x hx), hfst,
    hfst fun a => !goes a]

/-- Two parts of which one has the elements below a pivot, or those up to it, are put together
    as they are. -/
theorem append_eq_mergeSort [TransCmp cmp] (pivot : α) {p : α → Bool}
    (hclass : ∀ a b, cmp a b = .eq → p a = p b) (hleft : ∀ a, p a = true → (cmp a pivot).isLE)
    (hright : ∀ b, p b = false → (cmp pivot b).isLE)
    (hus : IsStableSort cmp us (as.filter p)) :
    us ++ (as.filter (!p ·)).mergeSort (fun a b => (cmp a b).isLE) =
      as.mergeSort fun a b => (cmp a b).isLE :=
  (hus.append_of_filter hclass
    (fun a _ b _ ha hb => TransCmp.isLE_trans (hleft a ha) (hright b hb))
    (.mergeSort _)).eq_mergeSort

/-- Partitions give the stable sort. What they separate are whole classes of equal elements,
    since what equals the pivot goes where the pivot goes. -/
theorem sortParts_eq [TransCmp cmp] (limit : ℕ) (bound : Option α) (as : List α)
    (hbound : ∀ b, bound = some b → ∀ a ∈ as, (cmp b a).isLE) :
    sortParts (isLess cmp) limit bound as = some (as.mergeSort fun a b => (cmp a b).isLE) := by
  induction limit generalizing bound as with
  | zero =>
    rw [sortParts]
    split
    · exact sortShort_eq as
    · exact sortRuns_eq sortShort_eq 0 true as
  | succ limit ih =>
    rw [sortParts]
    split
    · exact sortShort_eq as
    next hlong =>
    have hplace : pivotPlace (isLess cmp) as < as.length :=
      pivotPlace_lt (isLess cmp) (by unfold shortLength at hlong; omega)
    obtain ⟨pivot, hpivot⟩ : ∃ pivot, as[pivotPlace (isLess cmp) as]? = some pivot :=
      ⟨_, List.getElem?_eq_getElem hplace⟩
    have hself : isLess cmp pivot pivot = false := by
      have hrefl : cmp pivot pivot = .eq := ReflCmp.compare_self
      rw [isLess, hrefl]
      rfl
    have hbelow := partitionAt_eq (isLess cmp · pivot) hpivot
    have hupTo := partitionAt_eq (!isLess cmp pivot ·) hpivot
    rw [hself] at hbelow hupTo
    simp only [hpivot, Option.bind_eq_bind, Option.bind_some, hbelow]
    split
    · next hleast =>
      -- No element is below the pivot, so that those up to it equal it.
      have hpivotLe : ∀ a ∈ as, (cmp pivot a).isLE := by
        intro a ha
        rcases Bool.or_eq_true_iff.1 hleast with hany | hempty
        · obtain ⟨b, rfl, hb⟩ := (Option.any_eq_true _ _).1 hany
          have hpivotLe : (cmp pivot b).isLE :=
            not_isLess_iff.1 (Bool.eq_false_iff.1 ((Bool.not_eq_true' _).mp hb))
          exact TransCmp.isLE_trans hpivotLe (hbound b rfl a ha)
        · exact not_isLess_iff.1 (List.filter_eq_nil_iff.1 (List.isEmpty_iff.1 hempty) a ha)
      have hle : ∀ a, (!isLess cmp pivot a) = true → (cmp a pivot).isLE := fun a ha =>
        not_isLess_iff.1 (Bool.eq_false_iff.1 ((Bool.not_eq_true' _).mp ha))
      rw [Bool.not_false] at hupTo
      simp only [hupTo]
      rw [ih none _ (fun b hb => by cases hb)]
      refine congrArg some (append_eq_mergeSort pivot ?_ hle ?_ (.of_sorted ?_))
      · exact fun a b h => by rw [isLess, isLess, TransCmp.congr_right h]
      · intro b hb
        rw [beq_iff_eq.1 ((Bool.not_eq_false' _).mp hb)]
        rfl
      · refine List.pairwise_of_forall_mem_list fun a ha b hb => ?_
        exact TransCmp.isLE_trans (hle a (List.mem_filter.1 ha).2)
          (hpivotLe b (List.mem_filter.1 hb).1)
    · have hpivotLe : ∀ b, isLess cmp b pivot = false → (cmp pivot b).isLE := fun b hb =>
        not_isLess_iff.1 (Bool.eq_false_iff.1 hb)
      rw [ih (some pivot), ih bound]
      · refine congrArg some (append_eq_mergeSort pivot ?_ ?_ hpivotLe (.mergeSort _))
        · exact fun a b h => by rw [isLess, isLess, TransCmp.congr_left h]
        · intro a ha
          rw [beq_iff_eq.1 ha]
          rfl
      · exact fun b hb a ha => hbound b hb a (List.mem_filter.1 ha).1
      · rintro b hb a ha
        obtain rfl := Option.some.inj hb
        exact hpivotLe a ((Bool.not_eq_true' _).mp (List.mem_filter.1 ha).2)

/-- A sort by a total preorder comes to an end, and what it gives is the stable sort. -/
theorem sort?_eq [TransCmp cmp] (as : List α) :
    sort? (isLess cmp) as = some (as.mergeSort fun a b => (cmp a b).isLE) := by
  unfold sort?
  split
  · have hinserted : IsStableSort cmp (insertAll (isLess cmp) [] as) as := .insertAll .nil as
    rw [hinserted.eq_mergeSort]
  · refine sortRuns_eq (fun as => ?_) _ _ as
    exact sortParts_eq _ none as fun b hb => by cases hb

end EntityFetch.Sorting

/-! ### Rows -/

namespace EntityFetch.Store

open Std

variable {α β : Type} {isBelow : α → α → Bool}

/-- Sorting moves elements only. -/
theorem sortBy_perm (as : List α) : (sortBy isBelow as).Perm as := by
  unfold sortBy
  cases h : Sorting.sort? isBelow as with
  | none => exact .refl _
  | some ws => exact Sorting.sort?_perm h

/-- Elements that are compared by something else are sorted as that is. -/
theorem sortBy_map {isBelow : β → β → Bool} (f : α → β) (as : List α) :
    sortBy isBelow (as.map f) = (sortBy (fun a b => isBelow (f a) (f b)) as).map f := by
  rw [sortBy, sortBy, Sorting.sort?_map, Option.getD_map]

/-- Only the comparison of the elements that are there matters. -/
theorem sort?_congr {isBelow' : α → α → Bool} {as : List α}
    (h : ∀ a ∈ as, ∀ b ∈ as, isBelow a b = isBelow' a b) :
    Sorting.sort? isBelow as = Sorting.sort? isBelow' as := by
  have heq : (fun a b : { a // a ∈ as } => isBelow a.1 b.1) = fun a b => isBelow' a.1 b.1 :=
    funext fun a => funext fun b => h a.1 a.2 b.1 b.2
  rw [← List.attach_map_subtype_val as, Sorting.sort?_map, Sorting.sort?_map, heq]

theorem sortBy_congr {isBelow' : α → α → Bool} {as : List α}
    (h : ∀ a ∈ as, ∀ b ∈ as, isBelow a b = isBelow' a b) :
    sortBy isBelow as = sortBy isBelow' as := by
  rw [sortBy, sortBy, sort?_congr h]

/-- Without a difference nothing moves. -/
theorem sortBy_false (as : List α) : sortBy (fun _ _ => false) as = as := by
  have : TransCmp fun _ _ : α => Ordering.eq := { eq_swap := rfl, isLE_trans := fun _ _ => rfl }
  have hsort : sortBy (Sorting.isLess fun _ _ => Ordering.eq) as = as := by
    rw [sortBy, Sorting.sort?_eq, Option.getD_some]
    exact List.mergeSort_of_pairwise (List.pairwise_of_forall fun _ _ => rfl)
  exact hsort

end EntityFetch.Store
