import EntityFetch.Sorting
import Mathlib.Data.List.Basic

/-!
# What a sort sees

A sort sees of its elements only how they compare: elements that are compared by something
else are sorted as that is (`Sorting.sort?_map`). Every part of the sort commutes with a
function on the elements in turn. So a statement may be sorted by rows that its rows were
made of, and elements may be told apart by marks that the comparison does not see.
-/

namespace EntityFetch.Sorting

variable {α β : Type} (isBelow : β → β → Bool) (f : α → β)

/-! ### Inserting and merging -/

theorem insertSorted_map (a : α) (as : List α) :
    insertSorted isBelow (f a) (as.map f) =
      (insertSorted (fun a b => isBelow (f a) (f b)) a as).map f := by
  induction as with
  | nil => rfl
  | cons b as ih =>
    rw [List.map_cons, insertSorted, insertSorted, ih]
    split <;> rfl

theorem insertAll_map (sorted as : List α) :
    insertAll isBelow (sorted.map f) (as.map f) =
      (insertAll (fun a b => isBelow (f a) (f b)) sorted as).map f := by
  have hfold : ∀ (as sorted : List α),
      (as.map f).foldl (fun sorted a => insertSorted isBelow a sorted) (sorted.map f) =
        (as.foldl (fun sorted a =>
          insertSorted (fun a b => isBelow (f a) (f b)) a sorted) sorted).map f := by
    intro as
    induction as with
    | nil => exact fun _ => rfl
    | cons a as ih =>
      intro sorted
      rw [List.map_cons, List.foldl_cons, insertSorted_map, ih, List.foldl_cons]
  rw [insertAll, insertAll, List.map_reverse, ← hfold, List.map_reverse]

/-- A merge with a function applied to its elements. -/
def Merging.map (m : Merging α) : Merging β :=
  { merged := m.merged.map f, left := m.left.map f, right := m.right.map f }

theorem mergeSteps_map (n : ℕ) (as bs : List α) :
    mergeSteps isBelow n (as.map f) (bs.map f) =
      (mergeSteps (fun a b => isBelow (f a) (f b)) n as bs).map f := by
  induction n generalizing as bs with
  | zero => rfl
  | succ n ih =>
    rcases as with _ | ⟨a, as⟩
    · rfl
    rcases bs with _ | ⟨b, bs⟩
    · rfl
    have hleft := ih as (b :: bs)
    have hright := ih (a :: as) bs
    rw [List.map_cons] at hleft hright
    rw [List.map_cons, List.map_cons, mergeSteps, mergeSteps, hleft, hright]
    split <;> rfl

theorem merge_map (as bs : List α) :
    merge isBelow (as.map f) (bs.map f) =
      (merge (fun a b => isBelow (f a) (f b)) as bs).map f := by
  simp only [merge, mergeSteps_map, List.length_map, Merging.map, List.map_append]

theorem mergeRuns_map (as bs : List α) :
    mergeRuns isBelow (as.map f) (bs.map f) =
      (mergeRuns (fun a b => isBelow (f a) (f b)) as bs).map f := by
  simp only [mergeRuns, mergeBack, merge_map, ← List.map_reverse, List.length_map,
    apply_ite (List.map f)]

theorem mergeBothEnds_map (as bs : List α) :
    mergeBothEnds isBelow (as.map f) (bs.map f) =
      (mergeBothEnds (fun a b => isBelow (f a) (f b)) as bs).map (List.map f) := by
  simp only [mergeBothEnds, mergeSteps_map, ← List.map_reverse, List.length_map, Merging.map]
  split <;> simp [List.map_take]

/-! ### Short pieces -/

theorem inOrder_map (a b : α) :
    inOrder isBelow (f a) (f b) =
      Prod.map f f (inOrder (fun a b => isBelow (f a) (f b)) a b) := by
  unfold inOrder
  split <;> rfl

theorem sortFour_map (a b c d : α) :
    sortFour isBelow (f a) (f b) (f c) (f d) =
      (sortFour (fun a b => isBelow (f a) (f b)) a b c d).map f := by
  simp only [sortFour, mergePairs, inOrder_map, Prod.map_fst, Prod.map_snd]
  split <;> simp_all

theorem sortHalf_map (isLong : Bool) (as : List α) :
    sortHalf isBelow isLong (as.map f) =
      (sortHalf (fun a b => isBelow (f a) (f b)) isLong as).map f := by
  have hinsert := insertAll_map isBelow f [] as
  rcases isLong with _ | _
  · exact hinsert
  rcases as with _ | ⟨a, _ | ⟨b, _ | ⟨c, _ | ⟨d, rest⟩⟩⟩⟩
  · exact hinsert
  · exact hinsert
  · exact hinsert
  · exact hinsert
  · simp only [List.map_cons, sortHalf, sortFour_map, insertAll_map]

theorem sortShort_map (as : List α) :
    sortShort isBelow (as.map f) =
      (sortShort (fun a b => isBelow (f a) (f b)) as).map (List.map f) := by
  simp only [sortShort, List.length_map, ← List.map_take, ← List.map_drop, sortHalf_map,
    mergeBothEnds_map]

/-! ### Runs -/

/-- A run with a function applied to its elements. -/
def Run.map (r : Run α) : Run β :=
  { elements := r.elements.map f, isSorted := r.isSorted }

theorem startRun_map (as : List α) :
    startRun isBelow (as.map f) = startRun (fun a b => isBelow (f a) (f b)) as := by
  have hlength : ∀ (isDescending : Bool) (a : α) (bs : List α),
      runLength isBelow isDescending (f a) (bs.map f) =
        runLength (fun a b => isBelow (f a) (f b)) isDescending a bs := by
    intro isDescending a bs
    induction bs generalizing a with
    | nil => rfl
    | cons b bs ih => rw [List.map_cons, runLength, runLength, ih]
  rcases as with _ | ⟨a, _ | ⟨b, bs⟩⟩
  · rfl
  · rfl
  · simp only [List.map_cons, startRun, hlength]

theorem firstRun_map (good : ℕ) (isEager : Bool) (as : List α) :
    firstRun isBelow good isEager (as.map f) =
      (firstRun (fun a b => isBelow (f a) (f b)) good isEager as).map
        (Prod.map (Run.map f) (List.map f)) := by
  simp only [firstRun, startRun_map, ← List.map_take, ← List.map_drop, ← List.map_reverse,
    sortShort_map]
  split
  · split <;> simp [Run.map]
  · split
    · simp only [Option.map_map]
      rfl
    · simp [Run.map]

theorem cutRuns_map (good : ℕ) (isEager : Bool) (left : ℕ) (as : List α) :
    cutRuns isBelow good isEager left (as.map f) =
      (cutRuns (fun a b => isBelow (f a) (f b)) good isEager left as).map
        (List.map (Run.map f)) := by
  induction left generalizing as with
  | zero => rfl
  | succ left ih =>
    rcases as with _ | ⟨a, as⟩
    · rfl
    · have hfirst := firstRun_map isBelow f good isEager (a :: as)
      rw [List.map_cons] at hfirst
      simp only [List.map_cons, cutRuns, hfirst, Option.bind_eq_bind, Option.bind_map,
        Option.map_bind]
      refine Option.bind_congr fun x _ => ?_
      simp [ih, Prod.map, Option.bind_map, Function.comp_def]

section Join

variable {sortAll : List β → Option (List β)} {sortAll' : List α → Option (List α)}
  (hall : ∀ as, sortAll (as.map f) = (sortAll' as).map (List.map f))

include hall

theorem Run.sorted_map (r : Run α) :
    (r.map f).sorted sortAll = (r.sorted sortAll').map (List.map f) := by
  unfold Run.sorted Run.map
  split
  · rfl
  · exact hall _

theorem joinTwo_map (scratch : ℕ) (l r : Run α) :
    joinTwo isBelow sortAll scratch (l.map f) (r.map f) =
      (joinTwo (fun a b => isBelow (f a) (f b)) sortAll' scratch l r).map (Run.map f) := by
  simp only [joinTwo, Run.sorted_map f hall]
  simp only [Run.map, List.length_map]
  split
  · simp [Option.bind_map, Option.map_bind, Function.comp_def, mergeRuns_map, Run.map]
  · simp [Run.map]

theorem collapse_map (scratch depth : ℕ) (stack : List (Run α × ℕ)) (run : Run α) :
    collapse isBelow sortAll scratch depth (stack.map (Prod.map (Run.map f) id)) (run.map f) =
      (collapse (fun a b => isBelow (f a) (f b)) sortAll' scratch depth stack run).map
        (Prod.map (List.map (Prod.map (Run.map f) id)) (Run.map f)) := by
  induction stack generalizing run with
  | nil => rfl
  | cons x stack ih =>
    simp only [List.map_cons, Prod.map, id, collapse]
    split
    · simp [joinTwo_map isBelow f hall, Option.bind_map, Option.map_bind, Function.comp_def, ih]
    · rfl

theorem joinRuns_map (scratch scale : ℕ) (runs : List (Run α)) (mid : ℕ)
    (stack : List (Run α × ℕ)) (run : Run α) :
    joinRuns isBelow sortAll scratch scale (runs.map (Run.map f)) mid
        (stack.map (Prod.map (Run.map f) id)) (run.map f) =
      (joinRuns (fun a b => isBelow (f a) (f b)) sortAll' scratch scale runs mid stack run).map
        (Run.map f) := by
  have hlength : ∀ run : Run α, (run.map f).elements.length = run.elements.length :=
    fun run => List.length_map ..
  induction runs generalizing mid stack run with
  | nil =>
    simp only [List.map_nil, joinRuns, collapse_map isBelow f hall, Option.map_map]
    rfl
  | cons next runs ih =>
    simp only [List.map_cons, joinRuns, collapse_map isBelow f hall, hlength, Option.bind_eq_bind,
      Option.bind_map, Option.map_bind]
    exact Option.bind_congr fun x _ => ih _ ((x.2, _) :: x.1) next

theorem sortRuns_map (scratch : ℕ) (isEager : Bool) (as : List α) :
    sortRuns isBelow sortAll scratch isEager (as.map f) =
      (sortRuns (fun a b => isBelow (f a) (f b)) sortAll' scratch isEager as).map
        (List.map f) := by
  simp only [sortRuns, List.length_map, cutRuns_map, Option.bind_eq_bind, Option.bind_map,
    Option.map_bind]
  refine Option.bind_congr fun runs _ => ?_
  rcases runs with _ | ⟨run, runs⟩
  · rfl
  · have hjoin := joinRuns_map isBelow f hall scratch (treeScale as.length) runs
      run.elements.length [] run
    have hlength : (run.map f).elements.length = run.elements.length := List.length_map ..
    simp only [Function.comp_apply, List.map_cons, hlength]
    rw [List.map_nil] at hjoin
    rw [hjoin, Option.bind_map, Option.map_bind]
    exact Option.bind_congr fun run _ => Run.sorted_map f hall run

end Join

/-! ### Partitions -/

theorem pivotPlace_map (as : List α) :
    pivotPlace isBelow (as.map f) = pivotPlace (fun a b => isBelow (f a) (f b)) as := by
  have hat : ∀ i j, isBelowAt isBelow (as.map f) i j =
      isBelowAt (fun a b => isBelow (f a) (f b)) as i j := by
    intro i j
    simp only [isBelowAt, List.getElem?_map]
    rcases as[i]? with _ | a <;> rcases as[j]? with _ | b <;> rfl
  have hmedian : ∀ i j k, medianOf isBelow (as.map f) i j k =
      medianOf (fun a b => isBelow (f a) (f b)) as i j k := fun i j k => by
    simp only [medianOf, hat]
  have hfrom : ∀ n i j k, medianFrom isBelow (as.map f) n i j k =
      medianFrom (fun a b => isBelow (f a) (f b)) as n i j k := by
    intro n
    induction n using Nat.strongRecOn with
    | ind n ih =>
      intro i j k
      rw [medianFrom, medianFrom]
      split
      · simp only [ih (n / 8) (by omega), hmedian]
      · exact hmedian i j k
  simp only [pivotPlace, List.length_map, hfrom]

theorem partitionAt_map (place : ℕ) (pivotGoes : Bool) (goes : β → Bool) (as : List α) :
    partitionAt place pivotGoes goes (as.map f) =
      Prod.map (List.map f) (List.map f) (partitionAt place pivotGoes (goes ∘ f) as) := by
  simp only [partitionAt, List.partition_eq_filter_filter, List.zipIdx_map, List.filter_map,
    List.map_map, Prod.map_apply]
  rfl

theorem sortParts_map (limit : ℕ) (bound : Option α) (as : List α) :
    sortParts isBelow limit (bound.map f) (as.map f) =
      (sortParts (fun a b => isBelow (f a) (f b)) limit bound as).map (List.map f) := by
  induction limit generalizing bound as with
  | zero =>
    rw [sortParts, sortParts, List.length_map, sortShort_map,
      sortRuns_map isBelow f (sortShort_map isBelow f)]
    split <;> rfl
  | succ limit ih =>
    have hnone := ih none
    rw [Option.map_none] at hnone
    rw [sortParts, sortParts, List.length_map, sortShort_map]
    split
    · rfl
    · simp only [pivotPlace_map, List.getElem?_map, Option.bind_eq_bind, Option.bind_map,
        Option.map_bind]
      refine Option.bind_congr fun pivot _ => ?_
      have hsome := ih (some pivot)
      rw [Option.map_some] at hsome
      simp only [Function.comp_apply, partitionAt_map, Option.any_map, Prod.map_fst, Prod.map_snd,
        List.isEmpty_map]
      simp only [Function.comp_def, hnone, hsome, ih]
      split
      · simp [Option.bind_map, Option.map_bind, Function.comp_def]
      · simp [Option.bind_map, Option.map_bind, Function.comp_def]

/-- Elements that are compared by something else are sorted as that is. -/
theorem sort?_map (as : List α) :
    sort? isBelow (as.map f) =
      (sort? (fun a b => isBelow (f a) (f b)) as).map (List.map f) := by
  have hall : ∀ as : List α, sortLong isBelow (as.map f) =
      (sortLong (fun a b => isBelow (f a) (f b)) as).map (List.map f) := fun as => by
    rw [sortLong, sortLong, List.length_map]
    exact sortParts_map isBelow f _ none as
  rw [sort?, sort?, List.length_map]
  split
  · exact congrArg some (insertAll_map isBelow f [] as)
  · exact sortRuns_map isBelow f hall _ _ as

end EntityFetch.Sorting
