import EntityFetch.Sorting
import Mathlib.Data.List.Basic

/-!
# What a sort depends on

Whatever the comparison is, the sort moves elements but neither adds nor removes any
(`Sorting.sort?_perm`). This is said of its parts first. That runs are joined in a
certain order does not matter here: of any notion of being sorted that short pieces, runs
and merges have, it is shown that the whole has it (`Sorting.IsKept.sortRuns`).
-/

namespace EntityFetch.Sorting

variable {α β : Type} {isBelow : α → α → Bool} {as bs ws : List α}

/-! ### Moving elements -/

theorem insertSorted_perm (a : α) (as : List α) : (insertSorted isBelow a as).Perm (a :: as) := by
  induction as with
  | nil => exact .refl _
  | cons b as ih =>
    unfold insertSorted
    split
    · exact (ih.cons b).trans (.swap a b as)
    · exact .refl _

theorem insertAll_perm (sorted as : List α) :
    (insertAll isBelow sorted as).Perm (sorted ++ as) := by
  have hfold : ∀ (as sorted : List α),
      (as.foldl (fun sorted a => insertSorted isBelow a sorted) sorted).Perm (as ++ sorted) := by
    intro as
    induction as with
    | nil => exact fun _ => .refl _
    | cons a as ih =>
      intro sorted
      refine (ih _).trans ?_
      exact ((insertSorted_perm a sorted).append_left as).trans List.perm_middle
  refine (List.reverse_perm _).trans ((hfold as sorted.reverse).trans ?_)
  exact List.perm_append_comm.trans ((List.reverse_perm sorted).append_right as)

/-- A merge takes its elements from the starts of both lists. -/
theorem mergeSteps_spec (isBelow : α → α → Bool) (n : ℕ) (as bs : List α) :
    ∃ i j, i ≤ as.length ∧ j ≤ bs.length ∧ (mergeSteps isBelow n as bs).left = as.drop i ∧
      (mergeSteps isBelow n as bs).right = bs.drop j ∧
      (mergeSteps isBelow n as bs).merged.Perm (as.take i ++ bs.take j) := by
  induction n generalizing as bs with
  | zero => exact ⟨0, 0, Nat.zero_le _, Nat.zero_le _, by simp [mergeSteps]⟩
  | succ n ih =>
    rcases as with _ | ⟨a, as⟩
    · exact ⟨0, 0, Nat.zero_le _, Nat.zero_le _, by simp [mergeSteps]⟩
    rcases bs with _ | ⟨b, bs⟩
    · exact ⟨0, 0, Nat.zero_le _, Nat.zero_le _, by simp [mergeSteps]⟩
    rw [mergeSteps]
    split
    · obtain ⟨i, j, hi, hj, hleft, hright, hperm⟩ := ih (a :: as) bs
      refine ⟨i, j + 1, hi, Nat.succ_le_succ hj, hleft, hright, ?_⟩
      rw [List.take_succ_cons]
      exact (hperm.cons b).trans List.perm_middle.symm
    · obtain ⟨i, j, hi, hj, hleft, hright, hperm⟩ := ih as (b :: bs)
      exact ⟨i + 1, j, Nat.succ_le_succ hi, hj, hleft, hright, hperm.cons a⟩

theorem mergeSteps_perm (n : ℕ) (as bs : List α) :
    ((mergeSteps isBelow n as bs).merged ++ (mergeSteps isBelow n as bs).left ++
      (mergeSteps isBelow n as bs).right).Perm (as ++ bs) := by
  obtain ⟨i, j, -, -, hleft, hright, hperm⟩ := mergeSteps_spec isBelow n as bs
  rw [hleft, hright]
  refine ((hperm.append_right _).append_right _).trans ?_
  conv_rhs => rw [← List.take_append_drop i as, ← List.take_append_drop j bs]
  simp only [List.append_assoc]
  exact (List.perm_append_comm_assoc _ _ _).append_left _

theorem merge_perm (as bs : List α) : (merge isBelow as bs).Perm (as ++ bs) :=
  mergeSteps_perm _ as bs

theorem mergeBack_perm (as bs : List α) : (mergeBack isBelow as bs).Perm (as ++ bs) := by
  refine (List.reverse_perm _).trans ((merge_perm _ _).trans ?_)
  rw [← List.reverse_append]
  exact List.reverse_perm _

theorem mergeRuns_perm (as bs : List α) : (mergeRuns isBelow as bs).Perm (as ++ bs) := by
  unfold mergeRuns
  split
  · exact merge_perm as bs
  · exact mergeBack_perm as bs

/-- A list of which a part at each end is known. -/
theorem take_append_middle {as : List α} {i k : ℕ} (h : i + k ≤ as.length) :
    as.take i ++ (as.drop i).take (as.length - (i + k)) ++ (as.reverse.take k).reverse = as := by
  have hlast : (as.reverse.take k).reverse = (as.drop i).drop (as.length - (i + k)) := by
    rw [List.take_reverse, List.reverse_reverse, List.drop_drop]
    congr 1
    omega
  rw [hlast, List.append_assoc, List.take_append_drop, List.take_append_drop]

/-- Two lists in three parts each, taken part by part. -/
theorem append_ends_perm (as ls ks bs rs ks' : List α) :
    (as ++ bs ++ ls ++ rs ++ (ks' ++ ks)).Perm (as ++ ls ++ ks ++ (bs ++ rs ++ ks')) := by
  simp only [List.append_assoc]
  refine .append_left as ((List.perm_append_comm_assoc bs ls _).trans (.append_left ls ?_))
  rw [← List.append_assoc, ← List.append_assoc, ← List.append_assoc bs rs ks']
  exact List.perm_append_comm

theorem mergeBothEnds_perm (h : mergeBothEnds isBelow as bs = some ws) : ws.Perm (as ++ bs) := by
  unfold mergeBothEnds at h
  obtain ⟨i, j, hi, hj, hleft, hright, hperm⟩ :=
    mergeSteps_spec isBelow as.length as bs
  obtain ⟨j', i', hj', hi', hleft', hright', hperm'⟩ :=
    mergeSteps_spec (fun a b => isBelow b a) as.length bs.reverse as.reverse
  rw [List.length_reverse] at hi' hj'
  simp only [hleft, hright, hleft', hright', List.length_drop, List.length_reverse] at h
  split at h
  · next hends =>
    obtain rfl := Option.some.inj h
    -- What is left of a list lies between what was taken from its start and from its end.
    have has := take_append_middle (show i + i' ≤ as.length by omega)
    have hbs := take_append_middle (show j + j' ≤ bs.length by omega)
    have hmiddle : as.length - i + (as.length - i') - as.length = as.length - (i + i') := by omega
    have hmiddle' : bs.length - j + (bs.length - j') - bs.length = bs.length - (j + j') := by omega
    rw [hmiddle, hmiddle']
    have hback := ((List.reverse_perm _).trans hperm').trans
      ((List.reverse_perm _).symm.append (List.reverse_perm _).symm)
    have hall := append_ends_perm (as.take i) ((as.drop i).take (as.length - (i + i')))
      (as.reverse.take i').reverse (bs.take j) ((bs.drop j).take (bs.length - (j + j')))
      (bs.reverse.take j').reverse
    rw [has, hbs] at hall
    exact (((hperm.append_right _).append_right _).append hback).trans hall
  · cases h

theorem inOrder_perm (a b : α) :
    [(inOrder isBelow a b).1, (inOrder isBelow a b).2].Perm [a, b] := by
  unfold inOrder
  split
  · exact .swap a b []
  · exact .refl _

theorem mergePairs_perm (p q : α × α) : (mergePairs isBelow p q).Perm [p.1, p.2, q.1, q.2] := by
  classical
  have hcount : ∀ a b x : α, [(inOrder isBelow a b).1, (inOrder isBelow a b).2].count x =
      [a, b].count x := fun a b => List.perm_iff_count.1 (inOrder_perm a b)
  simp only [List.count_cons, List.count_nil] at hcount
  rw [List.perm_iff_count]
  intro x
  unfold mergePairs
  split <;> simp only [List.count_cons, List.count_nil]
  · have := hcount p.2 q.1 x
    omega
  · have := hcount q.1 q.2 x
    omega
  · have := hcount p.1 p.2 x
    omega
  · have := hcount p.1 q.2 x
    omega

theorem sortFour_perm (a b c d : α) : (sortFour isBelow a b c d).Perm [a, b, c, d] :=
  (mergePairs_perm _ _).trans ((inOrder_perm a b).append (inOrder_perm c d))

theorem sortHalf_perm (isLong : Bool) (as : List α) : (sortHalf isBelow isLong as).Perm as := by
  unfold sortHalf
  split
  · next a b c d rest => exact (insertAll_perm _ _).trans ((sortFour_perm a b c d).append_right rest)
  · exact insertAll_perm [] _

theorem sortShort_perm (h : sortShort isBelow as = some ws) : ws.Perm as := by
  refine (mergeBothEnds_perm h).trans (((sortHalf_perm _ _).append (sortHalf_perm _ _)).trans ?_)
  rw [List.take_append_drop]

/-! ### Runs -/

variable {sortAll : List α → Option (List α)} {good scratch : ℕ} {isEager : Bool}
  {S : List α → List α → Prop} {run run' l r : Run α} {rest u v : List α}

theorem startRun_pos (h : as ≠ []) : 0 < (startRun isBelow as).1 := by
  unfold startRun
  split
  · exact Nat.succ_pos _
  · exact List.length_pos_iff.2 h

/-- A notion of being a sorted list of some elements that the parts of a sort have. -/
structure IsKept (isBelow : α → α → Bool) (S : List α → List α → Prop) : Prop where
  nil : S [] []
  short : ∀ as ws, sortShort isBelow as = some ws → S ws as
  start : ∀ as, S (if (startRun isBelow as).2 then (as.take (startRun isBelow as).1).reverse
    else as.take (startRun isBelow as).1) (as.take (startRun isBelow as).1)
  merge : ∀ l r u v, S l u → S r v → S (mergeRuns isBelow l r) (u ++ v)

/-- Whether a run has the elements of a part of the list, sorted if it says so. -/
def Run.Has (S : List α → List α → Prop) (run : Run α) (u : List α) : Prop :=
  if run.isSorted then S run.elements u else run.elements = u

theorem Run.Has.sorted (h : run.Has S u) (hall : ∀ as ws, sortAll as = some ws → S ws as)
    (hws : run.sorted sortAll = some ws) : S ws u := by
  unfold Run.Has at h
  unfold Run.sorted at hws
  split at hws
  · next hsorted =>
    rw [if_pos hsorted] at h
    exact Option.some.inj hws ▸ h
  · next hsorted =>
    rw [if_neg hsorted] at h
    exact h ▸ hall _ _ hws

namespace IsKept

theorem firstRun (hkept : IsKept isBelow S)
    (h : Sorting.firstRun isBelow good isEager as = some (run, rest)) :
    ∃ n, (as ≠ [] → 0 < n) ∧ run.Has S (as.take n) ∧ rest = as.drop n := by
  unfold Sorting.firstRun at h
  simp only at h
  split at h
  · obtain ⟨rfl, rfl⟩ := Prod.mk.inj (Option.some.inj h)
    exact ⟨_, startRun_pos, hkept.start as, rfl⟩
  · next hshort =>
    split at h
    · obtain ⟨ws, hws, h⟩ := Option.map_eq_some_iff.1 h
      obtain ⟨rfl, rfl⟩ := Prod.mk.inj h
      exact ⟨_, fun _ => Nat.succ_pos _, hkept.short _ _ hws, rfl⟩
    · obtain ⟨rfl, rfl⟩ := Prod.mk.inj (Option.some.inj h)
      exact ⟨_, fun hne => Nat.lt_trans (startRun_pos hne) (Nat.lt_of_not_le hshort), rfl, rfl⟩

/-- A list that is cut into as many runs as it may need is cut up wholly. -/
theorem cutRuns (hkept : IsKept isBelow S) {left : ℕ} {runs : List (Run α)}
    (hleft : as.length ≤ left)
    (h : Sorting.cutRuns isBelow good isEager left as = some runs) :
    ∃ us, List.Forall₂ (Run.Has S) runs us ∧ us.flatten = as := by
  induction left generalizing as runs with
  | zero =>
    obtain rfl := List.length_eq_zero_iff.1 (Nat.le_zero.1 hleft)
    obtain rfl := Option.some.inj h
    exact ⟨[], .nil, rfl⟩
  | succ left ih =>
    rcases as with _ | ⟨a, as⟩
    · obtain rfl := Option.some.inj h
      exact ⟨[], .nil, rfl⟩
    · obtain ⟨⟨run, rest⟩, hfirst, h⟩ := Option.bind_eq_some_iff.1 h
      obtain ⟨runs', hruns', h⟩ := Option.bind_eq_some_iff.1 h
      obtain rfl := Option.some.inj h
      obtain ⟨n, hpos, hrun, rfl⟩ := hkept.firstRun hfirst
      have hpos := hpos (List.cons_ne_nil a as)
      obtain ⟨us, hus, hflat⟩ := ih (by rw [List.length_drop]; omega) hruns'
      exact ⟨_ :: us, .cons hrun hus, by rw [List.flatten_cons, hflat, List.take_append_drop]⟩

/-- Two runs that are joined have the elements of both. -/
theorem joinTwo (hkept : IsKept isBelow S) (hall : ∀ as ws, sortAll as = some ws → S ws as)
    (hl : l.Has S u) (hr : r.Has S v)
    (h : Sorting.joinTwo isBelow sortAll scratch l r = some run) : run.Has S (u ++ v) := by
  unfold Sorting.joinTwo at h
  split at h
  · obtain ⟨left, hleft, h⟩ := Option.bind_eq_some_iff.1 h
    obtain ⟨right, hright, h⟩ := Option.bind_eq_some_iff.1 h
    obtain rfl := Option.some.inj h
    exact hkept.merge _ _ _ _ (hl.sorted hall hleft) (hr.sorted hall hright)
  · next hunsorted =>
    obtain rfl := Option.some.inj h
    simp only [Bool.or_eq_true, not_or, Bool.not_eq_true] at hunsorted
    unfold Run.Has at hl hr ⊢
    rw [hunsorted.1.1] at hl
    rw [hunsorted.1.2] at hr
    exact congrArg₂ (· ++ ·) hl hr

variable {depth scale : ℕ} {stack stack' : List (Run α × ℕ)} {runs : List (Run α)}
  {us vs us' : List (List α)}

/-- Collapsing a stack changes which parts of the list its runs have, but nothing else. -/
theorem collapse (hkept : IsKept isBelow S) (hall : ∀ as ws, sortAll as = some ws → S ws as)
    (hstack : List.Forall₂ (fun x u => x.1.Has S u) stack us) (hrun : run.Has S u)
    (h : Sorting.collapse isBelow sortAll scratch depth stack run = some (stack', run')) :
    ∃ us' u', List.Forall₂ (fun x u => x.1.Has S u) stack' us' ∧ run'.Has S u' ∧
      us'.reverse.flatten ++ u' = us.reverse.flatten ++ u := by
  induction hstack generalizing run u with
  | nil =>
    obtain ⟨rfl, rfl⟩ := Prod.mk.inj (Option.some.inj h)
    exact ⟨[], u, .nil, hrun, rfl⟩
  | @cons x w stack us hx hstack ih =>
    rw [Sorting.collapse] at h
    split at h
    · obtain ⟨joined, hjoined, h⟩ := Option.bind_eq_some_iff.1 h
      obtain ⟨us', u', hstack', hrun', heq⟩ := ih (hkept.joinTwo hall hx hrun hjoined) h
      refine ⟨us', u', hstack', hrun', heq.trans ?_⟩
      simp
    · obtain ⟨rfl, rfl⟩ := Prod.mk.inj (Option.some.inj h)
      exact ⟨w :: us, u, .cons hx hstack, hrun, rfl⟩

/-- At depth zero all runs are joined. -/
theorem eq_nil_of_collapse
    (h : Sorting.collapse isBelow sortAll scratch 0 stack run = some (stack', run')) :
    stack' = [] := by
  induction stack generalizing run with
  | nil => exact (Prod.mk.inj (Option.some.inj h)).1.symm
  | cons x stack ih =>
    rw [Sorting.collapse, if_pos (Nat.zero_le _)] at h
    obtain ⟨joined, -, h⟩ := Option.bind_eq_some_iff.1 h
    exact ih h

/-- The last run has all elements: those of the stack, its own and those of the runs to come. -/
theorem joinRuns (hkept : IsKept isBelow S) (hall : ∀ as ws, sortAll as = some ws → S ws as)
    (hruns : List.Forall₂ (Run.Has S) runs vs) {mid : ℕ}
    (hstack : List.Forall₂ (fun x u => x.1.Has S u) stack us) (hrun : run.Has S u)
    (h : Sorting.joinRuns isBelow sortAll scratch scale runs mid stack run = some run') :
    run'.Has S (us.reverse.flatten ++ u ++ vs.flatten) := by
  induction hruns generalizing mid stack us run u with
  | nil =>
    obtain ⟨⟨stack', run''⟩, hcollapse, rfl⟩ := Option.map_eq_some_iff.1 h
    obtain ⟨us', u', hstack', hrun', heq⟩ := hkept.collapse hall hstack hrun hcollapse
    obtain rfl := eq_nil_of_collapse hcollapse
    cases hstack'
    simpa [← heq] using hrun'
  | @cons next v runs vs hnext hruns ih =>
    rw [Sorting.joinRuns] at h
    obtain ⟨⟨stack', run''⟩, hcollapse, h⟩ := Option.bind_eq_some_iff.1 h
    obtain ⟨us', u', hstack', hrun', heq⟩ := hkept.collapse hall hstack hrun hcollapse
    have hlast := ih (.cons hrun' hstack') hnext h
    simpa [← heq] using hlast

/-- What joins all runs of a list sorts the list. -/
theorem sortRuns (hkept : IsKept isBelow S) (hall : ∀ as ws, sortAll as = some ws → S ws as)
    (h : Sorting.sortRuns isBelow sortAll scratch isEager as = some ws) : S ws as := by
  obtain ⟨runs, hcut, h⟩ := Option.bind_eq_some_iff.1 h
  obtain ⟨us, hus, rfl⟩ := hkept.cutRuns (Nat.le_refl _) hcut
  cases hus with
  | nil => exact Option.some.inj h ▸ hkept.nil
  | @cons run u runs us hrun hus =>
    obtain ⟨last, hlast, h⟩ := Option.bind_eq_some_iff.1 h
    exact (hkept.joinRuns hall hus .nil hrun hlast).sorted hall h

end IsKept

/-! ### The whole sort -/

theorem isKept_perm : IsKept isBelow (List.Perm (α := α)) where
  nil := .refl _
  short _ _ := sortShort_perm
  start as := by
    split
    · exact List.reverse_perm _
    · exact .refl _
  merge _ _ _ _ hl hr := (mergeRuns_perm _ _).trans (hl.append hr)

/-- A partition moves elements only. -/
theorem partitionAt_perm (place : ℕ) (pivotGoes : Bool) (goes : α → Bool) (as : List α) :
    ((partitionAt place pivotGoes goes as).1 ++ (partitionAt place pivotGoes goes as).2).Perm
      as := by
  unfold partitionAt
  simp only [List.partition_eq_filter_filter]
  rw [← List.map_append]
  conv_rhs => rw [← List.zipIdx_map_fst 0 as]
  exact (List.filter_append_perm _ _).map _

theorem sortParts_perm {limit : ℕ} {bound : Option α}
    (h : sortParts isBelow limit bound as = some ws) : ws.Perm as := by
  induction limit generalizing bound as ws with
  | zero =>
    rw [sortParts] at h
    split at h
    · exact sortShort_perm h
    · exact isKept_perm.sortRuns (fun _ _ => sortShort_perm) h
  | succ limit ih =>
    rw [sortParts] at h
    split at h
    · exact sortShort_perm h
    · obtain ⟨pivot, -, h⟩ := Option.bind_eq_some_iff.1 h
      simp only at h
      split at h
      · obtain ⟨right, hright, h⟩ := Option.bind_eq_some_iff.1 h
        obtain rfl := Option.some.inj h
        exact ((ih hright).append_left _).trans (partitionAt_perm _ _ _ as)
      · obtain ⟨right, hright, h⟩ := Option.bind_eq_some_iff.1 h
        obtain ⟨left, hleft, h⟩ := Option.bind_eq_some_iff.1 h
        obtain rfl := Option.some.inj h
        exact ((ih hleft).append (ih hright)).trans (partitionAt_perm _ _ _ as)

/-- A sort that comes to an end has moved elements only. -/
theorem sort?_perm (h : sort? isBelow as = some ws) : ws.Perm as := by
  unfold sort? at h
  split at h
  · exact Option.some.inj h ▸ insertAll_perm [] as
  · exact isKept_perm.sortRuns (fun _ _ => sortParts_perm) h

end EntityFetch.Sorting
