/-!
# Lists without repetitions

A list to which elements are added only if they are new: it keeps the order in
which they first came.
-/

namespace EntityFetch

universe u

variable {α : Type u} [BEq α]

/-- A list with one more element at its end, unless it is there already. -/
def addNew (seen : List α) (a : α) : List α :=
  if seen.contains a then seen else seen ++ [a]

/-- A list with the new ones of some elements at its end, each once. -/
def addAllNew (seen : List α) (as : List α) : List α :=
  as.foldl addNew seen

variable [LawfulBEq α]

@[simp]
theorem mem_addNew {seen : List α} {a b : α} : b ∈ addNew seen a ↔ b ∈ seen ∨ b = a := by
  unfold addNew
  split
  · next h =>
    rw [List.contains_iff_mem] at h
    constructor
    · exact Or.inl
    · rintro (hb | rfl)
      · exact hb
      · exact h
  · simp

/-- Adding a new element keeps the list free of repetitions. -/
theorem nodup_addNew {seen : List α} (h : seen.Nodup) (a : α) : (addNew seen a).Nodup := by
  unfold addNew
  split
  · exact h
  · next ha =>
    rw [List.contains_iff_mem] at ha
    rw [List.nodup_append]
    exact ⟨h, by simp, by
      rintro x hx y hy rfl
      exact ha (by simpa [List.mem_singleton.1 hy] using hx)⟩

@[simp]
theorem mem_addAllNew {seen as : List α} {b : α} : b ∈ addAllNew seen as ↔ b ∈ seen ∨ b ∈ as := by
  induction as generalizing seen with
  | nil => simp [addAllNew]
  | cons a as ih =>
    rw [show addAllNew seen (a :: as) = addAllNew (addNew seen a) as from rfl, ih]
    simp [or_assoc]

/-- Adding new elements keeps the list free of repetitions. -/
theorem nodup_addAllNew {seen : List α} (h : seen.Nodup) (as : List α) :
    (addAllNew seen as).Nodup := by
  induction as generalizing seen with
  | nil => exact h
  | cons a as ih => exact ih (nodup_addNew h a)

/-- Elements that are all new are put behind the list. -/
theorem addAllNew_eq_append {seen as : List α} (h : (seen ++ as).Nodup) :
    addAllNew seen as = seen ++ as := by
  induction as generalizing seen with
  | nil => exact (List.append_nil seen).symm
  | cons a as ih =>
    have hnew : a ∉ seen := fun ha =>
      (List.nodup_append.1 h).2.2 a ha a List.mem_cons_self rfl
    have hadd : addNew seen a = seen ++ [a] := if_neg (by simpa using hnew)
    change addAllNew (addNew seen a) as = seen ++ a :: as
    rw [hadd, ih (by simpa using h), List.append_assoc, List.singleton_append]

end EntityFetch
