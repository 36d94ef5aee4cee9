import EntityFetch.Proofs.Filter
import EntityFetch.Proofs.Predicate

/-!
# Conditions that are not given

A condition that a caller may leave open is the filter that always holds where it is left open.
The constructors leave that filter aside, as no condition at all: what they put together are the
filters that are given (`Filter.given`).

A disjunction does not say the same with the others: one filter that always holds would make it
true of every row, and with no filters at all it would be true of none. The constructor says what
the given filters say, and holds of every row if none is given (`Filter.denotes_given`). A negation
of no condition is no condition either.
-/

namespace EntityFetch

namespace Truth

theorem true_or (t : Truth) : or (some true) t = some true :=
  rfl

theorem or_left_comm (a b c : Truth) : or a (or b c) = or b (or a c) := by
  rcases a with _ | _ | _ <;> rcases b with _ | _ | _ <;> rcases c with _ | _ | _ <;> rfl

theorem or_eq_true_iff {a b : Truth} : or a b = some true ↔ a = some true ∨ b = some true := by
  rcases a with _ | _ | _ <;> rcases b with _ | _ | _ <;> simp [or]

end Truth

namespace Filter

variable {row : String → Value}

/-- The filters of a list without those that always hold. -/
def given (fs : List Filter) : List Filter :=
  fs.filter (!·.isAlways)

theorem given_cons {f : Filter} (h : f.isAlways = false) (fs : List Filter) :
    given (f :: fs) = f :: given fs :=
  List.filter_cons_of_pos (by rw [h]; rfl)

theorem given_eq_self {fs : List Filter} (h : always ∉ fs) : given fs = fs := by
  refine List.filter_eq_self.2 fun f hf => ?_
  cases halways : f.isAlways with
  | false => rfl
  | true => exact absurd (eq_always_of_isAlways halways ▸ hf) h

/-- What filters put together say, if a join of one says what that one says. -/
theorem eval_combine {join : List Filter → Filter} (hone : ∀ f, (join [f]).eval row = f.eval row)
    (fs : List Filter) : (combine join fs).eval row =
      if given fs = [] then some true else (join (given fs)).eval row := by
  rw [combine]
  split
  · next hnone => rw [if_pos (show given fs = [] from hnone), eval]
  · next f hf => rw [show given fs = [f] from hf, if_neg (List.cons_ne_nil f []), hone]
  · next hne _ => rw [if_neg (show given fs ≠ [] from hne), given]

/-! ### Disjunctions and negations -/

/-- A disjunction with a filter that always holds is true, whatever the others say. -/
theorem evalAny_eq (fs : List Filter) :
    evalAny row fs = Truth.or (some (fs.any isAlways)) (evalAny row (given fs)) := by
  induction fs with
  | nil => rfl
  | cons f fs ih =>
    cases halways : f.isAlways with
    | true =>
      obtain rfl := eq_always_of_isAlways halways
      rw [List.any_cons, halways, Bool.true_or, evalAny, eval, Truth.true_or, Truth.true_or]
    | false =>
      rw [List.any_cons, halways, Bool.false_or, given_cons halways, evalAny, evalAny, ih,
        Truth.or_left_comm]

theorem evalAny_eq_true_iff {fs : List Filter} :
    evalAny row fs = some true ↔ ∃ f ∈ fs, f.eval row = some true := by
  induction fs with
  | nil => simp [evalAny]
  | cons f fs ih => simp [evalAny, Truth.or_eq_true_iff, ih]

/-- What is built from filters as their disjunction is that of the given ones, and holds of every
    row if none is given. -/
theorem eval_or (fs : List Filter) : (or fs).eval row =
    if given fs = [] then some true else (any (given fs)).eval row := by
  have hone : ∀ f, (any [f]).eval row = f.eval row := fun f => Truth.or_false (f.eval row)
  exact eval_combine hone fs

theorem eval_not (f : Filter) :
    (not f).eval row = if f.isAlways then some true else (negation f).eval row := by
  rw [not]
  split <;> rfl

/-- The constructor of disjunctions makes no difference just if there are filters and none of
    those that always hold decides. -/
theorem eval_or_eq_iff {fs : List Filter} : (or fs).eval row = (any fs).eval row ↔
    fs ≠ [] ∧ (always ∈ fs → given fs = [] ∨ (any (given fs)).eval row = some true) := by
  by_cases halways : always ∈ fs
  · have hany : fs.any isAlways = true := List.any_eq_true.2 ⟨always, halways, rfl⟩
    have hraw : (any fs).eval row = some true := by rw [eval, evalAny_eq, hany, Truth.true_or]
    rw [hraw, eval_or, and_iff_right (List.ne_nil_of_mem halways), imp_iff_right halways]
    split
    · next hnone => exact iff_of_true rfl (.inl hnone)
    · next hsome => rw [or_iff_right hsome]
  · rw [eval_or, given_eq_self halways, and_iff_left fun h => absurd h halways]
    split
    · next hnil => exact iff_of_false (by rw [hnil]; nofun) (not_not_intro hnil)
    · next hne => exact iff_of_true rfl hne

/-- The constructors of disjunctions and negations say what their connectives say of the filters
    that are given, and hold of every row if none is. They differ from the connectives exactly
    where a filter that always holds would decide, or there is no filter; and a row is kept by a
    disjunction if one of the given filters keeps it or none is given. -/
theorem denotes_given (fs : List Filter) (f : Filter) (row : String → Value) :
    ((or fs).eval row = if given fs = [] then some true else (any (given fs)).eval row) ∧
    ((not f).eval row = if f.isAlways then some true else (negation f).eval row) ∧
    ((or fs).eval row = (any fs).eval row ↔
      fs ≠ [] ∧ (always ∈ fs → given fs = [] ∨ (any (given fs)).eval row = some true)) ∧
    ((not f).eval row = (negation f).eval row ↔ f ≠ always) ∧
    ((or fs).holds row = true ↔ given fs = [] ∨ ∃ g ∈ given fs, g.holds row = true) := by
  refine ⟨eval_or fs, eval_not f, eval_or_eq_iff, ?_, ?_⟩
  · rw [eval_not]
    cases halways : f.isAlways with
    | true =>
      obtain rfl := eq_always_of_isAlways halways
      exact iff_of_false nofun fun h => h rfl
    | false => exact iff_of_true rfl (by rintro rfl; cases halways)
  · simp only [holds, beq_iff_eq, eval_or]
    split
    · next hnone => exact iff_of_true rfl (.inl hnone)
    · next hsome => rw [or_iff_right hsome, eval, evalAny_eq_true_iff]

/-- Of a row with two in a column, a disjunction of what always holds with the column being one is
    true, and so is the negation of no disjuncts. The constructors say the opposite. -/
theorem set_aside :
    let isOne : Filter := compare .eq "a" (.int 1)
    let row : String → Value := fun _ => .int 2
    (any [always, isOne]).eval row = some true ∧ (or [always, isOne]).eval row = some false ∧
      (any []).eval row = some false ∧ (or []).eval row = some true ∧
      (negation always).eval row = some false ∧ (not always).eval row = some true :=
  ⟨rfl, rfl, rfl, rfl, rfl, rfl⟩

end Filter

end EntityFetch
