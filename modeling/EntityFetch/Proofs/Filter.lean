import EntityFetch.Filter.Eval

/-!
# What a filter depends on

A filter says the same of any two rows that have the same values in its columns
(`Filter.holds_congr`). So it does not matter whether it is asked of a row of a
table, of the columns that a statement reads, or of the fields of a record.
-/

namespace EntityFetch.Filter

/-- Only one filter counts as the one that always holds. -/
theorem eq_always_of_isAlways {f : Filter} (h : f.isAlways) : f = always := by
  cases f with
  | always => rfl
  | _ => exact absurd h Bool.false_ne_true

mutual

/-- Collecting columns adds those of the filter. -/
theorem mem_collect {c : String} :
    ∀ (f : Filter) {seen : List String}, c ∈ collect seen f ↔ c ∈ seen ∨ c ∈ collect [] f
  | always, _ => by simp [collect]
  | compare .., _ => by simp [collect]
  | member .., _ => by simp [collect]
  | notMember .., _ => by simp [collect]
  | like .., _ => by simp [collect]
  | isNull _, _ => by simp [collect]
  | isNotNull _, _ => by simp [collect]
  | all fs, _ => mem_collectAll fs
  | any fs, _ => mem_collectAll fs
  | negation f, _ => mem_collect f

/-- Collecting columns adds those of the filters. -/
theorem mem_collectAll {c : String} :
    ∀ (fs : List Filter) {seen : List String},
      c ∈ collectAll seen fs ↔ c ∈ seen ∨ c ∈ collectAll [] fs
  | [], _ => by simp [collectAll]
  | f :: fs, _ => by
    rw [collectAll, mem_collectAll fs, mem_collect f, or_assoc, ← mem_collectAll fs, collectAll]

end

variable {row row' : String → Value}

mutual

/-- The truth of a filter depends on its columns alone. -/
theorem eval_congr : ∀ f : Filter, (∀ c ∈ f.columns, row c = row' c) → f.eval row = f.eval row'
  | always, _ => rfl
  | compare _ c _, h => by simp only [eval, h c (by simp [columns, collect])]
  | member c _, h => by simp only [eval, h c (by simp [columns, collect])]
  | notMember c _, h => by simp only [eval, h c (by simp [columns, collect])]
  | like _ c _, h => by simp only [eval, h c (by simp [columns, collect])]
  | isNull c, h => by simp only [eval, h c (by simp [columns, collect])]
  | isNotNull c, h => by simp only [eval, h c (by simp [columns, collect])]
  | all fs, h => by simp only [eval, evalAll_congr fs h]
  | any fs, h => by simp only [eval, evalAny_congr fs h]
  | negation f, h => by simp only [eval, eval_congr f h]

/-- The truth of a conjunction depends on the columns of its filters alone. -/
theorem evalAll_congr :
    ∀ fs : List Filter, (∀ c ∈ collectAll [] fs, row c = row' c) → evalAll row fs = evalAll row' fs
  | [], _ => rfl
  | f :: fs, h => by
    have hmem := fun c hc => h c ((mem_collectAll fs).2 hc)
    simp only [evalAll, eval_congr f fun c hc => hmem c (Or.inl hc),
      evalAll_congr fs fun c hc => hmem c (Or.inr hc)]

/-- The truth of a disjunction depends on the columns of its filters alone. -/
theorem evalAny_congr :
    ∀ fs : List Filter, (∀ c ∈ collectAll [] fs, row c = row' c) → evalAny row fs = evalAny row' fs
  | [], _ => rfl
  | f :: fs, h => by
    have hmem := fun c hc => h c ((mem_collectAll fs).2 hc)
    simp only [evalAny, eval_congr f fun c hc => hmem c (Or.inl hc),
      evalAny_congr fs fun c hc => hmem c (Or.inr hc)]

end

/-- Whether a filter is true depends on its columns alone. -/
theorem holds_congr {f : Filter} (h : ∀ c ∈ f.columns, row c = row' c) :
    f.holds row = f.holds row' := by
  rw [holds, holds, eval_congr f h]

end EntityFetch.Filter
