import EntityFetch.Proofs.Precedence

/-!
# Filters as they are meant

The text of a filter, read as a database reads it, says of a row what the filter says
(`Filter.read_text`). Each form of filter is written as the condition of which it is the
evaluation, null and empty lists included (`Filter.condition`). Patterns are left out, as a
database compares them by rules of its own.
-/

namespace EntityFetch

namespace Filter

mutual

/-- Whether a filter looks for no patterns. -/
def isPatternFree : Filter → Bool
  | like _ _ _ => false
  | all fs => arePatternFree fs
  | any fs => arePatternFree fs
  | negation f => isPatternFree f
  | _ => true

/-- Whether some filters look for no patterns. -/
def arePatternFree : List Filter → Bool
  | [] => true
  | f :: fs => isPatternFree f && arePatternFree fs

end

/-- What a comparison is written as: equality with null asks whether the value is null. -/
def compareCondition (aliasName : String) (op : Comparison) (c : String) (v : Value) : Condition :=
  match op, v.isNull with
  | .eq, true => .isNull (.column aliasName c)
  | .ne, true => .isNotNull (.column aliasName c)
  | op, _ => .compare op (.column aliasName c) (.value v)

mutual

/-- The condition that a filter is on the table with an alias. -/
def condition (aliasName : String) : Filter → Condition
  | always => .constant true
  | compare op c v => compareCondition aliasName op c v
  | member c vs => if vs.isEmpty then .constant false else .member (.column aliasName c) vs
  | notMember c vs => if vs.isEmpty then .constant true else .notMember (.column aliasName c) vs
  | like _ _ _ => .constant true
  | isNull c => .isNull (.column aliasName c)
  | isNotNull c => .isNotNull (.column aliasName c)
  | all fs => .join .and (.constant true) (conditions aliasName fs)
  | any fs => .join .or (.constant false) (conditions aliasName fs)
  | negation f => .not (condition aliasName f)

/-- The conditions that some filters are on the table with an alias. -/
def conditions (aliasName : String) : List Filter → List Condition
  | [] => []
  | f :: fs => condition aliasName f :: conditions aliasName fs

end

theorem conditions_eq_map (aliasName : String) (fs : List Filter) :
    conditions aliasName fs = fs.map (condition aliasName) := by
  induction fs with
  | nil => rfl
  | cons f fs ih => rw [conditions, ih, List.map_cons]

open Fragment (Reads)

theorem reads_compareFragment (aliasName : String) (op : Comparison) (c : String) (v : Value) :
    Reads (compareFragment aliasName op c v) (compareCondition aliasName op c v) := by
  cases op <;> cases hv : v.isNull <;> simp only [compareFragment, compareCondition, hv] <;>
    exact .column fun _ => rfl

/-- The values of a list are read as they stand. -/
theorem values?_separated : ∀ {vs : List Value}, vs ≠ [] → ∀ rest : List Lexeme,
    Condition.values? ((Fragment.separated ", " (vs.map fun v => [.param v])).lexemes ++
      .word ")" :: rest) = some (vs, rest)
  | [], hne, _ => absurd rfl hne
  | [_], _, _ => rfl
  | v :: w :: vs, _, rest => by
    have hlexemes : (Fragment.separated ", " ((v :: w :: vs).map fun v => [.param v])).lexemes =
        .value v :: .word "," ::
          (Fragment.separated ", " ((w :: vs).map fun v => [.param v])).lexemes := rfl
    rw [hlexemes, List.cons_append, List.cons_append, Condition.values?,
      values?_separated (List.cons_ne_nil w vs) rest]
    rfl

/-- What is said of a column with a list of values after a word. -/
theorem reads_memberFragment (aliasName c : String) {word empty : String} {x y : Condition}
    (hempty : Reads [.word empty] y) {vs : List Value} (hword : ∀ ls rest,
      Condition.values? ls = some (vs, rest) → Condition.predicate? (.column aliasName c)
        ((Token.scan word).map .token ++ ls) = some (x, rest)) :
    Reads (memberFragment aliasName c word empty vs) (if vs.isEmpty then y else x) := by
  cases vs with
  | nil => exact hempty
  | cons v vs =>
    refine .column fun rest => ?_
    rw [Fragment.lexemes, Fragment.lexemes_append, List.append_assoc, List.append_assoc]
    exact hword _ rest (values?_separated (List.cons_ne_nil v vs) rest)

/-- What is connected is read, and so is the word that stands for nothing to connect. -/
theorem reads_connective {α : Type} {word empty : String} {x : Condition}
    {join : Condition → Condition → Condition} (hempty : Reads [.word empty] x)
    {h : α → Fragment} {g : α → Condition} {l : List α} (hjoin : l ≠ [] →
      Reads (.word "(" :: Fragment.separated word (l.map h) ++ [.word ")"])
        (.join join x (l.map g))) :
    Reads (connective word empty (l.map h)) (.join join x (l.map g)) := by
  cases l with
  | nil => exact hempty
  | cons a l => exact hjoin (List.cons_ne_nil a l)

mutual

/-- The text of a filter is read as the condition that it is. -/
theorem reads_fragment (aliasName : String) :
    ∀ f : Filter, f.isPatternFree → Reads (f.fragment aliasName) (f.condition aliasName)
  | always, _ => .constant_true
  | compare op c v, _ => reads_compareFragment aliasName op c v
  | member c _, _ => reads_memberFragment aliasName c .constant_false fun _ _ h =>
    congrArg (Option.map _) h
  | notMember c _, _ => reads_memberFragment aliasName c .constant_true fun _ _ h =>
    congrArg (Option.map _) h
  | isNull _, _ => .column fun _ => rfl
  | isNotNull _, _ => .column fun _ => rfl
  | all fs, h => by
    rw [fragment, condition, fragments_eq_map, conditions_eq_map]
    exact reads_connective .constant_true fun hne => .all hne (reads_fragments aliasName fs h)
  | any fs, h => by
    rw [fragment, condition, fragments_eq_map, conditions_eq_map]
    exact reads_connective .constant_false fun hne => .any hne (reads_fragments aliasName fs h)
  | negation f, h => .negation (reads_fragment aliasName f h)

theorem reads_fragments (aliasName : String) : ∀ fs : List Filter, arePatternFree fs →
    ∀ f ∈ fs, Reads (f.fragment aliasName) (f.condition aliasName)
  | [], _ => nofun
  | f :: fs, h => by
    rw [arePatternFree, Bool.and_eq_true] at h
    exact List.forall_mem_cons.2
      ⟨reads_fragment aliasName f h.1, reads_fragments aliasName fs h.2⟩

end

end Filter

/-! ### Truth -/

namespace Truth

theorem and_true (t : Truth) : t.and (some true) = t := by
  rcases t with _ | _ | _ <;> rfl

theorem or_false (t : Truth) : t.or (some false) = t := by
  rcases t with _ | _ | _ <;> rfl

/-- Membership of a value that is not null, which an empty list does not set apart. -/
theorem memberOf?_of_isNull_eq_false {v : Value} (hv : v.isNull = false) (ws : List Value) :
    Filter.memberOf? v ws =
      if ws.any (v.equal? · == some true) then some true
      else if ws.any Value.isNull then none else some false := by
  cases ws with
  | nil => rfl
  | cons w ws => rw [Filter.memberOf?, List.isEmpty_cons, hv, if_neg Bool.false_ne_true,
      if_neg Bool.false_ne_true]

/-- Membership is the disjunction of the equalities. -/
theorem anyEqual_eq_memberOf? (v : Value) (ws : List Value) :
    anyEqual v ws = Filter.memberOf? v ws := by
  induction ws with
  | nil => rfl
  | cons w ws ih =>
    have hcons : anyEqual v (w :: ws) = (Comparison.eq.truth v w).or (anyEqual v ws) := rfl
    rw [hcons, ih, Comparison.truth]
    cases hv : v.isNull with
    | true => cases ws <;> simp [Filter.memberOf?, hv, or]
    | false =>
      rw [memberOf?_of_isNull_eq_false hv, memberOf?_of_isNull_eq_false hv, List.any_cons,
        List.any_cons, Bool.false_or]
      -- A null in the list leaves it open whether the value is there, if no other item equals it.
      cases hw : w.isNull with
      | true =>
        have hequal : v.equal? w = none := by rw [Value.equal?, hw, Bool.or_true, if_pos rfl]
        rw [hequal]
        cases ws.any (v.equal? · == some true) <;> cases ws.any Value.isNull <;> rfl
      | false =>
        rcases hequal : v.equal? w with _ | b
        · simp [Value.equal?, hv, hw] at hequal
        · cases b <;> cases ws.any (v.equal? · == some true) <;> cases ws.any Value.isNull <;> rfl

end Truth

namespace Filter

variable {row : String → String → Value}

theorem compare?_of_isNull {v w : Value} (h : v.isNull || w.isNull) : v.compare? w = none := by
  cases v <;> cases w <;> first | rfl | exact absurd h Bool.false_ne_true

theorem eval_compareCondition (aliasName : String) (op : Comparison) (c : String) (v : Value) :
    (compareCondition aliasName op c v).eval row = compareValues? op (row aliasName c) v := by
  -- Without null on either side both say the same. Null on the left makes both unknown.
  have htruth : ∀ {u : Value}, v.isNull = false → op.truth u v = compareValues? op u v := by
    intro u hv
    cases hu : u.isNull with
    | false => cases op <;> simp [Comparison.truth, compareValues?, hu, hv]
    | true =>
      have hnone : u.compare? v = none := compare?_of_isNull (by rw [hu, Bool.true_or])
      cases op <;> simp [Comparison.truth, compareValues?, Value.equal?, Truth.not, hu, hv, hnone]
  cases hv : v.isNull with
  | false => cases op <;> simp only [compareCondition, hv] <;> exact htruth hv
  | true =>
    have hnone : ∀ u : Value, u.compare? v = none := fun u =>
      compare?_of_isNull (by rw [hv, Bool.or_true])
    cases op <;> simp [compareCondition, compareValues?, Condition.eval, Comparison.truth,
      Term.eval, hv, hnone]

theorem eval_join_and (xs : List Condition) :
    (Condition.join .and (.constant true) xs).eval row =
      (xs.map (Condition.eval row)).foldr Truth.and (some true) := by
  induction xs with
  | nil => rfl
  | cons x xs ih =>
    cases xs with
    | nil => exact (Truth.and_true _).symm
    | cons y xs => exact congrArg _ ih

theorem eval_join_or (xs : List Condition) :
    (Condition.join .or (.constant false) xs).eval row =
      (xs.map (Condition.eval row)).foldr Truth.or (some false) := by
  induction xs with
  | nil => rfl
  | cons x xs ih =>
    cases xs with
    | nil => exact (Truth.or_false _).symm
    | cons y xs => exact congrArg _ ih

theorem evalAll_eq_foldr (row : String → Value) (fs : List Filter) :
    evalAll row fs = (fs.map (eval row)).foldr Truth.and (some true) := by
  induction fs with
  | nil => rfl
  | cons f fs ih => rw [evalAll, ih, List.map_cons, List.foldr_cons]

theorem evalAny_eq_foldr (row : String → Value) (fs : List Filter) :
    evalAny row fs = (fs.map (eval row)).foldr Truth.or (some false) := by
  induction fs with
  | nil => rfl
  | cons f fs ih => rw [evalAny, ih, List.map_cons, List.foldr_cons]

mutual

/-- The condition that a filter is says of a row what the filter says. -/
theorem eval_condition (aliasName : String) : ∀ f : Filter, f.isPatternFree →
    (f.condition aliasName).eval row = f.eval (row aliasName)
  | always, _ => rfl
  | compare op c v, _ => eval_compareCondition aliasName op c v
  | member c [], _ => rfl
  | member c (v :: vs), _ => Truth.anyEqual_eq_memberOf? (row aliasName c) (v :: vs)
  | notMember c [], _ => rfl
  | notMember c (v :: vs), _ => congrArg Truth.not (Truth.anyEqual_eq_memberOf? _ (v :: vs))
  | isNull _, _ => rfl
  | isNotNull _, _ => rfl
  | all fs, h => by
    rw [condition, eval, eval_join_and, evalAll_eq_foldr, eval_conditions aliasName fs h]
  | any fs, h => by
    rw [condition, eval, eval_join_or, evalAny_eq_foldr, eval_conditions aliasName fs h]
  | negation f, h => congrArg Truth.not (eval_condition aliasName f h)

theorem eval_conditions (aliasName : String) : ∀ fs : List Filter, arePatternFree fs →
    (conditions aliasName fs).map (Condition.eval row) = fs.map (eval (row aliasName))
  | [], _ => rfl
  | f :: fs, h => by
    rw [arePatternFree, Bool.and_eq_true] at h
    rw [conditions, List.map_cons, List.map_cons, eval_condition aliasName f h.1,
      eval_conditions aliasName fs h.2]

end

/-- The text of a filter, read as a database reads it, says of a row what the filter says. -/
theorem read_text (d : Dialect) (aliasName : String) {f : Filter} (hf : f.isPatternFree) :
    ∃ x, Condition.read ((f.fragment aliasName).text d) (f.fragment aliasName).params = some x ∧
      ∀ row : String → String → Value, x.eval row = f.eval (row aliasName) := by
  refine ⟨f.condition aliasName, ?_, fun row => eval_condition aliasName f hf⟩
  have hstart : Condition.start? (f.fragment aliasName).lexemes =
      some (f.condition aliasName, []) := by
    have hnil : Lexeme.StartsOther ["OR", "AND", "."] [] := nofun
    have hreads := Condition.disjunction_of_reads (reads_fragment aliasName f hf) (Nat.le_refl _)
      hnil
    rwa [List.append_nil] at hreads
  rw [Condition.read, (f.isSpaced_fragment aliasName).bind_scan_text d, hstart]

end Filter

end EntityFetch
