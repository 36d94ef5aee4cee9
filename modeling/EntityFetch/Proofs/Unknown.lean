import EntityFetch.Proofs.Like
import EntityFetch.Proofs.Predicate

/-!
# Patterns that are null

In SQL it is unknown whether anything is like null, and so is the negation of that. A filter is
false of a pattern that is null, so that its negation is true. Here the text of a filter is read
as a database reads it, with all its `LIKE`, and its truth in a row compared with the filter's.

* `Condition.truth?`: the truth of a text in a row. Every `LIKE` is settled first
  (`Lexeme.settle`), so that the text is read like any other.
* `Filter.truth?_text`: the text of a filter is read, whatever patterns are in it.
* `Filter.carries_evalWith`: a filter as a function of what is said of its patterns. More that
  is certain below makes more certain above, negations turning true into false.
* `Filter.truth_text`: the filter is true or false wherever its text is, and a row is kept just
  if the text is true, but for null inside an odd number of negations.
-/

namespace EntityFetch

/-! ### What SQL says of a pattern -/

/-- Whether a value is like a pattern, as SQL has it: unknown if one of them is null. -/
def Value.like? (v pattern : Value) : Truth :=
  match v, pattern with
  | .str s, .str p => some (Wildcard.isLike s p)
  | v, pattern => if v.isNull || pattern.isNull then none else some false

/-- A truth value as a value of SQL, unknown being null. -/
def Truth.value : Truth → Value
  | some b => .bool b
  | none => .null

namespace Lexeme

variable {row : String → String → Value}

/-- Lexemes in which the truth that every `LIKE` has in a row stands for it: a condition is as
    true as that it equals what is true. -/
def settle (row : String → String → Value) : List Lexeme → List Lexeme
  | [] => []
  | .token t :: .token (.plain ".") :: .token u :: .token (.plain "LIKE") :: .value v :: ls =>
    match t.identifier?, u.identifier? with
    | some a, some c =>
      .value ((row a c).like? v).value :: .token (.plain "=") :: .value (.bool true) ::
        settle row ls
    | _, _ =>
      .token t :: settle row (.token (.plain ".") :: .token u :: .token (.plain "LIKE") ::
        .value v :: ls)
  | l :: ls => l :: settle row ls

end Lexeme

/-- The truth of a text in a row, the text being read as a condition. -/
def Condition.truth? (row : String → String → Value) (text : String) (params : List Value) :
    Option Truth :=
  match start? (Lexeme.settle row (Lexeme.bind params 0 (Token.scan text))) with
  | some (x, []) => some (x.eval row)
  | _ => none

namespace Lexeme

variable {row : String → String → Value} {l : Lexeme} {ls rest : List Lexeme}

/-- What no dot comes after is no column and stays. -/
theorem settle_cons (h : ls.head? ≠ some (.word ".")) :
    settle row (l :: ls) = l :: settle row ls := by
  rw [settle]
  rintro t u v rest' rfl rfl
  exact h rfl

theorem settle_append (hls : ∀ l ∈ ls, l ≠ .word ".") (hrest : rest.head? ≠ some (.word ".")) :
    settle row (ls ++ rest) = ls ++ settle row rest := by
  induction ls with
  | nil => rfl
  | cons l ls ih =>
    rw [List.forall_mem_cons] at hls
    have hhead : (ls ++ rest).head? ≠ some (.word ".") := by
      cases ls with
      | nil => exact hrest
      | cons l' ls =>
        rintro ⟨⟩
        exact hls.2 _ List.mem_cons_self rfl
    rw [List.cons_append, settle_cons hhead, ih hls.2, List.cons_append]

/-- A column of which something else is said stays. -/
theorem settle_column (aliasName c : String) (h : StartsOther [".", "LIKE"] ls) :
    settle row ((Fragment.column aliasName c).lexemes ++ ls) =
      (Fragment.column aliasName c).lexemes ++ settle row ls := by
  have hname : (Lexeme.token (Identifier.token c) :: ls).head? ≠ some (.word ".") :=
    fun h => token_ne_word c rfl (Option.some.inj h)
  rw [Fragment.lexemes_column_append, Fragment.lexemes_column_append, settle, settle_cons hname,
    settle_cons (h "." List.mem_cons_self)]
  intro t u v rest' _ heq
  have hls := (List.cons.inj (List.cons.inj heq).2).2
  exact h "LIKE" (List.mem_cons_of_mem _ (List.mem_singleton_self _)) (hls ▸ rfl)

theorem settle_like (aliasName c : String) (v : Value) :
    settle row ((Fragment.column aliasName c).lexemes ++ .word "LIKE" :: .value v :: ls) =
      .value ((row aliasName c).like? v).value :: .word "=" :: .value (.bool true) ::
        settle row ls := by
  rw [Fragment.lexemes_column_append, settle, Token.identifier?_token, Token.identifier?_token]

end Lexeme

/-! ### Filters of which the patterns are settled -/

/-- A fragment of which another one is left when every `LIKE` in it is settled. -/
structure Fragment.Settles (row : String → String → Value) (f g : Fragment) : Prop where
  head_ne : ∀ {rest : List Lexeme}, rest.head? ≠ some (.word ".") →
    (f.lexemes ++ rest).head? ≠ some (.word ".")
  settle_append : ∀ {rest : List Lexeme}, rest.head? ≠ some (.word ".") →
    Lexeme.settle row (f.lexemes ++ rest) = g.lexemes ++ Lexeme.settle row rest

/-- Whether a piece has no dot that may be that of a column. -/
def Piece.isUndotted : Piece → Bool
  | word s => (Token.scan s).all (· != .plain ".")
  | _ => true

namespace Fragment

variable {row : String → String → Value} {f g f' g' : Fragment}

theorem ne_dot_of_isUndotted (h : f.all Piece.isUndotted) : ∀ l ∈ f.lexemes, l ≠ .word "." := by
  induction f with
  | nil => nofun
  | cons p ps ih =>
    rw [List.all_cons, Bool.and_eq_true] at h
    have hps := ih h.2
    cases p with
    | word s =>
      refine List.forall_mem_append.2 ⟨List.forall_mem_map.2 fun t ht heq => ?_, hps⟩
      have hword := List.all_eq_true.1 h.1 t ht
      exact bne_iff_ne.1 hword (Lexeme.token.inj heq)
    | name s => exact List.forall_mem_cons.2 ⟨Lexeme.token_ne_word s rfl, hps⟩
    | label s => exact List.forall_mem_cons.2 ⟨nofun, hps⟩
    | param v => exact List.forall_mem_cons.2 ⟨nofun, hps⟩

namespace Settles

theorem of_isUndotted (h : f.all Piece.isUndotted) : Settles row f f where
  head_ne hrest := by
    have hf := ne_dot_of_isUndotted h
    cases hlexemes : f.lexemes with
    | nil => exact hrest
    | cons l ls =>
      rintro ⟨⟩
      exact hf _ (hlexemes ▸ List.mem_cons_self) rfl
  settle_append hrest := Lexeme.settle_append (ne_dot_of_isUndotted h) hrest

theorem append (h : Settles row f g) (h' : Settles row f' g') :
    Settles row (f ++ f') (g ++ g') where
  head_ne hrest := by
    rw [lexemes_append, List.append_assoc]
    exact h.head_ne (h'.head_ne hrest)
  settle_append hrest := by
    rw [lexemes_append, lexemes_append, List.append_assoc, List.append_assoc,
      h.settle_append (h'.head_ne hrest), h'.settle_append hrest]

theorem cons {w : String} (hw : (Piece.word w).isUndotted) (h : Settles row f g) :
    Settles row (.word w :: f) (.word w :: g) :=
  append (f := [.word w]) (g := [.word w]) (of_isUndotted (by rw [List.all_cons, hw]; rfl)) h

theorem separated {α : Type} {a b : α → Fragment} {w : String} (hw : (Piece.word w).isUndotted) :
    ∀ {l : List α}, (∀ x ∈ l, Settles row (a x) (b x)) →
      Settles row (Fragment.separated w (l.map a)) (Fragment.separated w (l.map b))
  | [], _ => of_isUndotted rfl
  | [x], h => h x (List.mem_singleton_self x)
  | x :: y :: l, h => by
    rw [List.forall_mem_cons] at h
    exact h.1.append ((separated hw h.2).cons hw)

/-- What is said of a column but that it is like a pattern. -/
theorem column {aliasName c : String} (hf : f.all Piece.isUndotted)
    (hstart : ∀ rest, Lexeme.StartsOther [".", "LIKE"] (f.lexemes ++ rest)) :
    Settles row (Fragment.column aliasName c ++ f) (Fragment.column aliasName c ++ f) where
  head_ne _ := fun h => Lexeme.token_ne_word aliasName rfl (Option.some.inj h)
  settle_append hrest := by
    rw [lexemes_append, List.append_assoc, Lexeme.settle_column _ _ (hstart _),
      (of_isUndotted hf).settle_append hrest, List.append_assoc]

/-- A column is like a pattern. -/
theorem like (aliasName c : String) (v : Value) :
    Settles row (Fragment.column aliasName c ++ [.word " LIKE ", .param v])
      [.param ((row aliasName c).like? v).value, .word " = ", .param (.bool true)] where
  head_ne _ := fun h => Lexeme.token_ne_word aliasName rfl (Option.some.inj h)
  settle_append _ := by
    rw [lexemes_append, List.append_assoc]
    exact Lexeme.settle_like aliasName c v

end Settles

end Fragment

namespace Filter

open Fragment (Reads Settles)

variable {row : String → String → Value}

mutual

/-- A filter in SQL of which every `LIKE` is settled in a row. -/
def settled (row : String → String → Value) (aliasName : String) : Filter → Fragment
  | like p c v =>
    [.param ((row aliasName c).like? (p.pattern v)).value, .word " = ", .param (.bool true)]
  | all fs => connective " AND " "TRUE" (settledAll row aliasName fs)
  | any fs => connective " OR " "FALSE" (settledAll row aliasName fs)
  | negation f => .word "NOT (" :: settled row aliasName f ++ [.word ")"]
  | f => f.fragment aliasName

/-- Every one of some filters with its `LIKE` settled. -/
def settledAll (row : String → String → Value) (aliasName : String) : List Filter → List Fragment
  | [] => []
  | f :: fs => settled row aliasName f :: settledAll row aliasName fs

end

theorem settledAll_eq_map (aliasName : String) (fs : List Filter) :
    settledAll row aliasName fs = fs.map (settled row aliasName) := by
  induction fs with
  | nil => rfl
  | cons f fs ih => rw [settledAll, ih, List.map_cons]

theorem settles_compareFragment (aliasName : String) (op : Comparison) (c : String) (v : Value) :
    Settles row (compareFragment aliasName op c v) (compareFragment aliasName op c v) := by
  have hstart : ∀ {w : String} {ls : List Lexeme}, w ∉ [".", "LIKE"] →
      Lexeme.StartsOther [".", "LIKE"] (.word w :: ls) := fun hw => Lexeme.startsOther_word hw _
  cases op <;> cases hv : v.isNull <;> simp only [compareFragment, hv] <;>
    exact .column rfl fun _ => hstart (by decide)

theorem isUndotted_separated (vs : List Value) :
    (Fragment.separated ", " (vs.map fun v => [.param v])).all Piece.isUndotted := by
  induction vs with
  | nil => rfl
  | cons v vs ih =>
    cases vs with
    | nil => rfl
    | cons w vs => exact ih

theorem settles_memberFragment (aliasName c : String) {word empty w : String} {ts : List Token}
    (hempty : (Piece.word empty).isUndotted) (hword : (Piece.word word).isUndotted)
    (hscan : Token.scan word = .plain w :: ts) (hw : w ∉ [".", "LIKE"]) (vs : List Value) :
    Settles row (memberFragment aliasName c word empty vs)
      (memberFragment aliasName c word empty vs) := by
  rw [memberFragment]
  split
  · exact .of_isUndotted (by rw [List.all_cons, hempty]; rfl)
  · refine .column ?_ fun rest => ?_
    · rw [List.all_cons, hword, List.all_append, isUndotted_separated]
      rfl
    · rw [Fragment.lexemes, hscan]
      exact Lexeme.startsOther_word hw _

theorem settles_connective (aliasName : String) {word empty : String}
    (hempty : (Piece.word empty).isUndotted) (hword : (Piece.word word).isUndotted)
    {fs : List Filter}
    (hfs : ∀ f ∈ fs, Settles row (f.fragment aliasName) (f.settled row aliasName)) :
    Settles row (connective word empty (fragments aliasName fs))
      (connective word empty (settledAll row aliasName fs)) := by
  rw [connective, connective, fragments_eq_map, settledAll_eq_map, List.isEmpty_map,
    List.isEmpty_map]
  split
  · exact .of_isUndotted (by rw [List.all_cons, hempty]; rfl)
  · exact ((Settles.separated hword hfs).append (.of_isUndotted rfl)).cons rfl

mutual

/-- Settled in a row, the text of a filter is that of the filter settled. -/
theorem settles_fragment (aliasName : String) :
    ∀ f : Filter, Settles row (f.fragment aliasName) (f.settled row aliasName)
  | always => .of_isUndotted rfl
  | compare op c v => settles_compareFragment aliasName op c v
  | member c vs => settles_memberFragment aliasName c rfl rfl rfl (by decide) vs
  | notMember c vs => settles_memberFragment aliasName c rfl rfl rfl (by decide) vs
  | like p c v => .like aliasName c (p.pattern v)
  | isNull _ => .column rfl fun _ => Lexeme.startsOther_word (by decide) _
  | isNotNull _ => .column rfl fun _ => Lexeme.startsOther_word (by decide) _
  | all fs => settles_connective aliasName rfl rfl (settles_fragments aliasName fs)
  | any fs => settles_connective aliasName rfl rfl (settles_fragments aliasName fs)
  | negation f => ((settles_fragment aliasName f).append (.of_isUndotted rfl)).cons rfl

theorem settles_fragments (aliasName : String) :
    ∀ fs : List Filter, ∀ f ∈ fs, Settles row (f.fragment aliasName) (f.settled row aliasName)
  | [] => nofun
  | f :: fs => List.forall_mem_cons.2
      ⟨settles_fragment aliasName f, settles_fragments aliasName fs⟩

end

mutual

/-- The condition that a filter is, settled in a row. -/
def settledCondition (row : String → String → Value) (aliasName : String) : Filter → Condition
  | like p c v =>
    .compare .eq (.value ((row aliasName c).like? (p.pattern v)).value) (.value (.bool true))
  | all fs => .join .and (.constant true) (settledConditions row aliasName fs)
  | any fs => .join .or (.constant false) (settledConditions row aliasName fs)
  | negation f => .not (settledCondition row aliasName f)
  | f => f.condition aliasName

/-- The conditions that some filters are, settled in a row. -/
def settledConditions (row : String → String → Value) (aliasName : String) :
    List Filter → List Condition
  | [] => []
  | f :: fs => settledCondition row aliasName f :: settledConditions row aliasName fs

end

theorem settledConditions_eq_map (aliasName : String) (fs : List Filter) :
    settledConditions row aliasName fs = fs.map (settledCondition row aliasName) := by
  induction fs with
  | nil => rfl
  | cons f fs ih => rw [settledConditions, ih, List.map_cons]

theorem reads_settledLike (v : Value) :
    Reads [.param v, .word " = ", .param (.bool true)]
      (.compare .eq (.value v) (.value (.bool true))) := by
  intro n rest hn _
  have hne : n ≠ 0 := by
    rintro rfl
    simp [Fragment.lexemes] at hn
  obtain ⟨n, rfl⟩ := Nat.exists_eq_succ_of_ne_zero hne
  rfl

mutual

theorem reads_settled (aliasName : String) :
    ∀ f : Filter, Reads (f.settled row aliasName) (f.settledCondition row aliasName)
  | always => reads_fragment aliasName always rfl
  | compare op c v => reads_fragment aliasName (compare op c v) rfl
  | member c vs => reads_fragment aliasName (member c vs) rfl
  | notMember c vs => reads_fragment aliasName (notMember c vs) rfl
  | like _ _ _ => reads_settledLike _
  | isNull c => reads_fragment aliasName (isNull c) rfl
  | isNotNull c => reads_fragment aliasName (isNotNull c) rfl
  | all fs => by
    rw [settled, settledCondition, settledAll_eq_map, settledConditions_eq_map]
    exact reads_connective .constant_true fun hne => .all hne (reads_settledAll aliasName fs)
  | any fs => by
    rw [settled, settledCondition, settledAll_eq_map, settledConditions_eq_map]
    exact reads_connective .constant_false fun hne => .any hne (reads_settledAll aliasName fs)
  | negation f => .negation (reads_settled aliasName f)

theorem reads_settledAll (aliasName : String) : ∀ fs : List Filter,
    ∀ f ∈ fs, Reads (f.settled row aliasName) (f.settledCondition row aliasName)
  | [] => nofun
  | f :: fs => List.forall_mem_cons.2 ⟨reads_settled aliasName f, reads_settledAll aliasName fs⟩

end

/-- The truth of the text of a filter is that of the filter settled. -/
theorem truth?_text (d : Dialect) (aliasName : String) (f : Filter) :
    Condition.truth? row ((f.fragment aliasName).text d) (f.fragment aliasName).params =
      some ((f.settledCondition row aliasName).eval row) := by
  have hsettle : Lexeme.settle row (f.fragment aliasName).lexemes =
      (f.settled row aliasName).lexemes := by
    have hnil : ([] : List Lexeme).head? ≠ some (.word ".") := nofun
    have hsettles : Settles row (f.fragment aliasName) (f.settled row aliasName) :=
      settles_fragment aliasName f
    have h := hsettles.settle_append hnil
    rwa [List.append_nil, Lexeme.settle, List.append_nil] at h
  have hstart : Condition.start? (f.settled row aliasName).lexemes =
      some (f.settledCondition row aliasName, []) := by
    have hnil : Lexeme.StartsOther ["OR", "AND", "."] [] := nofun
    have hsettled : Reads (f.settled row aliasName) (f.settledCondition row aliasName) :=
      reads_settled aliasName f
    have hreads := Condition.disjunction_of_reads hsettled (Nat.le_refl _) hnil
    rwa [List.append_nil] at hreads
  rw [Condition.truth?, (f.isSpaced_fragment aliasName).bind_scan_text d, hsettle, hstart]

end Filter

/-! ### What is unknown -/

/-- One truth value carries over to another: where it is the given one, so is the other. -/
def Truth.Carries (b : Bool) (t u : Truth) : Prop :=
  t = some b → u = some b

namespace Truth

variable {b : Bool} {t t' u u' : Truth}

theorem and_eq_some : ∀ {b : Bool}, t.and u = some b ↔
    if b then t = some true ∧ u = some true else t = some false ∨ u = some false := by
  rcases t with _ | _ | _ <;> rcases u with _ | _ | _ <;> decide

theorem or_eq_some : ∀ {b : Bool}, t.or u = some b ↔
    if b then t = some true ∨ u = some true else t = some false ∧ u = some false := by
  rcases t with _ | _ | _ <;> rcases u with _ | _ | _ <;> decide

theorem not_eq_some : t.not = some b ↔ t = some !b := by
  rcases t with _ | _ | _ <;> cases b <;> decide

theorem Carries.and (h : Carries b t u) (h' : Carries b t' u') :
    Carries b (t.and t') (u.and u') := by
  intro heq
  rw [and_eq_some] at heq ⊢
  cases b with
  | true => exact heq.imp h h'
  | false => exact heq.imp h h'

theorem Carries.or (h : Carries b t u) (h' : Carries b t' u') :
    Carries b (t.or t') (u.or u') := by
  intro heq
  rw [or_eq_some] at heq ⊢
  cases b with
  | true => exact heq.imp h h'
  | false => exact heq.imp h h'

theorem Carries.not (h : Carries (!b) t u) : Carries b t.not u.not :=
  fun heq => not_eq_some.2 (h (not_eq_some.1 heq))

end Truth

namespace Filter

mutual

/-- The truth of a filter, given what is said of patterns. -/
def evalWith (likes : Position → String → Value → Truth) (row : String → Value) : Filter → Truth
  | like p c v => likes p c v
  | all fs => allWith likes row fs
  | any fs => anyWith likes row fs
  | negation f => Truth.not (evalWith likes row f)
  | f => f.eval row

/-- The truth of a conjunction, given what is said of patterns. -/
def allWith (likes : Position → String → Value → Truth) (row : String → Value) :
    List Filter → Truth
  | [] => some true
  | f :: fs => Truth.and (evalWith likes row f) (allWith likes row fs)

/-- The truth of a disjunction, given what is said of patterns. -/
def anyWith (likes : Position → String → Value → Truth) (row : String → Value) :
    List Filter → Truth
  | [] => some false
  | f :: fs => Truth.or (evalWith likes row f) (anyWith likes row fs)

end

mutual

/-- Whether something holds of all patterns of a filter, and of whether an odd number of
    negations is around them. -/
def EveryPattern (P : Bool → Position → String → Value → Prop) (negated : Bool) : Filter → Prop
  | like p c v => P negated p c v
  | all fs => EveryPatternOf P negated fs
  | any fs => EveryPatternOf P negated fs
  | negation f => EveryPattern P (!negated) f
  | _ => True

/-- Whether something holds of all patterns of some filters. -/
def EveryPatternOf (P : Bool → Position → String → Value → Prop) (negated : Bool) :
    List Filter → Prop
  | [] => True
  | f :: fs => EveryPattern P negated f ∧ EveryPatternOf P negated fs

end

variable {P Q : Bool → Position → String → Value → Prop}
  {likes likes' : Position → String → Value → Truth} {row : String → Value} {b : Bool}

mutual

theorem EveryPattern.imp₂ {R : Bool → Position → String → Value → Prop}
    (h : ∀ negated p c v, P negated p c v → Q negated p c v → R negated p c v) :
    ∀ {f : Filter} {negated : Bool}, f.EveryPattern P negated → f.EveryPattern Q negated →
      f.EveryPattern R negated
  | like p c v, negated, hP, hQ => h negated p c v hP hQ
  | all _, _, hP, hQ => EveryPatternOf.imp₂ h hP hQ
  | any _, _, hP, hQ => EveryPatternOf.imp₂ h hP hQ
  | negation f, _, hP, hQ => EveryPattern.imp₂ (f := f) h hP hQ
  | always, _, _, _ => trivial
  | compare .., _, _, _ => trivial
  | member .., _, _, _ => trivial
  | notMember .., _, _, _ => trivial
  | isNull _, _, _, _ => trivial
  | isNotNull _, _, _, _ => trivial

theorem EveryPatternOf.imp₂ {R : Bool → Position → String → Value → Prop}
    (h : ∀ negated p c v, P negated p c v → Q negated p c v → R negated p c v) :
    ∀ {fs : List Filter} {negated : Bool}, EveryPatternOf P negated fs →
      EveryPatternOf Q negated fs → EveryPatternOf R negated fs
  | [], _, _, _ => trivial
  | _ :: _, _, hP, hQ => ⟨EveryPattern.imp₂ h hP.1 hQ.1, EveryPatternOf.imp₂ h hP.2 hQ.2⟩

end

mutual

/-- What carries over for every pattern does so for the filter. A negation asks for the
    opposite of what is below it. -/
theorem carries_evalWith : ∀ {f : Filter} {negated : Bool},
    f.EveryPattern (fun n p c v => Truth.Carries (b ^^ n) (likes p c v) (likes' p c v)) negated →
      Truth.Carries (b ^^ negated) (f.evalWith likes row) (f.evalWith likes' row)
  | like _ _ _, _, h => h
  | all _, _, h => carries_allWith h
  | any _, _, h => carries_anyWith h
  | negation f, _, h => .not (by
    have hf := carries_evalWith (f := f) h
    rwa [Bool.xor_not] at hf)
  | always, _, _ => id
  | compare .., _, _ => id
  | member .., _, _ => id
  | notMember .., _, _ => id
  | isNull _, _, _ => id
  | isNotNull _, _, _ => id

theorem carries_allWith : ∀ {fs : List Filter} {negated : Bool},
    EveryPatternOf (fun n p c v => Truth.Carries (b ^^ n) (likes p c v) (likes' p c v)) negated fs →
      Truth.Carries (b ^^ negated) (allWith likes row fs) (allWith likes' row fs)
  | [], _, _ => id
  | _ :: _, _, h => (carries_evalWith h.1).and (carries_allWith h.2)

theorem carries_anyWith : ∀ {fs : List Filter} {negated : Bool},
    EveryPatternOf (fun n p c v => Truth.Carries (b ^^ n) (likes p c v) (likes' p c v)) negated fs →
      Truth.Carries (b ^^ negated) (anyWith likes row fs) (anyWith likes' row fs)
  | [], _, _ => id
  | _ :: _, _, h => (carries_evalWith h.1).or (carries_anyWith h.2)

end

mutual

/-- A filter says of patterns that they are found literally. -/
theorem eval_eq_evalWith (row : String → Value) : ∀ f : Filter,
    f.eval row = f.evalWith (fun p c v => likeValue? p (row c) v) row
  | like _ _ _ => rfl
  | all fs => evalAll_eq_allWith row fs
  | any fs => evalAny_eq_anyWith row fs
  | negation f => congrArg Truth.not (eval_eq_evalWith row f)
  | always => rfl
  | compare .. => rfl
  | member .. => rfl
  | notMember .. => rfl
  | isNull _ => rfl
  | isNotNull _ => rfl

theorem evalAll_eq_allWith (row : String → Value) : ∀ fs : List Filter,
    evalAll row fs = allWith (fun p c v => likeValue? p (row c) v) row fs
  | [] => rfl
  | f :: fs => congrArg₂ Truth.and (eval_eq_evalWith row f) (evalAll_eq_allWith row fs)

theorem evalAny_eq_anyWith (row : String → Value) : ∀ fs : List Filter,
    evalAny row fs = anyWith (fun p c v => likeValue? p (row c) v) row fs
  | [] => rfl
  | f :: fs => congrArg₂ Truth.or (eval_eq_evalWith row f) (evalAny_eq_anyWith row fs)

end

theorem allWith_eq_foldr (fs : List Filter) :
    allWith likes row fs = (fs.map (evalWith likes row)).foldr Truth.and (some true) := by
  induction fs with
  | nil => rfl
  | cons f fs ih => rw [allWith, ih, List.map_cons, List.foldr_cons]

theorem anyWith_eq_foldr (fs : List Filter) :
    anyWith likes row fs = (fs.map (evalWith likes row)).foldr Truth.or (some false) := by
  induction fs with
  | nil => rfl
  | cons f fs ih => rw [anyWith, ih, List.map_cons, List.foldr_cons]

/-- What SQL says of a pattern in a row. -/
def sqlLikes (row : String → Value) (p : Position) (c : String) (v : Value) : Truth :=
  (row c).like? (p.pattern v)

theorem eval_settledLike (row : String → String → Value) (t : Truth) :
    (Condition.compare .eq (.value t.value) (.value (.bool true))).eval row = t := by
  rcases t with _ | _ | _ <;> rfl

mutual

/-- Settled in a row, the condition that a filter is has the truth of SQL. -/
theorem eval_settledCondition (row : String → String → Value) (aliasName : String) :
    ∀ f : Filter, (f.settledCondition row aliasName).eval row =
      f.evalWith (sqlLikes (row aliasName)) (row aliasName)
  | like _ _ _ => eval_settledLike row _
  | all fs => by
    rw [settledCondition, evalWith, eval_join_and, allWith_eq_foldr,
      eval_settledConditions row aliasName fs]
  | any fs => by
    rw [settledCondition, evalWith, eval_join_or, anyWith_eq_foldr,
      eval_settledConditions row aliasName fs]
  | negation f => congrArg Truth.not (eval_settledCondition row aliasName f)
  | always => rfl
  | compare op c v => eval_condition aliasName (compare op c v) rfl
  | member c vs => eval_condition aliasName (member c vs) rfl
  | notMember c vs => eval_condition aliasName (notMember c vs) rfl
  | isNull _ => rfl
  | isNotNull _ => rfl

theorem eval_settledConditions (row : String → String → Value) (aliasName : String) :
    ∀ fs : List Filter, (settledConditions row aliasName fs).map (Condition.eval row) =
      fs.map (evalWith (sqlLikes (row aliasName)) (row aliasName))
  | [] => rfl
  | f :: fs => congrArg₂ List.cons (eval_settledCondition row aliasName f)
      (eval_settledConditions row aliasName fs)

end

/-- Whether a pattern is null or a text in which every character stands for itself, to be looked
    for in null or a text. -/
def IsTextual (row : String → Value) (c : String) (v : Value) : Prop :=
  (v = .null ∨ ∃ p : String, v = .str p ∧ p.toList.all Wildcard.isLiteral) ∧
    (row c = .null ∨ ∃ s, row c = .str s)

theorem sqlLikes_of_isTextual {c : String} {v : Value} (h : IsTextual row c v) (p : Position) :
    sqlLikes row p c v = if v.isNull then none else likeValue? p (row c) v := by
  obtain ⟨rfl | ⟨q, rfl, hq⟩, hs | ⟨s, hs⟩⟩ := h
  · rw [sqlLikes, hs]
    rfl
  · rw [sqlLikes, hs]
    rfl
  · rw [sqlLikes, hs, Position.pattern_str]
    rfl
  · rw [sqlLikes, hs, Position.pattern_str]
    have hagrees := p.agrees_of_isLiteral hq s.toList
    rw [← Position.foundAt_iff, ← Bool.eq_iff_iff] at hagrees
    refine congrArg some ?_
    rw [Wildcard.isLike, String.toList_ofList, hagrees]

theorem likeValue?_null (p : Position) (v : Value) :
    likeValue? p v .null = if v.isNull then none else some false := by
  cases v <;> rfl

/-- What SQL is certain of, the filter finds too. -/
theorem carries_likeValue? {row : String → Value} {c : String} {v : Value}
    (h : IsTextual row c v) (p : Position) :
    Truth.Carries b (sqlLikes row p c v) (likeValue? p (row c) v) := by
  intro heq
  rw [sqlLikes_of_isTextual h] at heq
  split at heq
  · cases heq
  · exact heq

/-- What the filter finds, SQL is certain of, but for null. Of null the filter is false, which
    only matters where it is negated. -/
theorem carries_sqlLikes {row : String → Value} {c : String} {v : Value}
    (h : IsTextual row c v) (p : Position) {negated : Bool}
    (hnull : negated = true → v = .null → row c = .null) :
    Truth.Carries (true ^^ negated) (likeValue? p (row c) v) (sqlLikes row p c v) := by
  intro heq
  rw [sqlLikes_of_isTextual h]
  obtain rfl | ⟨q, rfl, -⟩ := h.1
  · rw [likeValue?_null] at heq
    split at heq
    · cases heq
    · next hcolumn =>
      cases negated with
      | true => exact absurd (congrArg Value.isNull (hnull rfl rfl)) hcolumn
      | false => cases heq
  · exact heq

/-- Read in SQL, the text of a filter is never more certain than the filter: where the text is
    true or false, so is the filter. And a row is kept exactly where the text is true, if no
    pattern inside an odd number of negations is null while the column is not. -/
theorem truth_text (d : Dialect) (aliasName : String) {f : Filter}
    {row : String → String → Value}
    (h : f.EveryPattern (fun _ _ c v => IsTextual (row aliasName) c v) false) :
    ∃ t, Condition.truth? row ((f.fragment aliasName).text d) (f.fragment aliasName).params =
        some t ∧
      (∀ b, t = some b → f.eval (row aliasName) = some b) ∧
      (f.EveryPattern (fun negated _ c v => negated = true → v = .null → row aliasName c = .null)
          false →
        (f.holds (row aliasName) = true ↔ t = some true)) := by
  let found : Position → String → Value → Truth := fun p c v => likeValue? p (row aliasName c) v
  let likes := sqlLikes (row aliasName)
  have hsound : ∀ b, Truth.Carries b (f.evalWith likes (row aliasName))
      (f.evalWith found (row aliasName)) := by
    intro b
    rw [← Bool.xor_false b]
    exact carries_evalWith (h.imp₂ (fun _ p _ _ hv _ => carries_likeValue? hv p) h)
  refine ⟨_, truth?_text d aliasName f, ?_, fun hnull => ?_⟩
  · rw [eval_settledCondition, eval_eq_evalWith]
    exact hsound
  · have hkept : Truth.Carries (true ^^ false) (f.evalWith found (row aliasName))
        (f.evalWith likes (row aliasName)) :=
      carries_evalWith (h.imp₂ (fun _ p _ _ hv hn => carries_sqlLikes hv p hn) hnull)
    rw [eval_settledCondition, holds, beq_iff_eq, eval_eq_evalWith]
    exact ⟨hkept, hsound true⟩

/-- Reports that are no drafts. Whether a title starts with null does not matter to those with
    a number. -/
def noDraft : Filter :=
  .all [.negation (.like .anywhere "title" (.str "draft")),
    .any [.like .start "title" .null, .isNotNull "id"]]

/-- A row for a report. -/
def reportRow (_ : String) : String → Value
  | "title" => .str "report"
  | _ => .int 1

/-- The row of a report is kept, and the text of the filter is true of it. -/
theorem truth_text_report :
    noDraft.EveryPattern (fun _ _ c v => IsTextual (reportRow "t") c v) false ∧
      ∃ t, Condition.truth? reportRow ((noDraft.fragment "t").text .postgresql)
          (noDraft.fragment "t").params = some t ∧
        (∀ b, t = some b → noDraft.eval (reportRow "t") = some b) ∧
        (noDraft.holds (reportRow "t") = true ↔ t = some true) := by
  have htextual : noDraft.EveryPattern (fun _ _ c v => IsTextual (reportRow "t") c v) false :=
    ⟨⟨.inr ⟨"draft", rfl, by decide⟩, .inr ⟨"report", rfl⟩⟩,
      ⟨⟨.inl rfl, .inr ⟨"report", rfl⟩⟩, trivial, trivial⟩, trivial⟩
  obtain ⟨t, htext, hsound, hkept⟩ := truth_text .postgresql "t" htextual
  exact ⟨htextual, t, htext, hsound, hkept ⟨nofun, ⟨nofun, trivial, trivial⟩, trivial⟩⟩

/-- The negation of a pattern that is null is unknown in SQL, but the row is kept. -/
theorem certain_of_null :
    Condition.truth? (fun _ _ => .str "abc")
        (((negation (like .anywhere "c" .null)).fragment "t").text .postgresql)
        ((negation (like .anywhere "c" .null)).fragment "t").params = some none ∧
      (negation (like .anywhere "c" .null)).holds (fun _ => .str "abc") = true :=
  ⟨rfl, rfl⟩

end Filter

end EntityFetch
