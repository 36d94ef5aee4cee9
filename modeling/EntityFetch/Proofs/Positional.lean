import EntityFetch.Proofs.Rendered

/-!
# The values of a statement and its text

The text of a statement has placeholders where its values belong. They are numbered from
left to right (`Statement.placeholders_scan_sqlText`), and so are the parameters
(`Statement.params_eq_values`). A value is never in the text: of the values only their number
matters, and which ones are null where equality is asked for (`Statement.sqlText_shape`).
Databases differ in the placeholders alone (`Fragment.exists_text_eq`). With the names that
are read off the text this says all of what it is made of (`Statement.sqlText_reads_back`).
-/

namespace EntityFetch

/-! ### Placeholders -/

namespace Token

/-- The placeholder that a token is. -/
def placeholder? : Token → Option String
  | plain s => if s == "?" || s.toList.head? == some '$' then some s else none
  | quoted _ => none

/-- The placeholders among tokens. -/
def placeholders (ts : List Token) : List String :=
  ts.filterMap placeholder?

/-- A question mark in quotes is no placeholder. -/
example : placeholders (scan "a.\"?\" = ? AND a.\"$1\" = $2") = ["?", "$2"] := by decide

theorem placeholder?_of_isClear {w : String} (hw : (Piece.word w).isClear) :
    placeholders (scan w) = [] := by
  rw [placeholders, List.filterMap_eq_nil_iff]
  intro t ht
  cases t with
  | quoted s => rfl
  | plain s =>
    rw [Piece.isClear, List.all_eq_true] at hw
    have hchar : ∀ c ∈ s.toList, c ≠ '$' ∧ c ≠ '?' := by
      intro c hc
      have hclear := hw c (mem_of_mem_scan ht hc)
      simp only [Bool.and_eq_true, bne_iff_ne] at hclear
      exact ⟨hclear.1.2, hclear.2⟩
    have hmark : s ≠ "?" := by
      rintro rfl
      exact (hchar '?' (List.mem_singleton_self _)).2 rfl
    have hhead : s.toList.head? ≠ some '$' :=
      fun h => (hchar '$' (List.mem_of_head? h)).1 rfl
    simp [placeholder?, hmark, hhead]

theorem placeholder?_token (name : String) : (Identifier.token name).placeholder? = none := by
  rw [Identifier.token]
  split
  · rfl
  · next hquote =>
    simp only [Identifier.needsQuoting, Bool.or_eq_true, not_or, Bool.not_eq_true',
      Bool.not_eq_true, Bool.not_eq_false, List.all_eq_true] at hquote
    have hmark : name ≠ "?" := by
      rintro rfl
      exact absurd (hquote.2 '?' (List.mem_singleton_self _)) (by decide)
    have hhead : name.toList.head? ≠ some '$' :=
      fun h => absurd (hquote.2 '$' (List.mem_of_head? h)) (by decide)
    simp [placeholder?, hmark, hhead]

theorem placeholder?_placeholder (d : Dialect) (n : Nat) :
    (plain (d.placeholder n)).placeholder? = some (d.placeholder n) := by
  cases d with
  | postgresql => simp [placeholder?, Dialect.placeholder]
  | mysql => rfl
  | sqlite => rfl

end Token

namespace Fragment

/-- The placeholders in a fragment are numbered from left to right. -/
theorem placeholders_tokens (d : Dialect) {f : Fragment} {apart : Bool} (h : f.spacedFrom apart)
    (n : Nat) : Token.placeholders (f.tokens d n) =
      (List.range' n f.params.length).map d.placeholder := by
  induction f generalizing n apart with
  | nil => rfl
  | cons p ps ih =>
    obtain ⟨hclear, hps⟩ := isClear_and_spacedFrom h
    cases p with
    | word s =>
      have hword := Token.placeholder?_of_isClear hclear
      rw [Token.placeholders] at hword
      rw [tokens, Token.placeholders, List.filterMap_append, hword]
      exact ih hps n
    | name s =>
      rw [tokens, Token.placeholders, List.filterMap_cons, Token.placeholder?_token]
      exact ih hps n
    | label s => exact ih hps n
    | param v =>
      rw [tokens, Token.placeholders, List.filterMap_cons, Token.placeholder?_placeholder]
      exact congrArg _ (ih hps (n + 1))

/-- What stands before the first placeholder, and what follows each of them. -/
def parts : Fragment → String × List String
  | [] => ("", [])
  | .word s :: ps => (s ++ (parts ps).1, (parts ps).2)
  | .name s :: ps => (Identifier.text s ++ (parts ps).1, (parts ps).2)
  | .label s :: ps => (Identifier.quoted s ++ (parts ps).1, (parts ps).2)
  | .param _ :: ps => ("", (parts ps).1 :: (parts ps).2)

theorem length_parts (f : Fragment) : f.parts.2.length = f.params.length := by
  induction f with
  | nil => rfl
  | cons p ps ih =>
    cases p with
    | word s => exact ih
    | name s => exact ih
    | label s => exact ih
    | param v => exact congrArg Nat.succ ih

theorem join_texts (d : Dialect) (f : Fragment) (n : Nat) : String.join (f.texts d n) =
    f.parts.1 ++ String.join (f.parts.2.mapIdx fun i part => d.placeholder (i + n) ++ part) := by
  induction f generalizing n with
  | nil => rfl
  | cons p ps ih =>
    cases p with
    | word s => rw [texts, String.join_cons, ih, parts, String.append_assoc]
    | name s => rw [texts, String.join_cons, ih, parts, String.append_assoc]
    | label s => rw [texts, String.join_cons, ih, parts, String.append_assoc]
    | param v =>
      simp only [texts, String.join_cons, ih, parts, List.mapIdx_cons, String.empty_append,
        String.append_assoc, Nat.zero_add, Nat.add_assoc, Nat.add_comm 1 n]

/-- The text of a fragment is the same for all databases but for the placeholders. -/
theorem exists_text_eq (f : Fragment) : ∃ (first : String) (rest : List String),
    rest.length = f.params.length ∧ ∀ d : Dialect, f.text d =
      first ++ String.join (rest.mapIdx fun i part => d.placeholder (i + 1) ++ part) :=
  ⟨f.parts.1, f.parts.2, f.length_parts, fun d => f.join_texts d 1⟩

end Fragment

/-- The placeholders in the text of a statement are numbered from left to right, one for each
    parameter. -/
theorem Statement.placeholders_scan_sqlText (s : Statement) (d : Dialect) :
    Token.placeholders (Token.scan (s.sqlText d)) =
      (List.range s.params.length).map fun i => d.placeholder (i + 1) := by
  rw [sqlText, s.isSpaced_fragment.scan_text, Fragment.placeholders_tokens d s.isSpaced_fragment,
    List.range'_eq_map_range, List.map_map, params]
  congr 1
  funext i
  rw [Function.comp_apply, Nat.add_comm]

/-! ### Parameters -/

namespace Filter

mutual

/-- The values that a filter passes to the database, from left to right. Null is not passed
    where equality is asked for. -/
def values : Filter → List Value
  | always => []
  | compare op _ v => if (op = .eq ∨ op = .ne) ∧ v.isNull then [] else [v]
  | member _ vs => vs
  | notMember _ vs => vs
  | like p _ v => [p.pattern v]
  | isNull _ => []
  | isNotNull _ => []
  | all fs => valuesAll fs
  | any fs => valuesAll fs
  | negation f => values f

/-- The values that some filters pass to the database, from left to right. -/
def valuesAll : List Filter → List Value
  | [] => []
  | f :: fs => values f ++ valuesAll fs

end

end Filter

/-- The values that a statement passes to the database: those of the filters of its joins, in
    the order of the joins, and then those of its conditions. -/
def Statement.values (s : Statement) : List Value :=
  (s.joins.flatMap fun j => j.filters.flatMap fun a => a.filter.values) ++
    s.predicates.flatMap fun p => p.filter.values

namespace Fragment

@[simp] theorem params_nil : params [] = [] := rfl

@[simp] theorem params_word (w : String) (f : Fragment) : params (.word w :: f) = params f := rfl

@[simp] theorem params_name (s : String) (f : Fragment) : params (.name s :: f) = params f := rfl

@[simp] theorem params_label (s : String) (f : Fragment) : params (.label s :: f) = params f := rfl

@[simp] theorem params_param (v : Value) (f : Fragment) :
    params (.param v :: f) = v :: params f := rfl

@[simp] theorem params_append (f g : Fragment) : params (f ++ g) = params f ++ params g :=
  List.filterMap_append

@[simp] theorem params_column (aliasName c : String) : params (column aliasName c) = [] := rfl

@[simp] theorem params_separated (w : String) :
    ∀ fs : List Fragment, params (separated w fs) = fs.flatMap params
  | [] => rfl
  | [f] => by rw [separated, List.flatMap_cons, List.flatMap_nil, List.append_nil]
  | f :: g :: fs => by
    rw [separated, params_append, params_word, params_separated w (g :: fs), ← List.flatMap_cons]

theorem params_flatMap {α : Type} (h : α → Fragment) (as : List α) :
    params (as.flatMap h) = as.flatMap fun a => params (h a) :=
  List.filterMap_flatMap ..

end Fragment

namespace Filter

theorem params_compareFragment (aliasName : String) (op : Comparison) (c : String) (v : Value) :
    (compareFragment aliasName op c v).params = (compare op c v).values := by
  cases op <;> cases hv : v.isNull <;> simp [compareFragment, values, hv]

theorem params_memberFragment (aliasName c word empty : String) (vs : List Value) :
    (memberFragment aliasName c word empty vs).params = vs := by
  cases vs with
  | nil => rfl
  | cons v vs => simp [memberFragment, List.flatMap_map]

theorem params_connective (word empty : String) (fs : List Fragment) :
    (connective word empty fs).params = fs.flatMap Fragment.params := by
  cases fs with
  | nil => rfl
  | cons f fs => simp [connective]

mutual

/-- The parameters of a filter are its values. -/
theorem params_fragment (aliasName : String) : ∀ f : Filter, (f.fragment aliasName).params = f.values
  | always => rfl
  | compare op c v => params_compareFragment aliasName op c v
  | member c vs => params_memberFragment aliasName c _ _ vs
  | notMember c vs => params_memberFragment aliasName c _ _ vs
  | like _ _ _ => rfl
  | isNull _ => rfl
  | isNotNull _ => rfl
  | all fs => (params_connective _ _ _).trans (params_fragments aliasName fs)
  | any fs => (params_connective _ _ _).trans (params_fragments aliasName fs)
  | negation f => by simp [fragment, values, params_fragment aliasName f]

theorem params_fragments (aliasName : String) :
    ∀ fs : List Filter, (fragments aliasName fs).flatMap Fragment.params = valuesAll fs
  | [] => rfl
  | f :: fs => by
    rw [fragments, List.flatMap_cons, params_fragment aliasName f, params_fragments aliasName fs,
      valuesAll]

end

end Filter

theorem Join.params_fragment (j : Join) :
    j.fragment.params = j.filters.flatMap fun a => a.filter.values := by
  simp [fragment, Fragment.params_flatMap, Filter.params_fragment]

namespace Statement

theorem params_clause (keyword word : String) (fs : List Fragment) :
    (clause keyword word fs).params = fs.flatMap Fragment.params := by
  cases fs with
  | nil => rfl
  | cons f fs => simp [clause]

theorem params_numberClause (keyword : String) (n : Option Nat) :
    (numberClause keyword n).params = [] := by
  cases n <;> rfl

/-- The parameters of a statement are its values in their order. -/
theorem params_eq_values (s : Statement) : s.params = s.values := by
  have hnil : ∀ {α : Type} (as : List α), (as.flatMap fun _ => ([] : List Value)) = [] :=
    fun _ => List.flatMap_eq_nil_iff.2 fun _ _ => rfl
  simp [hnil, params, values, fragment, params_clause, params_numberClause, Fragment.params_flatMap,
    Join.params_fragment, Filter.params_fragment, List.flatMap_map, columnFragment,
    OrderBy.fragment]

end Statement

/-! ### Values and the text -/

/-- What a value that is compared for equality means for the text: whether it is null. -/
def Value.shape (v : Value) : Value :=
  if v.isNull then .null else .bool true

namespace Filter

mutual

/-- A filter without its values. Of a value with which equality is asked for it remains whether
    it is null, and of a list of values how many there are. -/
def shape : Filter → Filter
  | always => always
  | compare op c v => compare op c (if op = .eq ∨ op = .ne then v.shape else .null)
  | member c vs => member c (vs.map fun _ => .null)
  | notMember c vs => notMember c (vs.map fun _ => .null)
  | like p c _ => like p c .null
  | isNull c => isNull c
  | isNotNull c => isNotNull c
  | all fs => all (shapes fs)
  | any fs => any (shapes fs)
  | negation f => negation (shape f)

/-- Filters without their values. -/
def shapes : List Filter → List Filter
  | [] => []
  | f :: fs => shape f :: shapes fs

end

end Filter

/-- A statement without the values of its filters. -/
def Statement.shape (s : Statement) : Statement :=
  { s with
    joins := s.joins.map fun j =>
      { j with filters := j.filters.map fun a => { a with filter := a.filter.shape } }
    predicates := s.predicates.map fun p => { p with filter := p.filter.shape } }

/-- A piece without the value that is bound by it. -/
def Piece.blank : Piece → Piece
  | param _ => param .null
  | p => p

namespace Fragment

/-- A fragment without the values that are bound by it. -/
def blank (f : Fragment) : Fragment :=
  f.map Piece.blank

theorem texts_blank (d : Dialect) (f : Fragment) (n : Nat) : f.blank.texts d n = f.texts d n := by
  induction f generalizing n with
  | nil => rfl
  | cons p ps ih =>
    cases p with
    | word s => exact congrArg (List.cons _) (ih n)
    | name s => exact congrArg (List.cons _) (ih n)
    | label s => exact congrArg (List.cons _) (ih n)
    | param v => exact congrArg (List.cons _) (ih (n + 1))

@[simp] theorem blank_append (f g : Fragment) : blank (f ++ g) = blank f ++ blank g :=
  List.map_append

@[simp] theorem blank_cons (p : Piece) (f : Fragment) : blank (p :: f) = p.blank :: blank f :=
  rfl

theorem blank_flatMap {α : Type} (h : α → Fragment) (as : List α) :
    blank (as.flatMap h) = as.flatMap fun a => blank (h a) :=
  List.map_flatMap ..

theorem blank_separated (w : String) :
    ∀ fs : List Fragment, blank (separated w fs) = separated w (fs.map blank)
  | [] => rfl
  | [_] => rfl
  | f :: g :: fs => by
    rw [separated, blank_append, blank_cons, blank_separated w (g :: fs)]
    rfl

end Fragment

namespace Filter

theorem isNull_shape (v : Value) : v.shape.isNull = v.isNull := by
  cases v <;> rfl

theorem blank_compareFragment (aliasName : String) (op : Comparison) (c : String) (v : Value) :
    ((compare op c v).shape.fragment aliasName).blank = (compareFragment aliasName op c v).blank := by
  cases op <;> cases hv : v.isNull <;> simp [shape, fragment, compareFragment, isNull_shape, hv] <;>
    rfl

theorem blank_memberFragment (aliasName c word empty : String) (vs : List Value) :
    (memberFragment aliasName c word empty (vs.map fun _ => .null)).blank =
      (memberFragment aliasName c word empty vs).blank := by
  cases vs with
  | nil => rfl
  | cons v vs =>
    have hvalues : (Fragment.separated ", "
          (((v :: vs).map fun _ => Value.null).map fun v => [.param v])).blank =
        (Fragment.separated ", " ((v :: vs).map fun v => [.param v])).blank := by
      rw [Fragment.blank_separated, Fragment.blank_separated, List.map_map, List.map_map,
        List.map_map]
      rfl
    rw [memberFragment, memberFragment, List.isEmpty_map, List.isEmpty_cons,
      if_neg Bool.false_ne_true, if_neg Bool.false_ne_true]
    simp only [Fragment.blank_append, Fragment.blank_cons, hvalues]

theorem blank_connective {word empty : String} {fs gs : List Fragment}
    (h : fs.map Fragment.blank = gs.map Fragment.blank) :
    (connective word empty fs).blank = (connective word empty gs).blank := by
  have hempty : fs.isEmpty = gs.isEmpty := by
    rw [← List.isEmpty_map, h, List.isEmpty_map]
  rw [connective, connective, hempty]
  split
  · rfl
  · simp [Fragment.blank_separated, h]

mutual

/-- The text of a filter depends on its shape alone. -/
theorem blank_fragment_shape (aliasName : String) :
    ∀ f : Filter, (f.shape.fragment aliasName).blank = (f.fragment aliasName).blank
  | always => rfl
  | compare op c v => blank_compareFragment aliasName op c v
  | member c vs => blank_memberFragment aliasName c _ _ vs
  | notMember c vs => blank_memberFragment aliasName c _ _ vs
  | like _ _ _ => rfl
  | isNull _ => rfl
  | isNotNull _ => rfl
  | all fs => blank_connective (blank_fragments_shapes aliasName fs)
  | any fs => blank_connective (blank_fragments_shapes aliasName fs)
  | negation f => by simp [shape, fragment, blank_fragment_shape aliasName f]

theorem blank_fragments_shapes (aliasName : String) : ∀ fs : List Filter,
    (fragments aliasName (shapes fs)).map Fragment.blank = (fragments aliasName fs).map Fragment.blank
  | [] => rfl
  | f :: fs => by
    rw [shapes, fragments, fragments, List.map_cons, List.map_cons,
      blank_fragment_shape aliasName f, blank_fragments_shapes aliasName fs]

end

end Filter

namespace Statement

theorem blank_clause {keyword word : String} {fs gs : List Fragment}
    (h : fs.map Fragment.blank = gs.map Fragment.blank) :
    (clause keyword word fs).blank = (clause keyword word gs).blank := by
  have hempty : fs.isEmpty = gs.isEmpty := by
    rw [← List.isEmpty_map, h, List.isEmpty_map]
  rw [clause, clause, hempty]
  split
  · rfl
  · simp [Fragment.blank_separated, h]

/-- The text of a statement depends on its shape alone. -/
theorem blank_fragment_shape (s : Statement) : s.shape.fragment.blank = s.fragment.blank := by
  have hjoins : Fragment.blank (s.shape.joins.flatMap Join.fragment) =
      Fragment.blank (s.joins.flatMap Join.fragment) := by
    simp [shape, Fragment.blank_flatMap, List.flatMap_map, Join.fragment, Join.aliasName,
      Filter.blank_fragment_shape]
  have hpredicates : (clause " WHERE " " AND "
        (s.shape.predicates.map fun p => p.filter.fragment p.aliasName)).blank =
      (clause " WHERE " " AND " (s.predicates.map fun p => p.filter.fragment p.aliasName)).blank :=
    blank_clause (by simp [shape, Filter.blank_fragment_shape])
  simp only [fragment, Fragment.blank_append, Fragment.blank_cons, hjoins, hpredicates]
  rfl

/-- Of the values of a statement only their number is in its text, and which ones are null
    where equality is asked for. -/
theorem sqlText_shape (s : Statement) (d : Dialect) : s.shape.sqlText d = s.sqlText d := by
  rw [sqlText, sqlText, Fragment.text, Fragment.text, ← Fragment.texts_blank,
    s.blank_fragment_shape, Fragment.texts_blank]

/-- Whoever scans the text of a statement finds its names as they were given and the
    placeholders of its values in their order. Nothing else of the values is in the text, and
    databases differ in the placeholders alone. -/
theorem sqlText_reads_back (s : Statement) :
    s.params = s.values ∧
    (∀ d : Dialect, Token.names (Token.scan (s.sqlText d)) = s.names ∧
      Token.placeholders (Token.scan (s.sqlText d)) =
        (List.range s.params.length).map fun i => d.placeholder (i + 1)) ∧
    (∀ d : Dialect, s.shape.sqlText d = s.sqlText d) ∧
    ∃ (first : String) (rest : List String), rest.length = s.params.length ∧ ∀ d : Dialect,
      s.sqlText d = first ++ String.join (rest.mapIdx fun i part => d.placeholder (i + 1) ++ part) :=
  ⟨s.params_eq_values, fun d => ⟨s.names_scan_sqlText d, s.placeholders_scan_sqlText d⟩,
    s.sqlText_shape, s.fragment.exists_text_eq⟩

end Statement

end EntityFetch
