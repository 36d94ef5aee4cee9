import EntityFetch.Proofs.Spaced

/-!
# The names in the text of a statement

The text of a statement names tables, columns and labels, as the statement has them. A
reader of the text tells names from other words by what stands around them
(`Token.names`), and gets every name as it was given, one token for each, whatever
characters are in it (`Statement.names_scan_sqlText`).
-/

namespace EntityFetch

namespace Token

/-- The words of which the text of a statement consists besides names. Those that only occur
    where no name can be are left out. -/
def keywords : List String :=
  ["select", "as", "from", "inner", "left", "join", "on", "where", "order", "limit", "offset",
    "and", "or", "not", "in", "is", "null", "like"]

/-- The name that a token is: anything in quotes, else a word that is not a keyword. -/
def identifier? : Token → Option String
  | quoted s => some s
  | plain s =>
    if s.toList.isEmpty || s.toList.head?.any Char.isDigit || !s.toList.all Identifier.isWordChar ||
        keywords.contains (Identifier.lower s) then none
    else some s

/-- Whether a name comes after a token. -/
def introduces : Token → Bool
  | plain s => ["FROM", "JOIN", "AS", "."].contains s
  | quoted _ => false

/-- The names among tokens, given whether the first token is introduced as one. A table with a
    dot after it is a name too. -/
def namesAfter (introduced : Bool) : List Token → List String
  | [] => []
  | t :: ts =>
    (if introduced || ts.head? == some (plain ".") then t.identifier?.toList else []) ++
      namesAfter t.introduces ts

/-- The names among the tokens of a statement. -/
def names (ts : List Token) : List String :=
  namesAfter false ts

/-- A quoted word is a name like any other. -/
example : names (scan "SELECT a.\"from\" FROM \"x\"\"y\" AS a") =
    ["a", "from", "x\"y", "a"] := by decide

/-! ### Names -/

theorem identifier?_token (name : String) : (Identifier.token name).identifier? = some name := by
  rw [Identifier.token]
  split
  · rfl
  · next hquote =>
    simp only [Identifier.needsQuoting, Bool.or_eq_true, not_or, Bool.not_eq_true] at hquote
    obtain ⟨⟨⟨hreserved, hempty⟩, hdigit⟩, hword⟩ := hquote
    have hkeyword : keywords.contains (Identifier.lower name) = false := by
      have hsub : ∀ w ∈ keywords, w ∈ Identifier.reserved := by decide
      rw [List.contains_eq_mem, decide_eq_false_iff_not] at hreserved ⊢
      exact fun h => hreserved (hsub _ h)
    rw [identifier?, hempty, hdigit, hword, hkeyword]
    rfl

/-- A name is never read as a keyword or a sign. -/
theorem token_ne_plain (name : String) {s : String} (hs : (plain s).identifier? = none) :
    Identifier.token name ≠ plain s := by
  intro h
  rw [← h, identifier?_token] at hs
  exact Option.some_ne_none _ hs

/-- No name is taken for a word that introduces one. -/
theorem introduces_token (name : String) : (Identifier.token name).introduces = false := by
  rw [Identifier.token]
  split
  · rfl
  · next hquote =>
    rw [introduces, List.contains_eq_mem, decide_eq_false_iff_not]
    intro hmem
    have hall : ∀ w ∈ ["FROM", "JOIN", "AS", "."], Identifier.needsQuoting w := by decide
    exact hquote (hall name hmem)

/-- Tokens that contain some names, wherever they stand. -/
structure HasNames (ts : List Token) (ns : List String) : Prop where
  head_ne : ts.head? ≠ some (plain ".")
  namesAfter_append : ∀ rest : List Token, rest.head? ≠ some (plain ".") →
    namesAfter false (ts ++ rest) = ns ++ namesAfter false rest

namespace HasNames

variable {ts us : List Token} {ns ms : List String}

theorem nil : HasNames [] [] :=
  ⟨nofun, fun _ _ => rfl⟩

theorem append (h : HasNames ts ns) (h' : HasNames us ms) : HasNames (ts ++ us) (ns ++ ms) where
  head_ne := by
    cases ts with
    | nil => exact h'.head_ne
    | cons t ts => exact h.head_ne
  namesAfter_append rest hrest := by
    have hhead : (us ++ rest).head? ≠ some (plain ".") := by
      cases us with
      | nil => exact hrest
      | cons u us => exact h'.head_ne
    rw [List.append_assoc, h.namesAfter_append _ hhead, h'.namesAfter_append _ hrest,
      List.append_assoc]

/-- A token that introduces nothing, and what comes next is no dot. -/
theorem namesAfter_cons {t : Token} (ht : t.introduces = false) {rest : List Token}
    (hrest : rest.head? ≠ some (plain ".")) (introduced : Bool) :
    namesAfter introduced (t :: rest) =
      (if introduced then t.identifier?.toList else []) ++ namesAfter false rest := by
  have hhead : (rest.head? == some (plain ".")) = false := beq_eq_false_iff_ne.2 hrest
  rw [namesAfter, hhead, Bool.or_false, ht]

theorem head_ne_of_introduces {t : Token} (ht : t.introduces = false) (rest : List Token) :
    (t :: rest).head? ≠ some (plain ".") := by
  rintro ⟨⟩
  exact absurd ht (by decide)

theorem single {t : Token} (ht : t.introduces = false) : HasNames [t] [] :=
  ⟨head_ne_of_introduces ht _, fun _ hrest => namesAfter_cons ht hrest false⟩

/-- Words, operators and marks that have to do with no name. -/
theorem of_words : ∀ {ts : List Token}, ts.all (!·.introduces) → HasNames ts []
  | [], _ => nil
  | t :: ts, h => by
    rw [List.all_cons, Bool.and_eq_true, Bool.not_eq_true'] at h
    exact (single h.1).append (of_words h.2)

/-- A name after a word that introduces it. -/
theorem introduced {t u : Token} (ht : t ≠ plain ".") (hintro : t.introduces) {name : String}
    (hu : u.introduces = false) (hname : u.identifier? = some name) : HasNames [t, u] [name] where
  head_ne := fun h => ht (Option.some.inj h)
  namesAfter_append rest hrest := by
    have hhead : ((u :: rest).head? == some (plain ".")) = false :=
      beq_eq_false_iff_ne.2 (head_ne_of_introduces hu _)
    rw [List.cons_append, List.singleton_append, namesAfter, hhead, hintro,
      namesAfter_cons hu hrest, hname]
    rfl

/-- A column of a table. -/
theorem column (aliasName column : String) :
    HasNames [Identifier.token aliasName, plain ".", Identifier.token column]
      [aliasName, column] where
  head_ne := head_ne_of_introduces (introduces_token aliasName) _
  namesAfter_append rest hrest := by
    have hcolumn := introduces_token column
    have hhead : ((Identifier.token column :: rest).head? == some (plain ".")) = false :=
      beq_eq_false_iff_ne.2 (head_ne_of_introduces hcolumn rest)
    simp only [List.cons_append, List.nil_append]
    rw [namesAfter, introduces_token, identifier?_token, namesAfter, hhead,
      namesAfter_cons hcolumn hrest, identifier?_token]
    rfl

end HasNames

end Token

namespace Fragment

variable {d : Dialect} {f g : Fragment} {ns ms : List String}

theorem tokens_append (f g : Fragment) (n : Nat) :
    (f ++ g).tokens d n = f.tokens d n ++ g.tokens d (n + f.params.length) := by
  induction f generalizing n with
  | nil => rfl
  | cons p ps ih =>
    cases p with
    | word s => exact (congrArg _ (ih n)).trans (List.append_assoc ..).symm
    | name s => exact congrArg _ (ih n)
    | label s => exact congrArg _ (ih n)
    | param v =>
      have hlength : (params (.param v :: ps)).length = (params ps).length + 1 := rfl
      rw [List.cons_append, tokens, ih, tokens, hlength, ← Nat.add_assoc, Nat.add_right_comm,
        List.cons_append]

/-- A fragment that contains some names, whatever its placeholders are. -/
def HasNames (d : Dialect) (f : Fragment) (ns : List String) : Prop :=
  ∀ n, Token.HasNames (f.tokens d n) ns

namespace HasNames

theorem nil : HasNames d [] [] :=
  fun _ => .nil

theorem append (hf : HasNames d f ns) (hg : HasNames d g ms) : HasNames d (f ++ g) (ns ++ ms) :=
  fun n => tokens_append (d := d) f g n ▸ (hf n).append (hg _)

/-- A word of which nothing introduces a name. -/
theorem cons {w : String} (hw : (Token.scan w).all (!·.introduces)) (hf : HasNames d f ns) :
    HasNames d (.word w :: f) ns :=
  fun n => (Token.HasNames.of_words hw).append (hf n)

/-- A word that introduces a name, with the name. -/
theorem introduced {w t : String} (hw : Token.scan w = [.plain t]) (hdot : t ≠ ".")
    (ht : (Token.plain t).introduces) (name : String) :
    HasNames d [.word w, .name name] [name] := by
  intro n
  rw [tokens, hw]
  exact .introduced (fun h => hdot (Token.plain.inj h)) ht (Token.introduces_token name)
    (Token.identifier?_token name)

theorem column (aliasName c : String) :
    HasNames d (Fragment.column aliasName c) [aliasName, c] :=
  fun _ => Token.HasNames.column aliasName c

theorem param (v : Value) : HasNames d [.param v] [] := by
  refine fun n => .single ?_
  cases d with
  | postgresql =>
    -- No keyword starts with the sign of a placeholder.
    have hhead : ((Dialect.postgresql.placeholder n).toList.head? == some '$') = true := by
      simp [Dialect.placeholder]
    have hall : ∀ w ∈ ["FROM", "JOIN", "AS", "."], (w.toList.head? == some '$') = false := by decide
    rw [Token.introduces, List.contains_eq_mem, decide_eq_false_iff_not]
    exact fun hmem => Bool.false_ne_true ((hall _ hmem).symm.trans hhead)
  | mysql => rfl
  | sqlite => rfl

theorem flatMap {α : Type} {h : α → Fragment} {g : α → List String} :
    ∀ {as : List α}, (∀ a ∈ as, HasNames d (h a) (g a)) → HasNames d (as.flatMap h) (as.flatMap g)
  | [], _ => nil
  | a :: as, h => by
    rw [List.forall_mem_cons] at h
    exact h.1.append (flatMap h.2)

/-- Fragments with a word between them that introduces nothing. -/
theorem separated {α : Type} {h : α → Fragment} {g : α → List String} {w : String}
    (hw : (Token.scan w).all (!·.introduces)) :
    ∀ {as : List α}, (∀ a ∈ as, HasNames d (h a) (g a)) →
      HasNames d (Fragment.separated w (as.map h)) (as.flatMap g)
  | [], _ => nil
  | [a], h => by
    rw [List.flatMap_cons, List.flatMap_nil, List.append_nil]
    exact h a (List.mem_singleton_self a)
  | a :: b :: as, h => by
    rw [List.forall_mem_cons] at h
    exact h.1.append (.cons hw (separated hw h.2))

end HasNames

end Fragment

namespace Filter

mutual

/-- The names in a filter on the columns of the table with an alias, from left to right. -/
def names (aliasName : String) : Filter → List String
  | always => []
  | compare _ c _ => [aliasName, c]
  | member c vs => if vs.isEmpty then [] else [aliasName, c]
  | notMember c vs => if vs.isEmpty then [] else [aliasName, c]
  | like _ c _ => [aliasName, c]
  | isNull c => [aliasName, c]
  | isNotNull c => [aliasName, c]
  | all fs => namesAll aliasName fs
  | any fs => namesAll aliasName fs
  | negation f => names aliasName f

/-- The names in some filters, from left to right. -/
def namesAll (aliasName : String) : List Filter → List String
  | [] => []
  | f :: fs => names aliasName f ++ namesAll aliasName fs

end

theorem fragments_eq_map (aliasName : String) (fs : List Filter) :
    fragments aliasName fs = fs.map (fragment aliasName) := by
  induction fs with
  | nil => rfl
  | cons f fs ih => rw [fragments, ih, List.map_cons]

theorem namesAll_eq_flatMap (aliasName : String) (fs : List Filter) :
    namesAll aliasName fs = fs.flatMap (names aliasName) := by
  induction fs with
  | nil => rfl
  | cons f fs ih => rw [namesAll, ih, List.flatMap_cons]

open Fragment (HasNames)

variable {d : Dialect}

/-- A column with words and a parameter after it that have to do with no name. -/
theorem hasNames_column {f : Fragment} (hf : HasNames d f []) (aliasName c : String) :
    HasNames d (Fragment.column aliasName c ++ f) [aliasName, c] :=
  (HasNames.column aliasName c).append hf

theorem hasNames_compareFragment (aliasName : String) (op : Comparison) (c : String) (v : Value) :
    HasNames d (compareFragment aliasName op c v) [aliasName, c] := by
  cases op <;> cases hv : v.isNull <;> simp only [compareFragment, hv] <;>
    refine hasNames_column ?_ aliasName c <;>
    first
    | exact .cons rfl .nil
    | exact .cons rfl (.cons rfl (.cons rfl (.param v)))

theorem hasNames_memberFragment (aliasName c : String) {word empty : String}
    (hword : (Token.scan word).all (!·.introduces)) (hempty : (Token.scan empty).all (!·.introduces))
    (vs : List Value) : HasNames d (memberFragment aliasName c word empty vs)
      (if vs.isEmpty then [] else [aliasName, c]) := by
  rw [memberFragment]
  split
  · exact .cons hempty .nil
  · have hvalues : HasNames d (Fragment.separated ", " (vs.map fun v => [.param v]))
        (vs.flatMap fun _ => []) := .separated rfl fun v _ => .param v
    rw [List.flatMap_eq_nil_iff.2 fun _ _ => rfl] at hvalues
    exact hasNames_column (.cons hword (hvalues.append (.cons rfl .nil))) aliasName c

theorem hasNames_connective (aliasName : String) {word empty : String}
    (hword : (Token.scan word).all (!·.introduces)) (hempty : (Token.scan empty).all (!·.introduces))
    {fs : List Filter} (hfs : ∀ f ∈ fs, HasNames d (f.fragment aliasName) (f.names aliasName)) :
    HasNames d (connective word empty (fragments aliasName fs)) (namesAll aliasName fs) := by
  rw [connective, fragments_eq_map, namesAll_eq_flatMap]
  cases fs with
  | nil => exact .cons hempty .nil
  | cons f fs =>
    have hsep := (HasNames.separated hword hfs).append (.cons (w := ")") rfl .nil)
    rw [List.append_nil] at hsep
    exact .cons rfl hsep

mutual

/-- The names in the text of a filter. -/
theorem hasNames_fragment (aliasName : String) :
    ∀ f : Filter, HasNames d (f.fragment aliasName) (f.names aliasName)
  | always => .cons rfl .nil
  | compare op c v => hasNames_compareFragment aliasName op c v
  | member c vs => hasNames_memberFragment aliasName c rfl rfl vs
  | notMember c vs => hasNames_memberFragment aliasName c rfl rfl vs
  | like _ c _ => hasNames_column (.cons rfl (.param _)) aliasName c
  | isNull c => hasNames_column (.cons rfl .nil) aliasName c
  | isNotNull c => hasNames_column (.cons rfl .nil) aliasName c
  | all fs => hasNames_connective aliasName rfl rfl (hasNames_fragments aliasName fs)
  | any fs => hasNames_connective aliasName rfl rfl (hasNames_fragments aliasName fs)
  | negation f => by
    have hf := (hasNames_fragment aliasName f).append (.cons (w := ")") rfl .nil)
    rw [List.append_nil] at hf
    exact .cons rfl hf

theorem hasNames_fragments (aliasName : String) :
    ∀ fs : List Filter, ∀ f ∈ fs, HasNames d (f.fragment aliasName) (f.names aliasName)
  | [] => nofun
  | f :: fs => List.forall_mem_cons.2
      ⟨hasNames_fragment aliasName f, hasNames_fragments aliasName fs⟩

end

end Filter

open Fragment (HasNames)

/-- The names in a join, from left to right. -/
def Join.names (j : Join) : List String :=
  [j.table.table, j.aliasName, j.parentAlias, j.parentColumn, j.aliasName, j.column] ++
    j.filters.flatMap fun a => a.filter.names j.aliasName

theorem Join.hasNames_fragment {d : Dialect} (j : Join) : HasNames d j.fragment j.names := by
  have htable : HasNames d [.word " ", .word j.kind.keyword, .word " ", .name j.table.table]
      [j.table.table] := by
    intro n
    have hname := Token.HasNames.introduced (t := .plain "JOIN") (by decide) rfl
      (Token.introduces_token j.table.table) (Token.identifier?_token j.table.table)
    cases hk : j.kind with
    | inner => exact (Token.HasNames.single (t := .plain "INNER") rfl).append hname
    | left => exact (Token.HasNames.single (t := .plain "LEFT") rfl).append hname
  have halias : HasNames d [.word " AS ", .name j.aliasName] [j.aliasName] :=
    .introduced (t := "AS") rfl (by decide) rfl j.aliasName
  have hparent := (HasNames.column (d := d) j.parentAlias j.parentColumn).cons (w := " ON ") rfl
  have hkey := (HasNames.column (d := d) j.aliasName j.column).cons (w := " = ") rfl
  have hfilters : HasNames d
      (j.filters.flatMap fun a => .word " AND " :: a.filter.fragment j.aliasName)
      (j.filters.flatMap fun a => a.filter.names j.aliasName) :=
    .flatMap fun a _ => (a.filter.hasNames_fragment j.aliasName).cons rfl
  exact (((htable.append halias).append hparent).append hkey).append hfilters

namespace Statement

/-- The names in a statement, from left to right, a column being there with its table and its
    label. -/
def names (s : Statement) : List String :=
  (s.columns.flatMap fun c => [c.aliasName, c.column, c.label]) ++
    [s.root.table, s.root.aliasName] ++ s.joins.flatMap Join.names ++
    (s.predicates.flatMap fun p => p.filter.names p.aliasName) ++
    s.orderBy.flatMap fun o => [s.root.aliasName, o.column]

theorem hasNames_columnFragment {d : Dialect} (c : ColumnRef) :
    HasNames d (columnFragment c) [c.aliasName, c.column, c.label] := by
  have hlabel : HasNames d [.word " AS ", .label c.label] [c.label] := fun n =>
    .introduced (t := .plain "AS") (by decide) rfl rfl rfl
  exact (HasNames.column c.aliasName c.column).append hlabel

theorem hasNames_clause {d : Dialect} {α : Type} {h : α → Fragment} {g : α → List String}
    {keyword word : String} (hkeyword : (Token.scan keyword).all (!·.introduces))
    (hword : (Token.scan word).all (!·.introduces)) {as : List α}
    (has : ∀ a ∈ as, HasNames d (h a) (g a)) :
    HasNames d (clause keyword word (as.map h)) (as.flatMap g) := by
  cases as with
  | nil => exact .nil
  | cons a as => exact .cons hkeyword (.separated hword has)

/-- A number after a keyword is a token of its own. -/
theorem scan_number {keyword : String} (hend : (Piece.word keyword).endsApart)
    (hclear : (Piece.word keyword).isClear) (n : Nat) :
    Token.scan (keyword ++ n.repr) = Token.scan keyword ++ [.plain n.repr] := by
  have hdigits : ∀ c ∈ n.repr.toList, Token.kind c = .word :=
    fun c hc => Token.kind_of_isDigit (Token.isDigit_of_mem_repr hc)
  have hnil : Token.StartApart [] := nofun
  have hnumber := Token.Pending.scan_word (Token.toList_repr_ne_nil n) hdigits hnil
  rw [List.append_nil, String.ofList_toList] at hnumber
  have hquote := Piece.kind_ne_quote_of_isClear hclear
  rw [Piece.endsApart, Option.any_eq_true] at hend
  rw [Token.scan, String.toList_append,
    Token.Pending.IsOutside.scan_append (p := .nothing) trivial hquote (.inl hend), hnumber]
  rfl

theorem hasNames_numberClause {d : Dialect} (keyword : String)
    (hend : (Piece.word keyword).endsApart) (hclear : (Piece.word keyword).isClear)
    (hkeyword : (Token.scan keyword).all (!·.introduces)) (n : Option Nat) :
    HasNames d (numberClause keyword n) [] := by
  cases n with
  | none => exact .nil
  | some n =>
    refine .cons ?_ .nil
    have hnumber : (Token.plain n.repr).introduces = false := by
      have hall : ∀ w ∈ ["FROM", "JOIN", "AS", "."], ¬w.toList.all Char.isDigit := by decide
      rw [Token.introduces, List.contains_eq_mem, decide_eq_false_iff_not]
      exact fun hmem => Token.repr_ne (hall _ hmem) n rfl
    rw [scan_number hend hclear, List.all_append, hkeyword, List.all_cons, hnumber]
    rfl

theorem hasNames_fragment {d : Dialect} (s : Statement) : HasNames d s.fragment s.names := by
  have hcolumns : HasNames d
      (.word "SELECT " :: Fragment.separated ", " (s.columns.map columnFragment))
      (s.columns.flatMap fun c => [c.aliasName, c.column, c.label]) :=
    .cons rfl (.separated rfl fun c _ => hasNames_columnFragment c)
  have htable : HasNames d [.word " FROM ", .name s.root.table] [s.root.table] :=
    .introduced (t := "FROM") rfl (by decide) rfl _
  have halias : HasNames d [.word " AS ", .name s.root.aliasName] [s.root.aliasName] :=
    .introduced (t := "AS") rfl (by decide) rfl _
  have hjoins : HasNames d (s.joins.flatMap Join.fragment) (s.joins.flatMap Join.names) :=
    .flatMap fun j _ => j.hasNames_fragment
  have hpredicates : HasNames d
      (clause " WHERE " " AND " (s.predicates.map fun p => p.filter.fragment p.aliasName))
      (s.predicates.flatMap fun p => p.filter.names p.aliasName) :=
    hasNames_clause rfl rfl fun p _ => p.filter.hasNames_fragment p.aliasName
  have horder : HasNames d
      (clause " ORDER BY " ", " (s.orderBy.map (OrderBy.fragment s.root.aliasName)))
      (s.orderBy.flatMap fun o => [s.root.aliasName, o.column]) := by
    refine hasNames_clause rfl rfl fun o _ => Filter.hasNames_column ?_ s.root.aliasName o.column
    cases hd : o.direction <;> exact .cons rfl (.cons rfl .nil)
  have hlimit := hasNames_numberClause (d := d) " LIMIT " rfl rfl rfl s.limit
  have hoffset := hasNames_numberClause (d := d) " OFFSET " rfl rfl rfl s.offset
  have h := (((((hcolumns.append (htable.append halias)).append hjoins).append hpredicates).append
    horder).append hlimit).append hoffset
  rw [List.append_nil, List.append_nil] at h
  exact h

/-- The names of a statement are read off its text as they were given. -/
theorem names_scan_sqlText (s : Statement) (d : Dialect) :
    Token.names (Token.scan (s.sqlText d)) = s.names := by
  have hnames := (s.hasNames_fragment (d := d) 1).namesAfter_append [] nofun
  rw [List.append_nil] at hnames
  rw [sqlText, s.isSpaced_fragment.scan_text, Token.names, hnames, Token.namesAfter, List.append_nil]

end Statement

end EntityFetch
