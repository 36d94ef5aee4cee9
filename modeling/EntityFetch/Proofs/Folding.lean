import EntityFetch.Proofs.Alias
import EntityFetch.Proofs.Rendered
import EntityFetch.Fetch

/-!
# Names in small letters

PostgreSQL puts the capitals of a name that is not in quotes into small letters, and reads a name
in quotes as it is (`Token.folded?`). Whether a name is written in quotes does not depend on the
capitals in it though, so that a word with capitals is read as another name.

* `Identifier.read?_text`: what is read from a name as it is written.
* `Identifier.denoted_eq_iff`, `Identifier.denoted_inj_iff`: the names that are read as they are,
  and those that are told apart.
* `Statement.foldedNames_scan_sqlText`: from a statement the names in it are read, each as if it
  stood alone.
-/

namespace EntityFetch

namespace Token

/-- The name that PostgreSQL takes a token for. -/
def folded? : Token → Option String
  | quoted s => some s
  | plain s => (plain s).identifier?.map Identifier.lower

/-- The names that PostgreSQL finds among tokens, given whether the first one is introduced as a
    name. -/
def foldedNamesAfter (introduced : Bool) : List Token → List String
  | [] => []
  | t :: ts =>
    (if introduced || ts.head? == some (plain ".") then t.folded?.toList else []) ++
      foldedNamesAfter t.introduces ts

/-- The names that PostgreSQL finds among the tokens of a statement. -/
def foldedNames (ts : List Token) : List String :=
  foldedNamesAfter false ts

end Token

namespace Identifier

variable {name a b : String}

/-- The name that PostgreSQL reads from a text, if that is one. -/
def read? (s : String) : Option String :=
  match Token.scan s with
  | [t] => t.folded?
  | _ => none

/-- A name as it is read. -/
def denoted (name : String) : String :=
  if needsQuoting name then name else lower name

theorem folded?_token (name : String) : (token name).folded? = some (denoted name) := by
  have hname := Token.identifier?_token name
  rw [token] at hname ⊢
  rw [denoted]
  split
  · rfl
  · next hquote =>
    rw [if_neg hquote] at hname
    rw [Token.folded?, hname]
    rfl

/-- A name is read as its letters go if it has no quotes around it. -/
theorem read?_text (name : String) : read? (text name) = some (denoted name) := by
  have hend : Token.StartApart [] := nofun
  have hscan := scan_text name hend
  rw [List.append_nil] at hscan
  rw [read?, Token.scan, hscan]
  exact folded?_token name

example : read? (text "Id") = some "id" ∧ read? (text "Order") = some "Order" := by decide

/-! ### Capitals -/

section Capitals

variable {c : Char}

theorem isUpper_iff : c.isUpper ↔ 65 ≤ c.toNat ∧ c.toNat ≤ 90 :=
  decide_eq_true_iff.trans (and_congr UInt32.le_iff_toNat_le UInt32.le_iff_toNat_le)

theorem toNat_toLower (h : c.isUpper) : c.toLower.toNat = c.toNat + 32 := by
  have hbounds : c.val ≥ 'A'.val ∧ c.val ≤ 'Z'.val := of_decide_eq_true h
  have hval : c.toLower.val = c.val + ('a'.val - 'A'.val) := congrArg Char.val (dif_pos hbounds)
  have hoffset : ('a'.val - 'A'.val).toNat = 32 := rfl
  rw [isUpper_iff] at h
  rw [← Char.toNat_val, hval, UInt32.toNat_add, hoffset, Char.toNat_val]
  omega

theorem toLower_of_not_isUpper (h : ¬c.isUpper) : c.toLower = c :=
  dif_neg fun hbounds => h (decide_eq_true hbounds)

/-- Only capitals are changed. -/
theorem toLower_eq_iff : c.toLower = c ↔ ¬c.isUpper := by
  refine ⟨fun h hupper => ?_, toLower_of_not_isUpper⟩
  have hsmall := toNat_toLower hupper
  rw [h] at hsmall
  omega

theorem toLower_toLower (c : Char) : c.toLower.toLower = c.toLower := by
  by_cases hupper : c.isUpper
  · refine toLower_of_not_isUpper fun hsmall => ?_
    have hbounds := isUpper_iff.1 hsmall
    rw [toNat_toLower hupper] at hbounds
    rw [isUpper_iff] at hupper
    omega
  · rw [toLower_of_not_isUpper hupper, toLower_of_not_isUpper hupper]

theorem isDigit_toLower (c : Char) : c.toLower.isDigit = c.isDigit := by
  by_cases hupper : c.isUpper
  · rw [Bool.eq_iff_iff, Char.isDigit_iff_toNat, Char.isDigit_iff_toNat, toNat_toLower hupper]
    rw [isUpper_iff] at hupper
    have hnine : '9'.toNat = 57 := rfl
    omega
  · rw [toLower_of_not_isUpper hupper]

theorem isWordChar_toLower (c : Char) : isWordChar c.toLower = isWordChar c := by
  by_cases hupper : c.isUpper
  · have hsmall : (c.toLower.isLower || c.toLower.isDigit || c.toLower == '_') = true :=
      isPlainChar_toLower hupper
    -- Capitals are the first of the classes of which word characters are.
    have hword : isWordChar c := by
      change (((c.isUpper || c.isLower) || c.isDigit) || c == '_') = true
      rw [hupper]
      rfl
    have hlower : isWordChar c.toLower := by
      change (((c.toLower.isUpper || c.toLower.isLower) || c.toLower.isDigit) ||
        c.toLower == '_') = true
      rw [Bool.or_assoc c.toLower.isUpper, Bool.or_assoc c.toLower.isUpper, hsmall, Bool.or_true]
    rw [hword, hlower]
  · rw [toLower_of_not_isUpper hupper]

end Capitals

theorem toList_lower (name : String) : (lower name).toList = name.toList.map Char.toLower :=
  String.toList_ofList

/-- The names without capitals. -/
theorem lower_eq_self_iff : lower name = name ↔ ∀ c ∈ name.toList, ¬c.isUpper := by
  rw [← String.toList_inj, toList_lower]
  conv_lhs => rhs; rw [← List.map_id name.toList]
  rw [List.map_inj_left]
  exact forall₂_congr fun c _ => toLower_eq_iff

theorem lower_lower (name : String) : lower (lower name) = lower name := by
  rw [← String.toList_inj, toList_lower, toList_lower, List.map_map]
  exact List.map_congr_left fun c _ => toLower_toLower c

/-- Capitals have no part in whether a name has to be quoted. -/
theorem needsQuoting_lower (name : String) : needsQuoting (lower name) = needsQuoting name := by
  have hempty : (lower name).toList.isEmpty = name.toList.isEmpty := by
    rw [toList_lower, List.isEmpty_map]
  have hdigit : (lower name).toList.head?.any Char.isDigit = name.toList.head?.any Char.isDigit := by
    rw [toList_lower, List.head?_map, Option.any_map]
    exact congrArg (name.toList.head?.any ·) (funext isDigit_toLower)
  have hword : (lower name).toList.all isWordChar = name.toList.all isWordChar := by
    rw [toList_lower, List.all_map]
    exact congrArg (name.toList.all ·) (funext isWordChar_toLower)
  rw [needsQuoting, needsQuoting, lower_lower, hempty, hdigit, hword]

/-! ### What is read of names -/

/-- The names that are read as they are. -/
theorem denoted_eq_iff :
    denoted name = name ↔ needsQuoting name ∨ ∀ c ∈ name.toList, ¬c.isUpper := by
  rw [denoted]
  split
  · next hquote => simp [hquote]
  · next hquote => simp [hquote, lower_eq_self_iff]

/-- Whether a name has to be quoted stays the same when it is read. -/
theorem needsQuoting_denoted (name : String) : needsQuoting (denoted name) = needsQuoting name := by
  rw [denoted]
  split
  · rfl
  · exact needsQuoting_lower name

/-- The names that are told apart: all but words that differ in their capitals alone. -/
theorem denoted_inj_iff :
    denoted a = denoted b ↔
      a = b ∨ (needsQuoting a = false ∧ needsQuoting b = false ∧ lower a = lower b) := by
  constructor
  · intro h
    -- A name in quotes is never read as a word without them is.
    have hquote : needsQuoting a = needsQuoting b := by
      rw [← needsQuoting_denoted a, h, needsQuoting_denoted]
    rw [denoted, denoted, hquote] at h
    cases hb : needsQuoting b with
    | true =>
      rw [hb] at h
      exact .inl h
    | false =>
      rw [hb] at h
      exact .inr ⟨hquote.trans hb, rfl, h⟩
  · rintro (rfl | ⟨ha, hb, h⟩)
    · rfl
    · rw [denoted, denoted, ha, hb]
      exact h

end Identifier

/-! ### What is read of statements -/

namespace Token

/-- Whether a token is no name, or one that is in quotes just if it has to be. -/
def isProper (t : Token) : Bool :=
  t.identifier?.all fun name => decide (t = Identifier.token name)

theorem isProper_token (name : String) : (Identifier.token name).isProper := by
  rw [isProper, identifier?_token]
  exact decide_eq_true rfl

theorem isProper_quoted {name : String} (h : Identifier.needsQuoting name) :
    (quoted name).isProper := by
  have htoken := isProper_token name
  rwa [Identifier.token, if_pos h] at htoken

/-- Signs and numbers are no names. -/
theorem isProper_of_identifier?_eq_none {t : Token} (h : t.identifier? = none) : t.isProper := by
  rw [isProper, h]
  rfl

theorem folded?_of_isProper {t : Token} (h : t.isProper) :
    t.folded? = t.identifier?.map Identifier.denoted := by
  cases hname : t.identifier? with
  | none =>
    cases t with
    | plain s => rw [folded?, hname]; rfl
    | quoted s => exact nomatch hname
  | some name =>
    rw [isProper, hname] at h
    rw [of_decide_eq_true h, Identifier.folded?_token]
    rfl

/-- Among proper tokens the names are found as they are read alone. -/
theorem foldedNamesAfter_eq {ts : List Token} (h : ts.all isProper) (introduced : Bool) :
    foldedNamesAfter introduced ts = (namesAfter introduced ts).map Identifier.denoted := by
  induction ts generalizing introduced with
  | nil => rfl
  | cons t ts ih =>
    rw [List.all_cons, Bool.and_eq_true] at h
    rw [foldedNamesAfter, namesAfter, List.map_append, ih h.2, folded?_of_isProper h.1]
    congr 1
    split
    · cases t.identifier? <;> rfl
    · rfl

end Token

/-- Whether all tokens of a piece are proper. -/
def Piece.isProper : Piece → Bool
  | word s => (Token.scan s).all Token.isProper
  | name _ => true
  | label s => Identifier.needsQuoting s
  | param _ => true

namespace Fragment

variable {d : Dialect} {f : Fragment}

theorem isProper_placeholder (d : Dialect) (n : Nat) :
    (Token.plain (d.placeholder n)).isProper := by
  have hmark : (Token.plain "?").isProper := by decide
  cases d with
  | postgresql =>
    -- a number with a sign before it is no word
    have hword : (Dialect.postgresql.placeholder n).toList.all Identifier.isWordChar = false := by
      have hsign : Identifier.isWordChar '$' = false := by decide
      simp [Dialect.placeholder, hsign]
    refine Token.isProper_of_identifier?_eq_none ?_
    simp [Token.identifier?, hword]
  | mysql => exact hmark
  | sqlite => exact hmark

theorem isProper_tokens (h : f.all Piece.isProper) (n : Nat) :
    (f.tokens d n).all Token.isProper := by
  induction f generalizing n with
  | nil => rfl
  | cons p ps ih =>
    rw [List.all_cons, Bool.and_eq_true] at h
    cases p with
    | word s => rw [tokens, List.all_append, ih h.2, Bool.and_true]; exact h.1
    | name s => rw [tokens, List.all_cons, ih h.2, Bool.and_true]; exact Token.isProper_token s
    | label s => rw [tokens, List.all_cons, ih h.2, Bool.and_true]; exact Token.isProper_quoted h.1
    | param v =>
      rw [tokens, List.all_cons, ih h.2, Bool.and_true]
      exact isProper_placeholder d n

theorem all_isProper_separated {w : String} (hw : (Piece.word w).isProper) :
    ∀ {fs : List Fragment}, (∀ f ∈ fs, f.all Piece.isProper) → (separated w fs).all Piece.isProper
  | [], _ => rfl
  | [f], h => h f (List.mem_singleton_self f)
  | f :: g :: fs, h => by
    rw [List.forall_mem_cons] at h
    rw [separated, List.all_append, h.1, List.all_cons, hw, all_isProper_separated hw h.2]
    rfl

end Fragment

namespace Filter

open Fragment (all_isProper_separated)

theorem all_isProper_compareFragment (aliasName : String) (op : Comparison) (c : String)
    (v : Value) : (compareFragment aliasName op c v).all Piece.isProper := by
  cases op <;> cases hv : v.isNull <;> simp only [compareFragment, hv] <;> rfl

theorem all_isProper_memberFragment (aliasName c : String) {word empty : String}
    (hword : (Piece.word word).isProper) (hempty : (Piece.word empty).isProper) (vs : List Value) :
    (memberFragment aliasName c word empty vs).all Piece.isProper := by
  have hvalues : (Fragment.separated ", " (vs.map fun v => [.param v])).all Piece.isProper := by
    refine all_isProper_separated rfl fun f hf => ?_
    obtain ⟨v, -, rfl⟩ := List.mem_map.1 hf
    rfl
  rw [memberFragment]
  split
  · rw [List.all_cons, hempty]
    rfl
  · rw [List.all_append, List.all_cons, hword, List.all_append, hvalues]
    rfl

theorem all_isProper_connective {word empty : String} (hword : (Piece.word word).isProper)
    (hempty : (Piece.word empty).isProper) {fs : List Fragment}
    (hfs : ∀ f ∈ fs, f.all Piece.isProper) : (connective word empty fs).all Piece.isProper := by
  rw [connective]
  split
  · rw [List.all_cons, hempty]
    rfl
  · rw [List.cons_append, List.all_cons, List.all_append, all_isProper_separated hword hfs]
    rfl

mutual

theorem all_isProper_fragment (aliasName : String) :
    ∀ f : Filter, (f.fragment aliasName).all Piece.isProper
  | always => rfl
  | compare op c v => all_isProper_compareFragment aliasName op c v
  | member c vs => all_isProper_memberFragment aliasName c rfl rfl vs
  | notMember c vs => all_isProper_memberFragment aliasName c rfl rfl vs
  | like _ _ _ => rfl
  | isNull _ => rfl
  | isNotNull _ => rfl
  | all fs => all_isProper_connective rfl rfl (all_isProper_fragments aliasName fs)
  | any fs => all_isProper_connective rfl rfl (all_isProper_fragments aliasName fs)
  | negation f => by
    rw [fragment, List.cons_append, List.all_cons, List.all_append, all_isProper_fragment]
    rfl

theorem all_isProper_fragments (aliasName : String) :
    ∀ fs : List Filter, ∀ f ∈ fragments aliasName fs, f.all Piece.isProper
  | [] => nofun
  | f :: fs => List.forall_mem_cons.2
      ⟨all_isProper_fragment aliasName f, all_isProper_fragments aliasName fs⟩

end

end Filter

theorem Join.all_isProper_fragment (j : Join) : j.fragment.all Piece.isProper := by
  have hkind : (Piece.word j.kind.keyword).isProper := by cases j.kind <;> rfl
  have hfilters : (j.filters.flatMap fun a =>
      .word " AND " :: a.filter.fragment j.aliasName).all Piece.isProper := by
    rw [List.all_flatMap, List.all_eq_true]
    exact fun a _ => (List.all_cons ..).trans (a.filter.all_isProper_fragment j.aliasName)
  rw [fragment, List.all_append, hfilters, Bool.and_true, List.all_append, List.all_append]
  simp only [List.all_cons, hkind]
  rfl

/-- A label has a dot and is hence in quotes like a name would be. -/
theorem ColumnRef.needsQuoting_label (c : ColumnRef) : Identifier.needsQuoting c.label := by
  have hdot : Identifier.isWordChar '.' = false := by decide
  have hword : c.label.toList.all Identifier.isWordChar = false := by simp [label, hdot]
  simp [Identifier.needsQuoting, hword]

namespace Statement

open Fragment (all_isProper_separated)

theorem all_isProper_clause (keyword word : String) (hkeyword : (Piece.word keyword).isProper)
    (hword : (Piece.word word).isProper) {fs : List Fragment}
    (hfs : ∀ f ∈ fs, f.all Piece.isProper) : (clause keyword word fs).all Piece.isProper := by
  rw [clause]
  split
  · rfl
  · rw [List.all_cons, hkeyword, all_isProper_separated hword hfs]
    rfl

theorem isProper_repr (n : Nat) : (Token.plain n.repr).isProper := by
  have hdigit : n.repr.toList.head?.any Char.isDigit := by
    rw [List.head?_eq_some_head (Token.toList_repr_ne_nil n)]
    exact Token.isDigit_of_mem_repr (List.head_mem _)
  refine Token.isProper_of_identifier?_eq_none (if_pos ?_)
  rw [hdigit, Bool.or_true, Bool.true_or, Bool.true_or]

theorem all_isProper_numberClause (keyword : String) (hend : (Piece.word keyword).endsApart)
    (hclear : (Piece.word keyword).isClear) (hkeyword : (Piece.word keyword).isProper)
    (n : Option Nat) : (numberClause keyword n).all Piece.isProper := by
  cases n with
  | none => rfl
  | some n =>
    have hword : (Token.scan keyword).all Token.isProper := hkeyword
    rw [numberClause, List.all_cons, Piece.isProper, scan_number hend hclear, List.all_append,
      hword, List.all_cons, isProper_repr]
    rfl

theorem all_isProper_columnFragment (c : ColumnRef) :
    (columnFragment c).all Piece.isProper := by
  have hlabel : (Piece.label c.label).isProper := c.needsQuoting_label
  rw [columnFragment, List.all_append, List.all_cons, List.all_cons, hlabel]
  rfl

theorem all_isProper_orderBy (aliasName : String) (o : OrderBy) :
    (o.fragment aliasName).all Piece.isProper := by
  rw [OrderBy.fragment]
  cases o.direction <;> rfl

theorem all_isProper_fragment (s : Statement) : s.fragment.all Piece.isProper := by
  have hcolumns : (Fragment.separated ", " (s.columns.map columnFragment)).all Piece.isProper :=
    all_isProper_separated rfl (List.forall_mem_map.2 fun c _ => all_isProper_columnFragment c)
  have hjoins : (s.joins.flatMap Join.fragment).all Piece.isProper := by
    rw [List.all_flatMap, List.all_eq_true]
    exact fun j _ => j.all_isProper_fragment
  have hpredicates := all_isProper_clause " WHERE " " AND " rfl rfl
    (List.forall_mem_map.2 fun p (_ : p ∈ s.predicates) =>
      p.filter.all_isProper_fragment p.aliasName)
  have horder := all_isProper_clause " ORDER BY " ", " rfl rfl
    (List.forall_mem_map.2 fun o (_ : o ∈ s.orderBy) =>
      all_isProper_orderBy s.root.aliasName o)
  have hlimit := all_isProper_numberClause " LIMIT " rfl rfl rfl s.limit
  have hoffset := all_isProper_numberClause " OFFSET " rfl rfl rfl s.offset
  rw [fragment, List.all_append, List.all_append, List.all_append, List.all_append,
    List.all_append, List.cons_append, List.all_cons, List.all_append, hcolumns, hjoins,
    hpredicates, horder, hlimit, hoffset]
  rfl

/-- The names in a statement are each read as if it stood alone. -/
theorem foldedNames_scan_sqlText (s : Statement) (d : Dialect) :
    Token.foldedNames (Token.scan (s.sqlText d)) = s.names.map Identifier.denoted := by
  have hproper := Fragment.isProper_tokens (d := d) s.all_isProper_fragment 1
  rw [← s.names_scan_sqlText d, sqlText, s.isSpaced_fragment.scan_text]
  exact Token.foldedNamesAfter_eq hproper false

end Statement

/-! ### Names that are lost -/

namespace Identifier

/-- A name is read as it is if it is in quotes or has no capitals, two names are told apart
    unless they are words that differ in their capitals alone, and so are names in statements. -/
theorem read?_text_iff (a b : String) (s : Statement) (d : Dialect) :
    (read? (text a) = some a ↔ needsQuoting a ∨ ∀ c ∈ a.toList, ¬c.isUpper) ∧
      (read? (text a) = read? (text b) ↔
        a = b ∨ (needsQuoting a = false ∧ needsQuoting b = false ∧ lower a = lower b)) ∧
      (Token.foldedNames (Token.scan (s.sqlText d))).map some =
        s.names.map fun name => read? (text name) := by
  refine ⟨?_, ?_, ?_⟩
  · rw [read?_text, Option.some_inj, denoted_eq_iff]
  · rw [read?_text, read?_text, Option.some_inj, denoted_inj_iff]
  · rw [s.foldedNames_scan_sqlText, List.map_map]
    exact List.map_congr_left fun name _ => (read?_text name).symm

end Identifier

/-- A device has a number, and another one that its maker gave it. -/
def deviceDecl : EntityDecl :=
  ({ name := "Device", table := "devices" } : EntityDecl).addColumns ["Id"]

namespace Planner

/-- Both numbers of a device are read from the same column. -/
theorem folded_devices :
    ∃ catalog c cs, Catalog.build [deviceDecl] = .ok catalog ∧
      compile ⟨catalog, {}, {}⟩ "Device" [] {} = .ok c ∧ c.statement? 0 = some cs ∧
      cs.statement.columns.map ColumnRef.column = ["id", "Id"] ∧
      Identifier.read? (Identifier.text "Id") = some "id" ∧
      Token.foldedNames (Token.scan cs.statement.text) =
        ["device", "id", "device.id", "device", "id", "device.Id", "devices", "device"] := by
  obtain ⟨catalog, hbuild, c, hc, cs, hcs, hcolumns, hnames⟩ :
      ∃ catalog, Catalog.build [deviceDecl] = .ok catalog ∧
      ∃ c, compile ⟨catalog, {}, {}⟩ "Device" [] {} = .ok c ∧
      ∃ cs, c.statement? 0 = some cs ∧ cs.statement.columns.map ColumnRef.column = ["id", "Id"] ∧
        cs.statement.names = ["device", "id", "device.id", "device", "Id", "device.Id", "devices",
          "device"] := ⟨_, rfl, _, rfl, _, rfl, rfl, rfl⟩
  refine ⟨catalog, c, cs, hbuild, hc, hcs, hcolumns, by decide, ?_⟩
  rw [Statement.text, Statement.foldedNames_scan_sqlText, hnames]
  decide

end Planner

end EntityFetch
