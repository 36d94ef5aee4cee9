import EntityFetch.Proofs.Clauses
import EntityFetch.Proofs.Partition
import EntityFetch.Proofs.Prepare
import Mathlib.Computability.Language

/-!
# The grammar of statements

Which texts a database takes for a statement that reads rows, as a grammar of tokens
(`Grammar.statement`). The databases agree on all of it but two things: how a placeholder is
written, and what may stand at the end. There PostgreSQL takes `LIMIT` and `OFFSET` each by
itself, while MySQL and SQLite take an `OFFSET` only after a `LIMIT` (`Grammar.rowLimit`).

The text of a statement is made from parts that are there or not, each without regard to the
others. What is read of each part is in the language of that part, whatever its placeholders
are (`Fragment.Derives`), and so is what is read of them one after the other
(`Fragment.Derives.append`). That leaves one combination, which not every database reads.

* `Statement.scan_sqlText_mem_iff`: of the statements that read a column, those are in the
  grammar of a database that have a limit or no offset, and for PostgreSQL all;
* `Planner.scan_sqlText_mem_iff_of_compile`: which of the compiled statements these are.
-/

namespace EntityFetch

open scoped Computability

/-! ### The grammar -/

namespace Grammar

/-- A single word, operator or mark. -/
def word (s : String) : Language Token :=
  {[.plain s]}

/-- A name of a table, a column or a label. -/
def name : Language Token :=
  {ts | ∃ t : Token, t.identifier?.isSome ∧ ts = [t]}

/-- A number in decimals. -/
def number : Language Token :=
  {ts | ∃ n : Nat, ts = [.plain n.repr]}

/-- A placeholder as a database has it. -/
def placeholder (d : Dialect) : Language Token :=
  {ts | ∃ n, ts = [.plain (d.placeholder n)]}

/-- Members of a language with a word between them, at least one. -/
def list (separator : String) (L : Language Token) : Language Token :=
  L * (word separator * L)∗

/-- A column of a table. -/
def column : Language Token :=
  name * word "." * name

/-- A column that is read, with its label. -/
def item : Language Token :=
  column * word "AS" * name

/-- A table with its alias. -/
def table : Language Token :=
  name * word "AS" * name

/-- The operator of a comparison. -/
def operator : Language Token :=
  {ts | ∃ op : Comparison, ts = [.plain op.operator]}

/-- What may be said of a column. -/
def said (d : Dialect) : Language Token :=
  operator * (column + placeholder d) +
    word "IS" * (1 + word "NOT") * word "NULL" +
    word "LIKE" * placeholder d +
    (1 + word "NOT") * word "IN" * word "(" * list "," (placeholder d) * word ")"

/-- A condition without connectives. -/
def predicate (d : Dialect) : Language Token :=
  word "TRUE" + word "FALSE" + column * said d

/-- What is read as a condition. -/
inductive IsCondition (d : Dialect) : List Token → Prop where
  | predicate {ts : List Token} : ts ∈ predicate d → IsCondition d ts
  | brackets {ts : List Token} : IsCondition d ts →
    IsCondition d (.plain "(" :: ts ++ [.plain ")"])
  | not {ts : List Token} : IsCondition d ts → IsCondition d (.plain "NOT" :: ts)
  | and {ts us : List Token} : IsCondition d ts → IsCondition d us →
    IsCondition d (ts ++ .plain "AND" :: us)
  | or {ts us : List Token} : IsCondition d ts → IsCondition d us →
    IsCondition d (ts ++ .plain "OR" :: us)

/-- A condition. -/
def condition (d : Dialect) : Language Token :=
  {ts | IsCondition d ts}

/-- A join of a table. -/
def join (d : Dialect) : Language Token :=
  (word "INNER" + word "LEFT") * word "JOIN" * table * (word "ON" * condition d)

/-- An ordering by a column. -/
def ordering : Language Token :=
  column * (word "ASC" + word "DESC")

/-- What may stand at the end: how many rows are wanted, and how many are left out. -/
def rowLimit : Dialect → Language Token
  | .postgresql => (1 + word "LIMIT" * number) * (1 + word "OFFSET" * number)
  | .mysql | .sqlite => 1 + word "LIMIT" * number * (1 + word "OFFSET" * number)

/-- A statement up to its end. -/
def body (d : Dialect) : Language Token :=
  word "SELECT" * list "," item * (word "FROM" * table) * (join d)∗ *
    (1 + word "WHERE" * condition d) * (1 + word "ORDER" * word "BY" * list "," ordering)

/-- A statement that reads rows. -/
def statement (d : Dialect) : Language Token :=
  body d * rowLimit d

end Grammar

/-! ### What fragments derive -/

namespace Fragment

variable {d : Dialect} {f g : Fragment} {L M : Language Token} {w s : String}

/-- A fragment of which the tokens are in a language, whatever its placeholders are. -/
def Derives (d : Dialect) (f : Fragment) (L : Language Token) : Prop :=
  ∀ n, f.tokens d n ∈ L

namespace Derives

theorem nil : Derives d [] 1 :=
  fun _ => Language.nil_mem_one

theorem append (hf : Derives d f L) (hg : Derives d g M) : Derives d (f ++ g) (L * M) :=
  fun n => tokens_append (d := d) f g n ▸ Language.append_mem_mul (hf n) (hg _)

theorem left (hf : Derives d f L) : Derives d f (L + M) :=
  fun n => .inl (hf n)

theorem right (hf : Derives d f M) : Derives d f (L + M) :=
  fun n => .inr (hf n)

/-- A word of which the tokens are in the language. -/
theorem of_scan (hw : Token.scan w ∈ L) : Derives d [.word w] L := by
  intro n
  rw [tokens, tokens, List.append_nil]
  exact hw

/-- A word that is read as one token. -/
theorem word (hw : Token.scan w = [.plain s]) : Derives d [.word w] (Grammar.word s) :=
  of_scan hw

theorem cons (hw : Token.scan w = [.plain s]) (hf : Derives d f L) :
    Derives d (.word w :: f) (Grammar.word s * L) :=
  (word hw).append hf

theorem name (s : String) : Derives d [.name s] Grammar.name :=
  fun _ => ⟨_, Option.isSome_of_eq_some (Token.identifier?_token s), rfl⟩

theorem label (s : String) : Derives d [.label s] Grammar.name :=
  fun _ => ⟨.quoted s, rfl, rfl⟩

theorem param (v : Value) : Derives d [.param v] (Grammar.placeholder d) :=
  fun n => ⟨n, rfl⟩

theorem column (aliasName c : String) : Derives d (Fragment.column aliasName c) Grammar.column :=
  ((name aliasName).append (word rfl)).append (name c)

theorem flatMap {α : Type} {h : α → Fragment} :
    ∀ {as : List α}, (∀ a ∈ as, Derives d (h a) L) → Derives d (as.flatMap h) L∗
  | [], _ => fun _ => Language.nil_mem_kstar L
  | a :: as, hall => by
    rw [List.forall_mem_cons] at hall
    rw [← Language.one_add_self_mul_kstar_eq_kstar]
    exact right (hall.1.append (flatMap hall.2))

/-- Fragments with a word between them, at least one. -/
theorem separated (hw : Token.scan w = [.plain s]) {fs : List Fragment} (hne : fs ≠ [])
    (hfs : ∀ f ∈ fs, Derives d f L) : Derives d (Fragment.separated w fs) (Grammar.list s L) := by
  obtain ⟨f, fs, rfl⟩ := List.exists_cons_of_ne_nil hne
  rw [List.forall_mem_cons] at hfs
  rw [separated_cons]
  exact hfs.1.append (flatMap fun g hg => cons hw (hfs.2 g hg))

/-- Blanks make no difference. -/
theorem blank (hw : Token.scan w = []) (hf : Derives d f L) : Derives d (.word w :: f) L := by
  intro n
  rw [tokens, hw]
  exact hf n

/-- Conditions with a connective between them, at least one. -/
theorem connected (hw : Token.scan w = [.plain s])
    (hs : ∀ {ts us : List Token}, Grammar.IsCondition d ts → Grammar.IsCondition d us →
      Grammar.IsCondition d (ts ++ .plain s :: us)) :
    ∀ {fs : List Fragment}, fs ≠ [] → (∀ f ∈ fs, Derives d f (Grammar.condition d)) →
      Derives d (Fragment.separated w fs) (Grammar.condition d)
  | [], hne, _ => absurd rfl hne
  | [f], _, hfs => hfs f (List.mem_singleton_self f)
  | f :: g :: fs, _, hfs => by
    rw [List.forall_mem_cons] at hfs
    intro n
    rw [Fragment.separated, tokens_append, tokens, hw]
    exact hs (hfs.1 n) (connected hw hs (List.cons_ne_nil g fs) hfs.2 _)

theorem brackets (hf : Derives d f (Grammar.condition d)) :
    Derives d (.word "(" :: f ++ [.word ")"]) (Grammar.condition d) := by
  intro n
  rw [List.cons_append, tokens, tokens_append]
  exact .brackets (hf n)

theorem not (hf : Derives d f (Grammar.condition d)) :
    Derives d (.word "NOT (" :: f ++ [.word ")"]) (Grammar.condition d) := by
  intro n
  rw [List.cons_append, tokens, tokens_append]
  exact .not (.brackets (hf n))

/-- What is said of a column is a condition. -/
theorem said (hf : Derives d f (Grammar.said d)) (aliasName c : String) :
    Derives d (Fragment.column aliasName c ++ f) (Grammar.condition d) :=
  fun n => .predicate (.inr ((column aliasName c).append hf n))

theorem constant (hw : Token.scan w = [.plain s]) (hs : s = "TRUE" ∨ s = "FALSE") :
    Derives d [.word w] (Grammar.condition d) := by
  refine fun n => .predicate (.inl ?_)
  rcases hs with rfl | rfl
  · exact .inl (word hw n)
  · exact .inr (word hw n)

end Derives

end Fragment

/-! ### Filters -/

namespace Filter

open Fragment

variable {d : Dialect}

theorem derives_compareFragment (aliasName : String) (op : Comparison) (c : String) (v : Value) :
    Derives d (compareFragment aliasName op c v) (Grammar.condition d) := by
  have hnull : Derives d [.word " IS NULL"] (Grammar.said d) :=
    .left (.left (.right (.of_scan ⟨_, ⟨_, rfl, _, .inl rfl, rfl⟩, _, rfl, rfl⟩)))
  have hnotNull : Derives d [.word " IS NOT NULL"] (Grammar.said d) :=
    .left (.left (.right (.of_scan ⟨_, ⟨_, rfl, _, .inr rfl, rfl⟩, _, rfl, rfl⟩)))
  have hcompare (op : Comparison) :
      Derives d [.word " ", .word op.operator, .word " ", .param v] (Grammar.said d) := by
    have hoperator : Derives d [.word op.operator] Grammar.operator := by
      refine .of_scan ⟨op, ?_⟩
      cases op <;> rfl
    exact .left (.left (.left (.blank rfl (hoperator.append (.blank rfl (.right (.param v)))))))
  cases op <;> cases hv : v.isNull <;> simp only [compareFragment, hv]
  case eq.true => exact hnull.said aliasName c
  case ne.true => exact hnotNull.said aliasName c
  all_goals exact (hcompare _).said aliasName c

theorem derives_memberFragment (aliasName c : String) {word empty : String}
    (hword : Token.scan word ∈ (1 + Grammar.word "NOT") * Grammar.word "IN" * Grammar.word "(")
    (hempty : Token.scan empty = [.plain "TRUE"] ∨ Token.scan empty = [.plain "FALSE"])
    (vs : List Value) :
    Derives d (memberFragment aliasName c word empty vs) (Grammar.condition d) := by
  cases vs with
  | nil =>
    rcases hempty with hempty | hempty
    · exact .constant hempty (.inl rfl)
    · exact .constant hempty (.inr rfl)
  | cons v vs =>
    have hvalues : Derives d (Fragment.separated ", " ((v :: vs).map fun v => [.param v]))
        (Grammar.list "," (Grammar.placeholder d)) :=
      .separated rfl (List.cons_ne_nil _ _) (List.forall_mem_map.2 fun v _ => .param v)
    exact ((((Derives.of_scan hword).append hvalues).append (.word rfl)).right).said aliasName c

theorem derives_connective {word empty s : String} (hword : Token.scan word = [.plain s])
    (hs : ∀ {ts us : List Token}, Grammar.IsCondition d ts → Grammar.IsCondition d us →
      Grammar.IsCondition d (ts ++ .plain s :: us))
    (hempty : Token.scan empty = [.plain "TRUE"] ∨ Token.scan empty = [.plain "FALSE"])
    {fs : List Fragment} (hfs : ∀ f ∈ fs, Derives d f (Grammar.condition d)) :
    Derives d (connective word empty fs) (Grammar.condition d) := by
  cases fs with
  | nil =>
    rcases hempty with hempty | hempty
    · exact .constant hempty (.inl rfl)
    · exact .constant hempty (.inr rfl)
  | cons f fs => exact (Derives.connected hword hs (List.cons_ne_nil f fs) hfs).brackets

mutual

/-- A filter is a condition, empty lists and connectives of nothing included. -/
theorem derives_fragment (aliasName : String) :
    ∀ f : Filter, Derives d (f.fragment aliasName) (Grammar.condition d)
  | always => .constant rfl (.inl rfl)
  | compare op c v => derives_compareFragment aliasName op c v
  | member c vs => derives_memberFragment aliasName c
      ⟨_, ⟨_, .inl rfl, _, rfl, rfl⟩, _, rfl, rfl⟩ (.inr rfl) vs
  | notMember c vs => derives_memberFragment aliasName c
      ⟨_, ⟨_, .inr rfl, _, rfl, rfl⟩, _, rfl, rfl⟩ (.inl rfl) vs
  | like p c v => .said (.left (.right (.cons rfl (.param (p.pattern v))))) aliasName c
  | isNull c => derives_compareFragment aliasName .eq c .null
  | isNotNull c => derives_compareFragment aliasName .ne c .null
  | all fs => derives_connective rfl .and (.inl rfl) (derives_fragments aliasName fs)
  | any fs => derives_connective rfl .or (.inr rfl) (derives_fragments aliasName fs)
  | negation f => (derives_fragment aliasName f).not

theorem derives_fragments (aliasName : String) :
    ∀ fs : List Filter, ∀ f ∈ fragments aliasName fs, Derives d f (Grammar.condition d)
  | [] => nofun
  | f :: fs => List.forall_mem_cons.2
      ⟨derives_fragment aliasName f, derives_fragments aliasName fs⟩

end

end Filter

/-! ### Statements -/

namespace Statement

open Fragment

variable {d : Dialect}

theorem derives_join (j : Join) : Derives d j.fragment (Grammar.join d) := by
  have hkind : Derives d [.word " ", .word j.kind.keyword, .word " "]
      ((Grammar.word "INNER" + Grammar.word "LEFT") * Grammar.word "JOIN") := by
    have hscan : Token.scan j.kind.keyword ∈
        (Grammar.word "INNER" + Grammar.word "LEFT") * Grammar.word "JOIN" := by
      cases j.kind with
      | inner => exact ⟨_, .inl rfl, _, rfl, rfl⟩
      | left => exact ⟨_, .inr rfl, _, rfl, rfl⟩
    intro n
    have htokens : tokens d n [.word " ", .word j.kind.keyword, .word " "] =
        Token.scan j.kind.keyword := List.append_nil _
    exact htokens ▸ hscan
  have htable : Derives d [.name j.table.table, .word " AS ", .name j.aliasName] Grammar.table :=
    ((Derives.name j.table.table).append (.word rfl)).append (.name j.aliasName)
  -- That two keys are equal is a condition of two columns.
  have hkeys : Derives d j.keyFragment (Grammar.condition d) := by
    have hoperator : Derives d [.word " = "] Grammar.operator := .of_scan ⟨.eq, rfl⟩
    have hcolumn := (Derives.column (d := d) j.aliasName j.column).left (M := Grammar.placeholder d)
    exact .said (.left (.left (.left (hoperator.append hcolumn)))) j.parentAlias j.parentColumn
  have hon : Derives d (Fragment.separated " AND " (j.onConditions.map Prod.fst))
      (Grammar.condition d) := by
    refine .connected rfl .and (List.cons_ne_nil _ _) (List.forall_mem_map.2 ?_)
    exact List.forall_mem_cons.2 ⟨hkeys, List.forall_mem_map.2 fun a _ =>
      a.filter.derives_fragment j.aliasName⟩
  rw [j.fragment_eq]
  exact (hkind.append htable).append (.cons rfl hon)

/-- A clause is there or not. -/
theorem derives_clause {keyword word : String} {K L : Language Token}
    (hkeyword : Token.scan keyword ∈ K) {fs : List Fragment}
    (hfs : fs ≠ [] → Derives d (Fragment.separated word fs) L) :
    Derives d (clause keyword word fs) (1 + K * L) := by
  cases fs with
  | nil => exact Derives.nil.left
  | cons f fs => exact ((Derives.of_scan hkeyword).append (hfs (List.cons_ne_nil f fs))).right

/-- The statement up to its end. -/
def bodyFragment (s : Statement) : Fragment :=
  .word "SELECT " :: Fragment.separated ", " (s.columns.map columnFragment) ++
    [.word " FROM ", .name s.root.table, .word " AS ", .name s.root.aliasName] ++
    s.joins.flatMap Join.fragment ++
    clause " WHERE " " AND " (s.predicates.map fun p => p.filter.fragment p.aliasName) ++
    clause " ORDER BY " ", " (s.orderBy.map (OrderBy.fragment s.root.aliasName))

theorem fragment_eq_body (s : Statement) : s.fragment =
    s.bodyFragment ++ (numberClause " LIMIT " s.limit ++ numberClause " OFFSET " s.offset) :=
  List.append_assoc ..

/-- Whichever clauses are there, a statement that reads a column derives up to its end. -/
theorem derives_bodyFragment {s : Statement} (hs : s.columns ≠ []) :
    Derives d s.bodyFragment (Grammar.body d) := by
  have hitem (c : ColumnRef) : Derives d (columnFragment c) Grammar.item :=
    ((Derives.column c.aliasName c.column).append (.word rfl)).append (.label c.label)
  have hitems : Derives d (Fragment.separated ", " (s.columns.map columnFragment))
      (Grammar.list "," Grammar.item) :=
    .separated rfl (by simpa using hs) (List.forall_mem_map.2 fun c _ => hitem c)
  have htable : Derives d [.name s.root.table, .word " AS ", .name s.root.aliasName]
      Grammar.table :=
    ((Derives.name s.root.table).append (.word rfl)).append (.name s.root.aliasName)
  have hjoins : Derives d (s.joins.flatMap Join.fragment) (Grammar.join d)∗ :=
    .flatMap fun j _ => derives_join j
  have hwhere : Derives d
      (clause " WHERE " " AND " (s.predicates.map fun p => p.filter.fragment p.aliasName))
      (1 + Grammar.word "WHERE" * Grammar.condition d) := by
    have hkeyword : Token.scan " WHERE " ∈ Grammar.word "WHERE" := rfl
    exact derives_clause hkeyword fun hne => .connected rfl .and hne
      (List.forall_mem_map.2 fun p _ => p.filter.derives_fragment p.aliasName)
  have hordering (o : OrderBy) :
      Derives d (o.fragment s.root.aliasName) Grammar.ordering := by
    refine (Derives.column s.root.aliasName o.column).append (.blank rfl (.of_scan ?_))
    cases o.direction with
    | ascending => exact .inl rfl
    | descending => exact .inr rfl
  have horder : Derives d
      (clause " ORDER BY " ", " (s.orderBy.map (OrderBy.fragment s.root.aliasName)))
      (1 + Grammar.word "ORDER" * Grammar.word "BY" * Grammar.list "," Grammar.ordering) := by
    have hkeyword : Token.scan " ORDER BY " ∈ Grammar.word "ORDER" * Grammar.word "BY" :=
      ⟨_, rfl, _, rfl, rfl⟩
    exact derives_clause hkeyword fun hne => .separated rfl hne
      (List.forall_mem_map.2 fun o _ => hordering o)
  exact ((((Derives.cons rfl hitems).append (.cons rfl htable)).append hjoins).append
    hwhere).append horder

/-- A number after its keyword. -/
theorem derives_number {keyword w : String} (hend : (Piece.word keyword).endsApart)
    (hclear : (Piece.word keyword).isClear) (hkeyword : Token.scan keyword = [.plain w]) (n : Nat) :
    Derives d (numberClause keyword (some n)) (Grammar.word w * Grammar.number) := by
  refine .of_scan ?_
  rw [scan_number hend hclear, hkeyword]
  exact ⟨_, rfl, _, ⟨n, rfl⟩, rfl⟩

theorem derives_limit (n : Nat) : Derives d (numberClause " LIMIT " (some n))
    (Grammar.word "LIMIT" * Grammar.number) :=
  derives_number rfl rfl rfl n

theorem derives_offset? (n : Option Nat) : Derives d (numberClause " OFFSET " n)
    (1 + Grammar.word "OFFSET" * Grammar.number) := by
  cases n with
  | none => exact Derives.nil.left
  | some n => exact (derives_number rfl rfl rfl n).right

/-- Each of limit and offset is there or not. -/
theorem derives_numbers (s : Statement) :
    Derives d (numberClause " LIMIT " s.limit ++ numberClause " OFFSET " s.offset)
      ((1 + Grammar.word "LIMIT" * Grammar.number) *
        (1 + Grammar.word "OFFSET" * Grammar.number)) := by
  refine Derives.append ?_ (derives_offset? s.offset)
  cases s.limit with
  | none => exact Derives.nil.left
  | some n => exact (derives_limit n).right

/-- An offset is there only if there is a limit. -/
theorem derives_limits {s : Statement} (hs : s.offset = none ∨ s.limit ≠ none) :
    Derives d (numberClause " LIMIT " s.limit ++ numberClause " OFFSET " s.offset)
      (1 + Grammar.word "LIMIT" * Grammar.number *
        (1 + Grammar.word "OFFSET" * Grammar.number)) := by
  cases hlimit : s.limit with
  | none =>
    rw [hs.resolve_right (absurd hlimit)]
    exact Derives.nil.left
  | some n => exact ((derives_limit n).append (derives_offset? s.offset)).right

end Statement

/-! ### What stands at the end -/

namespace Grammar

/-- The words that stand at the end only. -/
def IsFinal (s : String) : Prop :=
  s = "LIMIT" ∨ s = "OFFSET"

instance (s : String) : Decidable (IsFinal s) :=
  inferInstanceAs (Decidable (_ ∨ _))

/-- Languages in which a word does not occur. -/
def Avoids (s : String) (L : Language Token) : Prop :=
  ∀ ts ∈ L, .plain s ∉ ts

variable {d : Dialect} {s : String} {L M : Language Token}

theorem avoids_one : Avoids s 1 := by
  intro ts hts
  rw [(Language.mem_one ts).1 hts]
  exact List.not_mem_nil

theorem Avoids.add (hL : Avoids s L) (hM : Avoids s M) : Avoids s (L + M) :=
  fun ts hts => hts.elim (hL ts) (hM ts)

theorem Avoids.mul (hL : Avoids s L) (hM : Avoids s M) : Avoids s (L * M) := by
  rintro _ ⟨ts, hts, us, hus, rfl⟩ hmem
  exact (List.mem_append.1 hmem).elim (hL ts hts) (hM us hus)

theorem Avoids.kstar (hL : Avoids s L) : Avoids s L∗ := by
  rintro _ ⟨parts, rfl, hparts⟩ hmem
  obtain ⟨ts, hts, hmem⟩ := List.mem_flatten.1 hmem
  exact hL ts (hparts ts hts) hmem

theorem avoids_word (hs : IsFinal s) {w : String} (hw : ¬IsFinal w) : Avoids s (word w) := by
  rintro _ rfl hmem
  exact hw (Token.plain.inj (List.mem_singleton.1 hmem) ▸ hs)

theorem avoids_name (hs : IsFinal s) : Avoids s name := by
  rintro _ ⟨t, ht, rfl⟩ hmem
  rw [← List.mem_singleton.1 hmem] at ht
  rcases hs with rfl | rfl <;> exact absurd ht (by decide)

theorem avoids_placeholder (hs : IsFinal s) : Avoids s (placeholder d) := by
  rintro _ ⟨n, rfl⟩ hmem
  have hplaceholder := Token.placeholder?_placeholder d n
  rw [← List.mem_singleton.1 hmem] at hplaceholder
  rcases hs with rfl | rfl <;> cases hplaceholder

theorem Avoids.list (hs : IsFinal s) {separator : String} (hseparator : ¬IsFinal separator)
    (hL : Avoids s L) : Avoids s (list separator L) :=
  hL.mul ((avoids_word hs hseparator).mul hL).kstar

theorem avoids_column (hs : IsFinal s) : Avoids s column :=
  ((avoids_name hs).mul (avoids_word hs (by decide))).mul (avoids_name hs)

theorem avoids_operator (hs : IsFinal s) : Avoids s operator := by
  rintro _ ⟨op, rfl⟩ hmem
  rw [Token.plain.inj (List.mem_singleton.1 hmem)] at hs
  cases op <;> exact absurd hs (by decide)

theorem avoids_said (hs : IsFinal s) : Avoids s (said d) := by
  have hnot : Avoids s (1 + word "NOT") := avoids_one.add (avoids_word hs (by decide))
  have hcompare : Avoids s (operator * (column + placeholder d)) :=
    (avoids_operator hs).mul ((avoids_column hs).add (avoids_placeholder hs))
  have hnull : Avoids s (word "IS" * (1 + word "NOT") * word "NULL") :=
    ((avoids_word hs (by decide)).mul hnot).mul (avoids_word hs (by decide))
  have hlike : Avoids s (word "LIKE" * placeholder d) :=
    (avoids_word hs (by decide)).mul (avoids_placeholder hs)
  have hmember : Avoids s
      ((1 + word "NOT") * word "IN" * word "(" * list "," (placeholder d) * word ")") :=
    (((hnot.mul (avoids_word hs (by decide))).mul (avoids_word hs (by decide))).mul
      ((avoids_placeholder hs).list hs (by decide))).mul (avoids_word hs (by decide))
  exact ((hcompare.add hnull).add hlike).add hmember

theorem avoids_condition (hs : IsFinal s) : Avoids s (condition d) := by
  have hword {w : String} (hw : ¬IsFinal w) : s ≠ w :=
    fun h => hw (h ▸ hs)
  intro ts hts
  induction hts with
  | predicate hts =>
    have hconstants : Avoids s (word "TRUE" + word "FALSE") :=
      (avoids_word hs (by decide)).add (avoids_word hs (by decide))
    exact hconstants.add ((avoids_column hs).mul (avoids_said hs)) _ hts
  | brackets _ ih =>
    simp [ih, hword (w := "(") (by decide), hword (w := ")") (by decide)]
  | not _ ih => simp [ih, hword (w := "NOT") (by decide)]
  | and _ _ ih ih' => simp [ih, ih', hword (w := "AND") (by decide)]
  | or _ _ ih ih' => simp [ih, ih', hword (w := "OR") (by decide)]

/-- Nothing before the end of a statement is read as a part of its end. -/
theorem avoids_body (hs : IsFinal s) : Avoids s (body d) := by
  have htable : Avoids s table :=
    ((avoids_name hs).mul (avoids_word hs (by decide))).mul (avoids_name hs)
  have hitems : Avoids s (list "," item) :=
    (((avoids_column hs).mul (avoids_word hs (by decide))).mul (avoids_name hs)).list hs
      (by decide)
  have hjoin : Avoids s (join d) :=
    ((((avoids_word hs (by decide)).add (avoids_word hs (by decide))).mul
      (avoids_word hs (by decide))).mul htable).mul
      ((avoids_word hs (by decide)).mul (avoids_condition hs))
  have hwhere : Avoids s (1 + word "WHERE" * condition d) :=
    avoids_one.add ((avoids_word hs (by decide)).mul (avoids_condition hs))
  have hordering : Avoids s ordering :=
    (avoids_column hs).mul ((avoids_word hs (by decide)).add (avoids_word hs (by decide)))
  have horder : Avoids s (1 + word "ORDER" * word "BY" * list "," ordering) :=
    avoids_one.add (((avoids_word hs (by decide)).mul (avoids_word hs (by decide))).mul
      (hordering.list hs (by decide)))
  exact (((((avoids_word hs (by decide)).mul hitems).mul
    ((avoids_word hs (by decide)).mul htable)).mul hjoin.kstar).mul hwhere).mul horder

end Grammar

namespace Grammar

variable {d : Dialect}

/-- Where an offset needs a limit, there is none without. -/
theorem limit_mem_of_offset_mem (hd : d ≠ .postgresql) {ts : List Token}
    (hts : ts ∈ statement d) (hoffset : .plain "OFFSET" ∈ ts) : .plain "LIMIT" ∈ ts := by
  obtain ⟨us, hus, vs, hvs, rfl⟩ := hts
  refine List.mem_append_right us ?_
  rcases List.mem_append.1 hoffset with hoffset | hoffset
  · exact absurd hoffset (avoids_body (.inr rfl) us hus)
  · have hlimits : vs ∈ 1 + word "LIMIT" * number * (1 + word "OFFSET" * number) := by
      cases d with
      | postgresql => exact absurd rfl hd
      | mysql => exact hvs
      | sqlite => exact hvs
    rcases hlimits with hnone | ⟨_, ⟨_, rfl, ns, -, rfl⟩, os, -, rfl⟩
    · exact absurd hoffset (avoids_one vs hnone)
    · exact List.mem_append_left os List.mem_cons_self

end Grammar

namespace Statement

open Fragment

variable {d : Dialect}

/-- An offset without a limit, as it is read. -/
theorem tokens_offset (n m : Nat) :
    tokens d n (numberClause " OFFSET " (some m)) = [.plain "OFFSET", .plain m.repr] := by
  have hscan : Token.scan (" OFFSET " ++ m.repr) = [.plain "OFFSET", .plain m.repr] :=
    scan_number rfl rfl m
  rw [numberClause, tokens, hscan]
  rfl

/-- Of the statements that read a column, those are in the grammar of a database that do not
    leave rows out without a limit; for PostgreSQL all are. -/
theorem scan_sqlText_mem_iff {s : Statement} (hs : s.columns ≠ []) :
    Token.scan (s.sqlText d) ∈ Grammar.statement d ↔
      d = .postgresql ∨ s.offset = none ∨ s.limit ≠ none := by
  rw [sqlText, s.isSpaced_fragment.scan_text, fragment_eq_body]
  constructor
  · intro hmem
    by_contra! hneither
    obtain ⟨hd, hoffset, hlimit⟩ := hneither
    obtain ⟨m, hm⟩ := Option.ne_none_iff_exists'.1 hoffset
    -- Without a limit the offset alone ends the text, where the grammar has a limit before it; yet
    -- nothing before the offset is read as one.
    have hlimits : numberClause " LIMIT " s.limit ++ numberClause " OFFSET " s.offset =
        numberClause " OFFSET " (some m) := by
      rw [hlimit, hm]
      rfl
    rw [hlimits, tokens_append, tokens_offset] at hmem
    have hlimit := Grammar.limit_mem_of_offset_mem hd hmem
      (List.mem_append_right _ List.mem_cons_self)
    rcases List.mem_append.1 hlimit with hlimit | hlimit
    · exact Grammar.avoids_body (.inl rfl) _ (derives_bodyFragment hs 1) hlimit
    · rcases List.mem_pair.1 hlimit with hword | hnumber
      · exact absurd (Token.plain.inj hword) (by decide)
      · exact Token.repr_ne (w := "LIMIT") (by decide) m (Token.plain.inj hnumber).symm
  · intro hend
    refine (derives_bodyFragment hs).append (M := Grammar.rowLimit d) ?_ 1
    cases d with
    | postgresql => exact derives_numbers s
    | mysql => exact derives_limits (hend.resolve_left (by decide))
    | sqlite => exact derives_limits (hend.resolve_left (by decide))

end Statement

namespace Reading

variable {k : Compiler} {plan : LoadPlan} {scope : QueryScope} {R : Reading}

/-- A compiled statement reads the primary key of its root at least. -/
theorem IsSound.columns_ne_nil (h : R.IsSound k plan scope) (hc : k.catalog.IsSound) :
    (R.statement scope).columns ≠ [] := by
  have hprimary := hc.primaryKey_mem _ (Catalog.entity_eq_ok h.entity).1
  have hmem : { aliasName := R.aliasName, column := R.entity.primaryKey : ColumnRef } ∈
      (R.statement scope).columns :=
    List.mem_append_left _ (List.mem_map_of_mem hprimary)
  exact List.ne_nil_of_mem hmem

end Reading

namespace CompiledPlan.IsPrepared

variable {p : Planner} {req : FetchRequest} {root : Entity} {c : CompiledPlan}

/-- The groups after the first have a relation at their root. -/
theorem root_isSome_iff (h : c.IsPrepared p req root) {n : Nat} {R : Reading}
    (hgroup : c.plan.groups[n]? = some R.group)
    (hsound : R.IsSound p.compiler c.plan (p.layered req.scope)) : R.root.isSome ↔ n ≠ 0 := by
  constructor
  · rintro hsome rfl
    rw [(h.root_of_reading hgroup hsound).1] at hsome
    cases hsome
  · intro hn
    obtain ⟨r, -, hroot, -⟩ := h.selected.isGrouped.followUp n R.group hgroup hn
    rw [hsound.root_isSome, hroot]
    rfl

end CompiledPlan.IsPrepared

namespace Planner

/-- Of the statements that are compiled, whatever keys they are given, those are in the grammar
    of a database that follow the first, and the first if it leaves no rows out or has a limit.
    For PostgreSQL all are. -/
theorem scan_sqlText_mem_iff_of_compile {decls : List EntityDecl} {p : Planner} {root : String}
    {texts : List String} {paths : List RelationPath} {scope : QueryScope} {c : CompiledPlan}
    (hbuild : Catalog.build decls = .ok p.catalog)
    (hparse : texts.mapM RelationPath.parse = .ok paths)
    (h : p.compile root paths scope = .ok c) {n : Nat} {cs : CompiledStatement}
    (hcs : c.statement? n = some cs) (chunks : List (List Value)) (d : Dialect) :
    ∀ s ∈ cs.statement :: chunks.map cs.statement.bindKeys,
      Token.scan (s.sqlText d) ∈ Grammar.statement d ↔
        d = .postgresql ∨ n ≠ 0 ∨ scope.skip = none ∨ scope.take ≠ none := by
  obtain ⟨e, hprepared⟩ := isPrepared_of_compile hparse h
  obtain ⟨R, hgroup, hsound, rfl⟩ := hprepared.reading n cs hcs
  have hcolumns := hsound.columns_ne_nil (Catalog.isSound_of_build hbuild)
  have hend : (R.compiled (p.layered scope)).statement.offset = none ∨
      (R.compiled (p.layered scope)).statement.limit ≠ none ↔
        n ≠ 0 ∨ scope.skip = none ∨ scope.take ≠ none := by
    rw [← hprepared.root_isSome_iff hgroup hsound]
    cases hroot : R.root with
    | none => simp [Reading.compiled, Reading.statement, Reading.clauses, hroot, layered]
    | some r => simp [Reading.compiled, Reading.statement, Reading.clauses, hroot,
        Compiler.followUpClauses]
  rw [← hend]
  exact List.forall_mem_cons.2 ⟨Statement.scan_sqlText_mem_iff hcolumns,
    List.forall_mem_map.2 fun keys _ =>
      Statement.scan_sqlText_mem_iff (s := Statement.bindKeys _ keys) hcolumns⟩

end Planner

/-! ### Tasks and projects -/

namespace Planner

/-- Rows may be left out where there is a limit. -/
theorem scan_sqlText_mem_iff_of_compile_tasks :
    ∃ catalog c cs, Catalog.build taskDecls = .ok catalog ∧
      compile ⟨catalog, {}, {}⟩ "Task" [⟨["comments"]⟩] { skip := some 20, take := some 10 } =
        .ok c ∧
      c.statement? 0 = some cs ∧
      cs.statement.sqlText .mysql = "SELECT task.id AS \"task.id\", " ++
        "task.owner_id AS \"task.owner_id\", task.project_id AS \"task.project_id\", " ++
        "owner.id AS \"owner.id\", owner.team_id AS \"owner.team_id\" FROM tasks AS task " ++
        "INNER JOIN users AS owner ON task.owner_id = owner.id LIMIT 10 OFFSET 20" ∧
      Token.scan (cs.statement.sqlText .mysql) ∈ Grammar.statement .mysql := by
  obtain ⟨catalog, hbuild, c, hc, cs, hcs, htext⟩ :
      ∃ catalog, Catalog.build taskDecls = .ok catalog ∧ ∃ c,
        compile ⟨catalog, {}, {}⟩ "Task" [⟨["comments"]⟩] { skip := some 20, take := some 10 } =
          .ok c ∧
      ∃ cs, c.statement? 0 = some cs ∧
        cs.statement.sqlText .mysql = "SELECT task.id AS \"task.id\", " ++
        "task.owner_id AS \"task.owner_id\", task.project_id AS \"task.project_id\", " ++
        "owner.id AS \"owner.id\", owner.team_id AS \"owner.team_id\" FROM tasks AS task " ++
        "INNER JOIN users AS owner ON task.owner_id = owner.id LIMIT 10 OFFSET 20" :=
    ⟨_, rfl, _, rfl, _, rfl, by decide +kernel⟩
  have hparse : ["comments"].mapM RelationPath.parse = .ok [⟨["comments"]⟩] := rfl
  exact ⟨catalog, c, cs, hbuild, hc, hcs, htext,
    (scan_sqlText_mem_iff_of_compile (p := ⟨catalog, {}, {}⟩) hbuild hparse hc hcs [] .mysql _
      List.mem_cons_self).2 (.inr (.inr (.inr nofun)))⟩

/-- All projects but the first twenty are read by a statement that PostgreSQL takes, but neither
    MySQL nor SQLite. -/
theorem offset_alone_projects :
    ∃ catalog c cs, Catalog.build taskDecls = .ok catalog ∧
      compile ⟨catalog, {}, {}⟩ "Project" [] { skip := some 20 } = .ok c ∧
      c.statement? 0 = some cs ∧
      cs.statement.sqlText .mysql =
        "SELECT project.id AS \"project.id\" FROM projects AS project OFFSET 20" ∧
      Token.scan (cs.statement.sqlText .postgresql) ∈ Grammar.statement .postgresql ∧
      Token.scan (cs.statement.sqlText .mysql) ∉ Grammar.statement .mysql ∧
      Token.scan (cs.statement.sqlText .sqlite) ∉ Grammar.statement .sqlite := by
  obtain ⟨catalog, hbuild, c, hc, cs, hcs, htext, hcolumns, hlimit, hoffset⟩ :
      ∃ catalog, Catalog.build taskDecls = .ok catalog ∧ ∃ c,
        compile ⟨catalog, {}, {}⟩ "Project" [] { skip := some 20 } = .ok c ∧
      ∃ cs, c.statement? 0 = some cs ∧ cs.statement.sqlText .mysql =
          "SELECT project.id AS \"project.id\" FROM projects AS project OFFSET 20" ∧
        cs.statement.columns ≠ [] ∧ cs.statement.limit = none ∧ cs.statement.offset ≠ none :=
    ⟨_, rfl, _, rfl, _, rfl, by decide +kernel, nofun, rfl, nofun⟩
  have hmem (d : Dialect) := Statement.scan_sqlText_mem_iff (d := d) hcolumns
  refine ⟨catalog, c, cs, hbuild, hc, hcs, htext, (hmem .postgresql).2 (.inl rfl), ?_, ?_⟩
  · exact fun h => ((hmem .mysql).1 h).elim nofun fun h => h.elim hoffset (absurd hlimit)
  · exact fun h => ((hmem .sqlite).1 h).elim nofun fun h => h.elim hoffset (absurd hlimit)

end Planner

end EntityFetch
