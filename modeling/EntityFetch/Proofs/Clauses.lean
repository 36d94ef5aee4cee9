import EntityFetch.Proofs.Predicate
import Mathlib.Data.List.Forall2

/-!
# The conditions of a statement

In the text of a statement the filters of a join stand after the equality of the keys, and
the conditions of the statement after `WHERE`, with `AND` between them and no brackets around
them. Read as a database reads it, the text says that all of them hold
(`Statement.clauses_sqlText`): a disjunction among them does not make the others void.
-/

namespace EntityFetch

/-! ### Where no condition starts -/

/-- Whether a piece has none of the words after which a condition stands. -/
def Piece.isQuiet : Piece → Bool
  | word s => (Token.scan s).all fun t => t != .plain "ON" && t != .plain "WHERE"
  | _ => true

/-- Whether a fragment has none of the words after which a condition stands. -/
def Fragment.isQuiet (f : Fragment) : Bool :=
  f.all Piece.isQuiet

/-- Lexemes without the words after which a condition stands. -/
def Lexeme.Quiet (ls : List Lexeme) : Prop :=
  ∀ l ∈ ls, l ≠ .word "ON" ∧ l ≠ .word "WHERE"

/-- No name is taken for one of the words. -/
theorem Fragment.quiet_lexemes {f : Fragment} (h : f.isQuiet) : Lexeme.Quiet f.lexemes := by
  induction f with
  | nil => nofun
  | cons p ps ih =>
    rw [isQuiet, List.all_cons, Bool.and_eq_true] at h
    have hps := ih h.2
    cases p with
    | word s =>
      refine List.forall_mem_append.2 ⟨List.forall_mem_map.2 fun t ht => ?_, hps⟩
      have hword := List.all_eq_true.1 h.1 t ht
      rw [Bool.and_eq_true, bne_iff_ne, bne_iff_ne] at hword
      exact ⟨fun h => hword.1 (Lexeme.token.inj h), fun h => hword.2 (Lexeme.token.inj h)⟩
    | name s =>
      -- A name is read as one even if it is spelled like the word.
      refine List.forall_mem_cons.2 ⟨⟨?_, ?_⟩, hps⟩ <;> intro hword <;>
        have hname := Token.identifier?_token s <;> rw [Lexeme.token.inj hword] at hname <;>
        cases hname
    | label s => exact List.forall_mem_cons.2 ⟨⟨nofun, nofun⟩, hps⟩
    | param v => exact List.forall_mem_cons.2 ⟨⟨nofun, nofun⟩, hps⟩

namespace Fragment

theorem separated_cons (w : String) (f : Fragment) (fs : List Fragment) :
    separated w (f :: fs) = f ++ fs.flatMap fun g => .word w :: g := by
  induction fs generalizing f with
  | nil => exact (List.append_nil f).symm
  | cons g fs ih => exact congrArg (f ++ ·) (congrArg (List.cons (.word w)) (ih g))

theorem isQuiet_append (f g : Fragment) : (f ++ g).isQuiet = (f.isQuiet && g.isQuiet) :=
  List.all_append

theorem isQuiet_cons (p : Piece) (f : Fragment) : isQuiet (p :: f) = (p.isQuiet && f.isQuiet) :=
  rfl

theorem isQuiet_separated {w : String} (hw : (Piece.word w).isQuiet) :
    ∀ {fs : List Fragment}, (∀ f ∈ fs, f.isQuiet) → (separated w fs).isQuiet
  | [], _ => rfl
  | [f], h => h f (List.mem_singleton_self f)
  | f :: g :: fs, h => by
    rw [List.forall_mem_cons] at h
    rw [separated, isQuiet_append, isQuiet_cons, h.1, hw, isQuiet_separated hw h.2]
    rfl

end Fragment

namespace Filter

theorem isQuiet_memberFragment (aliasName c : String) {word empty : String}
    (hword : (Piece.word word).isQuiet) (hempty : (Piece.word empty).isQuiet) (vs : List Value) :
    (memberFragment aliasName c word empty vs).isQuiet := by
  rw [memberFragment]
  split
  · rw [Fragment.isQuiet_cons, hempty]
    rfl
  · have hvalues : (Fragment.separated ", " (vs.map fun v => [.param v])).isQuiet :=
      Fragment.isQuiet_separated rfl (List.forall_mem_map.2 fun _ _ => rfl)
    rw [Fragment.isQuiet_append, Fragment.isQuiet_cons, Fragment.isQuiet_append, hword, hvalues]
    rfl

theorem isQuiet_connective {word empty : String} (hword : (Piece.word word).isQuiet)
    (hempty : (Piece.word empty).isQuiet) {fs : List Fragment} (hfs : ∀ f ∈ fs, f.isQuiet) :
    (connective word empty fs).isQuiet := by
  rw [connective]
  split
  · rw [Fragment.isQuiet_cons, hempty]
    rfl
  · rw [Fragment.isQuiet_append, Fragment.isQuiet_cons, Fragment.isQuiet_separated hword hfs]
    rfl

mutual

theorem isQuiet_fragment (aliasName : String) : ∀ f : Filter, (f.fragment aliasName).isQuiet
  | always => rfl
  | compare op _ v => by
    cases op <;> cases hv : v.isNull <;> simp only [fragment, compareFragment, hv] <;> rfl
  | member c vs => isQuiet_memberFragment aliasName c rfl rfl vs
  | notMember c vs => isQuiet_memberFragment aliasName c rfl rfl vs
  | like _ _ _ => rfl
  | isNull _ => rfl
  | isNotNull _ => rfl
  | all fs => isQuiet_connective rfl rfl (isQuiet_fragments aliasName fs)
  | any fs => isQuiet_connective rfl rfl (isQuiet_fragments aliasName fs)
  | negation f => by
    rw [fragment, Fragment.isQuiet_append, Fragment.isQuiet_cons, isQuiet_fragment aliasName f]
    rfl

theorem isQuiet_fragments (aliasName : String) :
    ∀ fs : List Filter, ∀ f ∈ fragments aliasName fs, f.isQuiet
  | [] => nofun
  | f :: fs => List.forall_mem_cons.2
      ⟨isQuiet_fragment aliasName f, isQuiet_fragments aliasName fs⟩

end

end Filter

/-! ### Clauses -/

namespace Condition

variable {ls rest : List Lexeme} {w : String} {α : Type} {h : α → Fragment} {g : α → Condition}
  {as : List α}

/-- What is no condition is left out. -/
theorem clausesOf_append (hls : Lexeme.Quiet ls) (rest : List Lexeme) :
    clausesOf (ls ++ rest) = clausesOf rest := by
  induction ls with
  | nil => rfl
  | cons l ls ih =>
    rw [Lexeme.Quiet, List.forall_mem_cons] at hls
    rw [List.cons_append, ← ih hls.2]
    rcases l with ⟨⟨s⟩ | ⟨s⟩⟩ | v
    · have hs : ¬(s = "ON" ∨ s = "WHERE") := by
        rintro (rfl | rfl)
        · exact hls.1.1 rfl
        · exact hls.1.2 rfl
      rw [clausesOf, if_neg hs]
    · rw [clausesOf]
      nofun
    · rw [clausesOf]
      nofun

theorem startsOther_of_endsBefore (h : endsBefore rest) :
    Lexeme.StartsOther ["OR", "AND", "."] rest := by
  intro w hw hhead
  obtain ⟨ls, rfl⟩ := List.head?_eq_some_iff.1 hhead
  have hno : ∀ w ∈ ["OR", "AND", "."],
      ["INNER", "LEFT", "WHERE", "ORDER", "LIMIT", "OFFSET"].contains w = false := by decide
  exact Bool.false_ne_true ((hno w hw).symm.trans h)

theorem endsBefore_append (h : endsBefore ls) (h' : endsBefore rest) : endsBefore (ls ++ rest) := by
  cases ls with
  | nil => exact h'
  | cons l ls => rcases l with ⟨⟨s⟩ | ⟨s⟩⟩ | v <;> exact h

/-- Fragments with `AND` between them after one of the words are read as their conjunction. -/
theorem clausesOf_separated (hw : w = "ON" ∨ w = "WHERE") (hne : as ≠ [])
    (hreads : ∀ a ∈ as, (h a).Reads (g a)) (hquiet : ∀ a ∈ as, (h a).isQuiet)
    (hrest : endsBefore rest) :
    clausesOf (.word w :: ((Fragment.separated " AND " (as.map h)).lexemes ++ rest)) =
      (clausesOf rest).map ((w, join .and (.constant true) (as.map g)) :: ·) := by
  have hother := startsOther_of_endsBefore hrest
  rw [Lexeme.StartsOther, List.forall_mem_cons] at hother
  have hlength : 3 * (Fragment.separated " AND " (as.map h)).lexemes.length + 1 ≤
      3 * ((Fragment.separated " AND " (as.map h)).lexemes ++ rest).length + 1 := by
    rw [List.length_append]
    omega
  have hstart : start? ((Fragment.separated " AND " (as.map h)).lexemes ++ rest) =
      some (join .and (.constant true) (as.map g), rest) :=
    disjunction_of_conjunction (conjunction_separated hne hreads hlength hother.2) hother.1
  have hseparated : (Fragment.separated " AND " (as.map h)).isQuiet :=
    Fragment.isQuiet_separated rfl (List.forall_mem_map.2 hquiet)
  rw [clausesOf, if_pos hw, hstart, clausesOf_append (Fragment.quiet_lexemes hseparated)]
  exact if_pos hrest

end Condition

/-! ### Joins -/

namespace Join

/-- The equality of the keys in SQL. -/
def keyFragment (j : Join) : Fragment :=
  Fragment.column j.parentAlias j.parentColumn ++
    .word " = " :: Fragment.column j.aliasName j.column

/-- The equality of the keys. -/
def keyCondition (j : Join) : Condition :=
  .compare .eq (.column j.parentAlias j.parentColumn) (.column j.aliasName j.column)

theorem reads_keyFragment (j : Join) : j.keyFragment.Reads j.keyCondition := by
  refine .column fun rest => ?_
  have hterm := Condition.term?_column j.aliasName j.column rest
  have hoperator : Condition.operator? "=" = some .eq := rfl
  have hequal : Condition.predicate? (.column j.parentAlias j.parentColumn)
      (.word "=" :: ((Fragment.column j.aliasName j.column).lexemes ++ rest)) =
      some (j.keyCondition, rest) := by
    simp [Condition.predicate?, hoperator, hterm, keyCondition]
  exact hequal

/-- What is written after `ON` and what it says: the equality of the keys and all filters. -/
def onConditions (j : Join) : List (Fragment × Condition) :=
  (j.keyFragment, j.keyCondition) ::
    j.filters.map fun a => (a.filter.fragment j.aliasName, a.filter.condition j.aliasName)

/-- The condition of a join: all that is written after `ON`. -/
def onCondition (j : Join) : Condition :=
  .join .and (.constant true) (j.onConditions.map Prod.snd)

theorem fragment_eq (j : Join) : j.fragment =
    [.word " ", .word j.kind.keyword, .word " ", .name j.table.table, .word " AS ",
      .name j.aliasName] ++ .word " ON " ::
        Fragment.separated " AND " (j.onConditions.map Prod.fst) := by
  simp [fragment, onConditions, keyFragment, Fragment.separated_cons, List.flatMap_map]

variable {rest : List Lexeme}

/-- The condition of a join is read off its text. -/
theorem clausesOf_fragment {j : Join} (hj : ∀ a ∈ j.filters, a.filter.isPatternFree)
    (hrest : Condition.endsBefore rest) :
    Condition.clausesOf (j.fragment.lexemes ++ rest) =
      (Condition.clausesOf rest).map (("ON", j.onCondition) :: ·) := by
  have htable : Fragment.isQuiet [.word " ", .word j.kind.keyword, .word " ", .name j.table.table,
      .word " AS ", .name j.aliasName] := by
    cases hk : j.kind <;> rfl
  have hlexemes : (Fragment.lexemes (.word " ON " ::
      Fragment.separated " AND " (j.onConditions.map Prod.fst))) =
      .word "ON" :: (Fragment.separated " AND " (j.onConditions.map Prod.fst)).lexemes := rfl
  rw [fragment_eq, Fragment.lexemes_append, List.append_assoc,
    Condition.clausesOf_append (Fragment.quiet_lexemes htable), hlexemes, List.cons_append]
  refine Condition.clausesOf_separated (.inl rfl) (List.cons_ne_nil _ _) ?_ ?_ hrest
  · exact List.forall_mem_cons.2 ⟨j.reads_keyFragment, List.forall_mem_map.2 fun a ha =>
      a.filter.reads_fragment j.aliasName (hj a ha)⟩
  · exact List.forall_mem_cons.2 ⟨rfl, List.forall_mem_map.2 fun a _ =>
      a.filter.isQuiet_fragment j.aliasName⟩

theorem endsBefore_fragment (j : Join) : Condition.endsBefore j.fragment.lexemes := by
  cases hk : j.kind <;> simp only [fragment, hk] <;> rfl

end Join

namespace Statement

variable {rest : List Lexeme}

theorem endsBefore_joins (hrest : Condition.endsBefore rest) :
    ∀ js : List Join, Condition.endsBefore (Fragment.lexemes (js.flatMap Join.fragment) ++ rest)
  | [] => hrest
  | j :: js => by
    rw [List.flatMap_cons, Fragment.lexemes_append, List.append_assoc]
    exact Condition.endsBefore_append j.endsBefore_fragment (endsBefore_joins hrest js)

/-- The conditions of joins are read off their text. -/
theorem clausesOf_joins (hrest : Condition.endsBefore rest) :
    ∀ {js : List Join}, (∀ j ∈ js, ∀ a ∈ j.filters, a.filter.isPatternFree) →
      Condition.clausesOf (Fragment.lexemes (js.flatMap Join.fragment) ++ rest) =
        (Condition.clausesOf rest).map ((js.map fun j => ("ON", j.onCondition)) ++ ·)
  | [], _ => Option.map_id'.symm
  | j :: js, hjs => by
    rw [List.forall_mem_cons] at hjs
    rw [List.flatMap_cons, Fragment.lexemes_append, List.append_assoc,
      Join.clausesOf_fragment hjs.1 (endsBefore_joins hrest js), clausesOf_joins hrest hjs.2,
      Option.map_map]
    rfl

/-- The condition after `WHERE` is read off the text, if there is one. -/
theorem clausesOf_where (hrest : Condition.endsBefore rest) {ps : List Predicate}
    (hps : ∀ p ∈ ps, p.filter.isPatternFree) :
    Condition.clausesOf
      ((clause " WHERE " " AND " (ps.map fun p => p.filter.fragment p.aliasName)).lexemes ++ rest) =
      (Condition.clausesOf rest).map ((if ps.isEmpty then [] else
        [("WHERE", Condition.join .and (.constant true)
          (ps.map fun p => p.filter.condition p.aliasName))]) ++ ·) := by
  cases ps with
  | nil => exact Option.map_id'.symm
  | cons p ps =>
    exact Condition.clausesOf_separated (.inr rfl) (List.cons_ne_nil p ps)
      (fun p hp => p.filter.reads_fragment p.aliasName (hps p hp))
      (fun p _ => p.filter.isQuiet_fragment p.aliasName) hrest

/-- What is written after the conditions. -/
def tail (s : Statement) : Fragment :=
  clause " ORDER BY " ", " (s.orderBy.map (OrderBy.fragment s.root.aliasName)) ++
    numberClause " LIMIT " s.limit ++ numberClause " OFFSET " s.offset

theorem isQuiet_numberClause {keyword : String} (hend : (Piece.word keyword).endsApart)
    (hclear : (Piece.word keyword).isClear) (hkeyword : (Piece.word keyword).isQuiet)
    (n : Option Nat) : (numberClause keyword n).isQuiet := by
  cases n with
  | none => rfl
  | some n =>
    have hquiet : (Piece.word (keyword ++ n.repr)).isQuiet := by
      rw [Piece.isQuiet] at hkeyword ⊢
      rw [scan_number hend hclear, List.all_append, hkeyword]
      simp [Token.repr_ne]
    rw [numberClause, Fragment.isQuiet_cons, hquiet]
    rfl

theorem quiet_tail (s : Statement) : Lexeme.Quiet s.tail.lexemes := by
  refine Fragment.quiet_lexemes ?_
  have horder : (clause " ORDER BY " ", "
      (s.orderBy.map (OrderBy.fragment s.root.aliasName))).isQuiet := by
    rw [clause]
    split
    · rfl
    · rw [Fragment.isQuiet_cons, Fragment.isQuiet_separated rfl (List.forall_mem_map.2 fun o _ => by
        cases hd : o.direction <;> simp only [OrderBy.fragment, hd] <;> rfl)]
      rfl
  rw [tail, Fragment.isQuiet_append, Fragment.isQuiet_append, horder,
    isQuiet_numberClause rfl rfl rfl, isQuiet_numberClause rfl rfl rfl]
  rfl

theorem endsBefore_tail (s : Statement) : Condition.endsBefore s.tail.lexemes := by
  have horder : Condition.endsBefore (clause " ORDER BY " ", "
      (s.orderBy.map (OrderBy.fragment s.root.aliasName))).lexemes := by
    cases s.orderBy <;> rfl
  have hlimit : Condition.endsBefore (numberClause " LIMIT " s.limit).lexemes := by
    cases s.limit with
    | none => rfl
    | some n => rw [numberClause, Fragment.lexemes, scan_number rfl rfl]; rfl
  have hoffset : Condition.endsBefore (numberClause " OFFSET " s.offset).lexemes := by
    cases s.offset with
    | none => rfl
    | some n => rw [numberClause, Fragment.lexemes, scan_number rfl rfl]; rfl
  rw [tail, Fragment.lexemes_append, Fragment.lexemes_append]
  exact Condition.endsBefore_append (Condition.endsBefore_append horder hlimit) hoffset

/-- Whether no filter of a statement looks for a pattern. -/
def IsPatternFree (s : Statement) : Prop :=
  (∀ j ∈ s.joins, ∀ a ∈ j.filters, a.filter.isPatternFree) ∧
    ∀ p ∈ s.predicates, p.filter.isPatternFree

/-- The conditions of a statement are read off its text: one after every `ON`, and one after
    `WHERE` if there is any. -/
theorem clauses_sqlText (d : Dialect) {s : Statement} (hs : s.IsPatternFree) :
    Condition.clauses (s.sqlText d) s.params =
      some ((s.joins.map fun j => ("ON", j.onCondition)) ++ if s.predicates.isEmpty then [] else
        [("WHERE", Condition.join .and (.constant true)
          (s.predicates.map fun p => p.filter.condition p.aliasName))]) := by
  -- What stands before the joins has neither of the words.
  have hquiet : Fragment.isQuiet (.word "SELECT " ::
      Fragment.separated ", " (s.columns.map columnFragment) ++
      [.word " FROM ", .name s.root.table, .word " AS ", .name s.root.aliasName]) := by
    rw [Fragment.isQuiet_append, Fragment.isQuiet_cons,
      Fragment.isQuiet_separated rfl (List.forall_mem_map.2 fun c _ => rfl)]
    rfl
  have hfragment : s.fragment = (.word "SELECT " ::
      Fragment.separated ", " (s.columns.map columnFragment) ++
      [.word " FROM ", .name s.root.table, .word " AS ", .name s.root.aliasName]) ++
      (s.joins.flatMap Join.fragment ++
      (clause " WHERE " " AND " (s.predicates.map fun p => p.filter.fragment p.aliasName) ++
        s.tail)) := by
    simp [fragment, tail]
  have hwhere : Condition.endsBefore (clause " WHERE " " AND "
      (s.predicates.map fun p => p.filter.fragment p.aliasName)).lexemes := by
    cases s.predicates <;> rfl
  have htail : Condition.clausesOf s.tail.lexemes = some [] := by
    have hskip := Condition.clausesOf_append s.quiet_tail []
    rwa [List.append_nil] at hskip
  rw [Condition.clauses, sqlText, params, s.isSpaced_fragment.bind_scan_text d, hfragment,
    Fragment.lexemes_append, Condition.clausesOf_append (Fragment.quiet_lexemes hquiet),
    Fragment.lexemes_append, Fragment.lexemes_append,
    clausesOf_joins (Condition.endsBefore_append hwhere s.endsBefore_tail) hs.1,
    clausesOf_where s.endsBefore_tail hs.2, htail, Option.map_some, Option.map_some, List.append_nil]

end Statement

/-! ### What the conditions say -/

/-- The conjunction of truth values. -/
def Truth.conj (ts : List Truth) : Truth :=
  ts.foldr Truth.and (some true)

variable {row : String → String → Value}

/-- A join is on rows with equal keys of which all filters are true. -/
theorem Join.eval_onCondition {j : Join} (hj : ∀ a ∈ j.filters, a.filter.isPatternFree) :
    j.onCondition.eval row =
      (Comparison.eq.truth (row j.parentAlias j.parentColumn) (row j.aliasName j.column)).and
        (.conj (j.filters.map fun a => a.filter.eval (row j.aliasName))) := by
  have hfilters : (j.filters.map fun a => (a.filter.condition j.aliasName).eval row) =
      j.filters.map fun a => a.filter.eval (row j.aliasName) :=
    List.map_congr_left fun a ha => a.filter.eval_condition j.aliasName (hj a ha)
  rw [onCondition, Filter.eval_join_and, onConditions, List.map_cons, List.map_cons, List.foldr_cons,
    List.map_map, List.map_map]
  exact congrArg _ (congrArg Truth.conj hfilters)

/-- The text of a filter, read as a database reads it, says of a row what the filter says. In a
    statement the filters are read together: the joins are on rows with equal keys of which all
    filters of the join are true, and the condition of the statement is true if all its filters
    are. -/
theorem Condition.read_as_meant (d : Dialect) {f : Filter} (hf : f.isPatternFree)
    (aliasName : String) {s : Statement} (hs : s.IsPatternFree) :
    (∃ x, read ((f.fragment aliasName).text d) (f.fragment aliasName).params = some x ∧
      ∀ row : String → String → Value, x.eval row = f.eval (row aliasName)) ∧
    ∃ ons wheres : List Condition,
      clauses (s.sqlText d) s.params = some (ons.map ("ON", ·) ++ wheres.map ("WHERE", ·)) ∧
      List.Forall₂ (fun (j : Join) x => ∀ row : String → String → Value, x.eval row =
        (Comparison.eq.truth (row j.parentAlias j.parentColumn) (row j.aliasName j.column)).and
          (.conj (j.filters.map fun a => a.filter.eval (row j.aliasName)))) s.joins ons ∧
      wheres.length = (if s.predicates.isEmpty then 0 else 1) ∧
      ∀ x ∈ wheres, ∀ row : String → String → Value, x.eval row =
        .conj (s.predicates.map fun p => p.filter.eval (row p.aliasName)) := by
  refine ⟨f.read_text d aliasName hf, s.joins.map Join.onCondition,
    if s.predicates.isEmpty then [] else
      [.join .and (.constant true) (s.predicates.map fun p => p.filter.condition p.aliasName)],
    ?_, ?_, ?_, ?_⟩
  · rw [s.clauses_sqlText d hs, List.map_map]
    split <;> rfl
  · rw [List.forall₂_map_right_iff]
    exact List.forall₂_same.2 fun j hj row => j.eval_onCondition (hs.1 j hj)
  · split <;> rfl
  · intro x hx row
    have hpredicates : (s.predicates.map fun p => (p.filter.condition p.aliasName).eval row) =
        s.predicates.map fun p => p.filter.eval (row p.aliasName) :=
      List.map_congr_left fun p hp => p.filter.eval_condition p.aliasName (hs.2 p hp)
    split at hx
    · exact absurd hx List.not_mem_nil
    · rw [List.mem_singleton.1 hx, Filter.eval_join_and, List.map_map]
      exact congrArg Truth.conj hpredicates

/-! ### Tasks and their owners -/

/-- A task is open if it is urgent, or its state is none of those at the end. -/
def openFilter : Filter :=
  .any [.compare .eq "urgent" (.bool true), .notMember "state" [.str "done", .str "void"]]

/-- The open tasks without a team, with their owners if these are active. -/
def openTasks : Statement where
  root := { table := "tasks", aliasName := "task" }
  columns := [{ aliasName := "task", column := "id" }]
  joins := [{ kind := .left, table := { table := "users", aliasName := "owner" }
              parentAlias := "task", parentColumn := "owner_id", column := "id"
              filters := [{ name := "active", filter := .compare .ne "left" .null }]
              path := "owner" }]
  predicates := [{ aliasName := "task", filter := openFilter, source := .criteria },
    { aliasName := "task", filter := .isNull "team_id", source := .criteria }]
  orderBy := []
  limit := some 10
  offset := none

/-- The disjunction is kept apart from the condition on the team. -/
theorem Condition.read_as_meant_tasks : ∃ x on where_ : Condition,
    read "(task.urgent = ? OR task.state NOT IN (?, ?))" openFilter.values = some x ∧
    (∀ row : String → String → Value, x.eval row = openFilter.eval (row "task")) ∧
    openTasks.sqlText .mysql = "SELECT task.id AS \"task.id\" FROM tasks AS task " ++
      "LEFT JOIN users AS owner ON task.owner_id = owner.id AND owner.\"left\" IS NOT NULL " ++
      "WHERE (task.urgent = ? OR task.state NOT IN (?, ?)) AND task.team_id IS NULL LIMIT 10" ∧
    clauses (openTasks.sqlText .mysql) openTasks.params =
      some [("ON", on), ("WHERE", where_)] ∧
    ∀ row : String → String → Value, where_.eval row =
      .conj [openFilter.eval (row "task"), some (row "task" "team_id").isNull] := by
  have hs : openTasks.IsPatternFree :=
    ⟨List.forall_mem_singleton.2 (List.forall_mem_singleton.2 rfl),
      List.forall_mem_cons.2 ⟨rfl, List.forall_mem_singleton.2 rfl⟩⟩
  obtain ⟨⟨x, hread, hx⟩, ons, wheres, hclauses, hons, hlength, hwheres⟩ :=
    read_as_meant .mysql (f := openFilter) rfl "task" hs
  have htext : (openFilter.fragment "task").text .mysql =
      "(task.urgent = ? OR task.state NOT IN (?, ?))" := by decide
  have hparams : (openFilter.fragment "task").params = openFilter.values := rfl
  rw [htext, hparams] at hread
  obtain ⟨on, rfl⟩ : ∃ on, ons = [on] := List.length_eq_one_iff.1 hons.length_eq.symm
  obtain ⟨where_, rfl⟩ : ∃ x, wheres = [x] := List.length_eq_one_iff.1 hlength
  exact ⟨x, on, where_, hread, hx, by decide +kernel, hclauses, hwheres _ (List.mem_singleton_self _)⟩

end EntityFetch
