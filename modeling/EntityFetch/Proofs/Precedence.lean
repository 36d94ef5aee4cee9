import EntityFetch.Proofs.Condition

/-!
# What is read piece by piece

Some fragments stand for themselves: they are read as the same condition wherever they are
put, since nothing beside them binds more closely (`Fragment.Reads`). That is so of what is
said of one column and of anything in brackets. Such fragments can be written next to each
other with `AND` between them (`Condition.conjunction_separated`) or with `OR`
(`Condition.disjunction_separated`), and with no brackets around them.
-/

namespace EntityFetch

/-! ### Placeholders and their values -/

namespace Lexeme

variable {params : List Value} {n : Nat}

theorem ofToken_of_eq_none {t : Token} (ht : t.placeholder? = none) :
    ofToken params n t = token t := by
  rw [ofToken, ht]
  rfl

/-- Tokens that are no placeholders stay as they are. -/
theorem bind_append {ts : List Token} (hts : Token.placeholders ts = []) (us : List Token) :
    bind params n (ts ++ us) = ts.map token ++ bind params n us := by
  induction ts with
  | nil => rfl
  | cons t ts ih =>
    rw [Token.placeholders, List.filterMap_eq_nil_iff, List.forall_mem_cons] at hts
    rw [List.cons_append, bind, ofToken_of_eq_none hts.1, hts.1, List.map_cons, List.cons_append]
    exact congrArg _ (ih (List.filterMap_eq_nil_iff.2 hts.2))

/-- The placeholder with a number stands for the value with that number. -/
theorem parameter?_placeholder (d : Dialect) :
    parameter? params n (d.placeholder (n + 1)) = params[n]? := by
  cases d with
  | postgresql =>
    have hchars : (Dialect.postgresql.placeholder (n + 1)).toList =
        '$' :: Nat.toDigits 10 (n + 1) := by
      simp [Dialect.placeholder, Nat.toList_repr]
    simp [parameter?, hchars]
  | mysql => simp [parameter?, Dialect.placeholder]
  | sqlite => simp [parameter?, Dialect.placeholder]

theorem bind_placeholder (d : Dialect) {v : Value} (hv : params[n]? = some v) (ts : List Token) :
    bind params n (.plain (d.placeholder (n + 1)) :: ts) = value v :: bind params (n + 1) ts := by
  rw [bind, ofToken, Token.placeholder?_placeholder, Option.bind_some, parameter?_placeholder, hv]
  rfl

end Lexeme

namespace Fragment

/-- What is read of a fragment: words, names and the values of its parameters. -/
def lexemes : Fragment → List Lexeme
  | [] => []
  | .word s :: ps => (Token.scan s).map .token ++ lexemes ps
  | .name s :: ps => .token (Identifier.token s) :: lexemes ps
  | .label s :: ps => .token (.quoted s) :: lexemes ps
  | .param v :: ps => .value v :: lexemes ps

theorem lexemes_append (f g : Fragment) : lexemes (f ++ g) = lexemes f ++ lexemes g := by
  induction f with
  | nil => rfl
  | cons p ps ih =>
    cases p with
    | word s => exact (congrArg _ ih).trans (List.append_assoc ..).symm
    | name s => exact congrArg _ ih
    | label s => exact congrArg _ ih
    | param v => exact congrArg _ ih

/-- Every parameter is read at its placeholder, whatever parameters there are besides. -/
theorem bind_tokens (d : Dialect) {f : Fragment} {apart : Bool} (h : f.spacedFrom apart)
    {values : List Value} {n : Nat} (hvalues : f.params <+: values.drop n) :
    Lexeme.bind values n (f.tokens d (n + 1)) = f.lexemes := by
  induction f generalizing n apart with
  | nil => rfl
  | cons p ps ih =>
    obtain ⟨hclear, hps⟩ := isClear_and_spacedFrom h
    cases p with
    | word s =>
      rw [tokens, lexemes, Lexeme.bind_append (Token.placeholder?_of_isClear hclear),
        ih hps hvalues]
    | name s =>
      have hname := Token.placeholder?_token s
      rw [tokens, lexemes, Lexeme.bind, Lexeme.ofToken_of_eq_none hname, hname, ← ih hps hvalues]
      rfl
    | label s => exact congrArg _ (ih hps hvalues)
    | param v =>
      -- The value is the next one, and those of the pieces after it are the ones after that.
      obtain ⟨rest, hrest⟩ := hvalues
      have hv : values[n]? = some v := by
        rw [← List.head?_drop, ← hrest]
        rfl
      have hdrop : values.drop (n + 1) = params ps ++ rest := by
        rw [← List.tail_drop, ← hrest]
        rfl
      rw [tokens, lexemes, Lexeme.bind_placeholder d hv, ih hps ⟨rest, hdrop.symm⟩]

/-- What is read of the text of a fragment. -/
theorem IsSpaced.bind_scan_text {f : Fragment} (h : f.IsSpaced) (d : Dialect) :
    Lexeme.bind f.params 0 (Token.scan (f.text d)) = f.lexemes := by
  rw [h.scan_text]
  exact bind_tokens d h (List.prefix_refl _)

end Fragment

/-! ### Reading pieces -/

/-- A word as it is read. -/
abbrev Lexeme.word (s : String) : Lexeme :=
  .token (.plain s)

/-- A name is never read as a keyword or a sign. -/
theorem Lexeme.token_ne_word (name : String) {s : String}
    (hs : (Token.plain s).identifier? = none) : token (Identifier.token name) ≠ .word s :=
  fun h => Token.token_ne_plain name hs (token.inj h)

theorem Fragment.lexemes_column_append (aliasName c : String) (ls : List Lexeme) :
    (column aliasName c).lexemes ++ ls =
      .token (Identifier.token aliasName) :: .word "." :: .token (Identifier.token c) :: ls :=
  rfl

namespace Condition

variable {n : Nat} {ls rest rest' : List Lexeme} {x y : Condition}

theorem conjunction_of_negation (h : negation n ls = some (x, rest))
    (hrest : rest.head? ≠ some (.word "AND")) : conjunction (n + 1) ls = some (x, rest) := by
  rw [conjunction, h]
  simp only [Option.bind_eq_bind, Option.bind_some]
  split
  · exact absurd rfl hrest
  · rfl

theorem conjunction_cons (h : negation n ls = some (x, .word "AND" :: rest))
    (h' : conjunction n rest = some (y, rest')) :
    conjunction (n + 1) ls = some (.and x y, rest') := by
  rw [conjunction, h]
  simp only [Option.bind_eq_bind, Option.bind_some, h']

theorem disjunction_of_conjunction (h : conjunction n ls = some (x, rest))
    (hrest : rest.head? ≠ some (.word "OR")) : disjunction (n + 1) ls = some (x, rest) := by
  rw [disjunction, h]
  simp only [Option.bind_eq_bind, Option.bind_some]
  split
  · exact absurd rfl hrest
  · rfl

theorem disjunction_cons (h : conjunction n ls = some (x, .word "OR" :: rest))
    (h' : disjunction n rest = some (y, rest')) :
    disjunction (n + 1) ls = some (.or x y, rest') := by
  rw [disjunction, h]
  simp only [Option.bind_eq_bind, Option.bind_some, h']

theorem negation_not (h : negation n ls = some (x, rest)) :
    negation (n + 1) (.word "NOT" :: ls) = some (.not x, rest) := by
  rw [negation, h]
  rfl

theorem negation_brackets (h : disjunction n ls = some (x, .word ")" :: rest)) :
    negation (n + 1) (.word "(" :: ls) = some (x, rest) := by
  rw [negation, h]
  rfl

theorem negation_atom {l : Lexeme} (hnot : l ≠ .word "NOT") (hopen : l ≠ .word "(") :
    negation (n + 1) (l :: ls) = atom? (l :: ls) := by
  rw [negation]
  · rintro ls' ⟨⟩
    exact hnot rfl
  · rintro ls' ⟨⟩
    exact hopen rfl

theorem column?_column (aliasName c : String) (ls : List Lexeme) :
    column? ((Fragment.column aliasName c).lexemes ++ ls) = some ((aliasName, c), ls) := by
  rw [Fragment.lexemes_column_append, column?, Token.identifier?_token, Token.identifier?_token]
  rfl

/-- A column is read as the column of its table. -/
theorem term?_column (aliasName c : String) (ls : List Lexeme) :
    term? ((Fragment.column aliasName c).lexemes ++ ls) = some (.column aliasName c, ls) := by
  have hcolumn := column?_column aliasName c ls
  rw [term?, hcolumn]
  · rfl
  · nofun

theorem atom?_of_term? {t : Term} (h : term? ls = some (t, rest)) : atom? ls = predicate? t rest := by
  unfold atom?
  rw [h]

/-- What is said of a column is read with it. -/
theorem negation_column (aliasName c : String) (h : predicate? (.column aliasName c) ls =
    some (x, rest)) :
    negation (n + 1) ((Fragment.column aliasName c).lexemes ++ ls) = some (x, rest) := by
  -- The alias is no keyword, so neither a negation nor a bracket is read.
  have hatom : negation (n + 1) ((Fragment.column aliasName c).lexemes ++ ls) =
      atom? ((Fragment.column aliasName c).lexemes ++ ls) :=
    negation_atom (Lexeme.token_ne_word aliasName rfl) (Lexeme.token_ne_word aliasName rfl)
  rw [hatom, atom?_of_term? (term?_column aliasName c ls), h]

end Condition

/-! ### Fragments that stand for themselves -/

/-- Lexemes that start with none of some words. -/
def Lexeme.StartsOther (words : List String) (ls : List Lexeme) : Prop :=
  ∀ w ∈ words, ls.head? ≠ some (.word w)

theorem Lexeme.startsOther_word {words : List String} {s : String} (hs : s ∉ words)
    (ls : List Lexeme) : StartsOther words (.word s :: ls) := by
  rintro w hw ⟨⟩
  exact hs hw

/-- A fragment that is read as a condition whatever comes after it, but for what would make a
    column of its end. -/
def Fragment.Reads (f : Fragment) (x : Condition) : Prop :=
  ∀ n rest, 3 * f.lexemes.length ≤ n → Lexeme.StartsOther ["."] rest →
    Condition.negation n (f.lexemes ++ rest) = some (x, rest)

/-- Conditions with a connective between them, the last one being closest to the end. -/
def Condition.join (connective : Condition → Condition → Condition) (empty : Condition) :
    List Condition → Condition
  | [] => empty
  | [x] => x
  | x :: y :: xs => connective x (join connective empty (y :: xs))

namespace Condition

theorem column?_of_startsOther {l : Lexeme} {rest : List Lexeme}
    (hrest : Lexeme.StartsOther ["."] rest) : column? (l :: rest) = none := by
  unfold column?
  split
  · next heq =>
    cases heq
    exact absurd rfl (hrest "." (List.mem_singleton_self _))
  · rfl

section Joined

variable {item parse : Nat → List Lexeme → Option (Condition × List Lexeme)}
  {connective : Condition → Condition → Condition} {empty : Condition} {words : List String}
  {sep w : String} {k : Nat} {α : Type} {h : α → Fragment} {g : α → Condition}

/-- Conditions with words between them are read one after the other, if that is how two of them
    are read. -/
theorem parse_separated (hsep : Token.scan sep = [.plain w]) (hw : w ∉ words)
    (hone : ∀ {n ls x rest}, item n ls = some (x, rest) → rest.head? ≠ some (.word w) →
      parse (n + 1) ls = some (x, rest))
    (htwo : ∀ {n ls x y rest rest'}, item n ls = some (x, .word w :: rest) →
      parse n rest = some (y, rest') → parse (n + 1) ls = some (connective x y, rest')) :
    ∀ {l : List α}, l ≠ [] →
      (∀ a ∈ l, ∀ n rest, 3 * (h a).lexemes.length + k ≤ n → Lexeme.StartsOther words rest →
        item n ((h a).lexemes ++ rest) = some (g a, rest)) →
      ∀ {n rest}, 3 * (Fragment.separated sep (l.map h)).lexemes.length + k + 1 ≤ n →
        Lexeme.StartsOther (w :: words) rest →
        parse n ((Fragment.separated sep (l.map h)).lexemes ++ rest) =
          some (join connective empty (l.map g), rest)
  | [], hne, _, _, _, _, _ => absurd rfl hne
  | [a], _, hitem, n, rest, hn, hrest => by
    obtain ⟨n, rfl⟩ := Nat.exists_eq_succ_of_ne_zero (show n ≠ 0 by omega)
    have hstop := List.forall_mem_cons.1 hrest
    exact hone (hitem a (List.mem_singleton_self a) n rest (Nat.le_of_succ_le_succ hn) hstop.2)
      hstop.1
  | a :: b :: l, _, hitem, n, rest, hn, hrest => by
    have hlexemes : (Fragment.separated sep ((a :: b :: l).map h)).lexemes =
        (h a).lexemes ++ .word w :: (Fragment.separated sep ((b :: l).map h)).lexemes := by
      rw [List.map_cons, List.map_cons, Fragment.separated, Fragment.lexemes_append,
        Fragment.lexemes, hsep]
      rfl
    rw [hlexemes, List.length_append, List.length_cons] at hn
    obtain ⟨n, rfl⟩ := Nat.exists_eq_succ_of_ne_zero (show n ≠ 0 by omega)
    rw [List.forall_mem_cons] at hitem
    rw [hlexemes, List.append_assoc, List.cons_append]
    exact htwo (hitem.1 n _ (by omega) (Lexeme.startsOther_word hw _)) (parse_separated hsep hw hone htwo
      (List.cons_ne_nil _ _) hitem.2 (by omega) hrest)

end Joined

variable {α : Type} {h : α → Fragment} {g : α → Condition} {n : Nat} {rest : List Lexeme}
  {l : List α}

/-- Fragments with `AND` between them are read as their conjunction. -/
theorem conjunction_separated (hne : l ≠ []) (hreads : ∀ a ∈ l, (h a).Reads (g a))
    (hn : 3 * (Fragment.separated " AND " (l.map h)).lexemes.length + 1 ≤ n)
    (hrest : Lexeme.StartsOther ["AND", "."] rest) :
    conjunction n ((Fragment.separated " AND " (l.map h)).lexemes ++ rest) =
      some (join .and (.constant true) (l.map g), rest) :=
  parse_separated (k := 0) rfl (by decide) conjunction_of_negation conjunction_cons hne
    (fun a ha n rest => hreads a ha n rest) hn hrest

theorem conjunction_of_reads {f : Fragment} {x : Condition} (hf : f.Reads x)
    (hn : 3 * f.lexemes.length + 1 ≤ n) (hrest : Lexeme.StartsOther ["AND", "."] rest) :
    conjunction n (f.lexemes ++ rest) = some (x, rest) := by
  obtain ⟨n, rfl⟩ := Nat.exists_eq_succ_of_ne_zero (show n ≠ 0 by omega)
  rw [Lexeme.StartsOther, List.forall_mem_cons] at hrest
  exact conjunction_of_negation (hf n rest (Nat.le_of_succ_le_succ hn) hrest.2) hrest.1

theorem disjunction_of_reads {f : Fragment} {x : Condition} (hf : f.Reads x)
    (hn : 3 * f.lexemes.length + 2 ≤ n) (hrest : Lexeme.StartsOther ["OR", "AND", "."] rest) :
    disjunction n (f.lexemes ++ rest) = some (x, rest) := by
  obtain ⟨n, rfl⟩ := Nat.exists_eq_succ_of_ne_zero (show n ≠ 0 by omega)
  rw [Lexeme.StartsOther, List.forall_mem_cons] at hrest
  exact disjunction_of_conjunction
    (conjunction_of_reads hf (Nat.le_of_succ_le_succ hn) hrest.2) hrest.1

/-- Fragments with `OR` between them are read as their disjunction. -/
theorem disjunction_separated (hne : l ≠ []) (hreads : ∀ a ∈ l, (h a).Reads (g a))
    (hn : 3 * (Fragment.separated " OR " (l.map h)).lexemes.length + 2 ≤ n)
    (hrest : Lexeme.StartsOther ["OR", "AND", "."] rest) :
    disjunction n ((Fragment.separated " OR " (l.map h)).lexemes ++ rest) =
      some (join .or (.constant false) (l.map g), rest) :=
  parse_separated (k := 1) rfl (by decide) disjunction_of_conjunction disjunction_cons hne
    (fun a ha _ _ hn hrest => conjunction_of_reads (hreads a ha) hn hrest) hn hrest

end Condition

namespace Fragment.Reads

open Condition

variable {α : Type} {h : α → Fragment} {g : α → Condition} {f : Fragment} {x : Condition}
  {l : List α}

/-- What is said of a column after it. -/
theorem column {aliasName c : String} (hf : ∀ rest : List Lexeme,
      predicate? (.column aliasName c) (f.lexemes ++ rest) = some (x, rest)) :
    Reads (Fragment.column aliasName c ++ f) x := by
  intro n rest hn hrest
  rw [lexemes_append] at hn ⊢
  cases n with
  | zero => simp [Fragment.column, lexemes] at hn
  | succ n => rw [List.append_assoc, negation_column aliasName c (hf rest)]

theorem constant {w : String} {b : Bool} (hscan : Token.scan w = [.plain w]) (hnot : w ≠ "NOT")
    (hopen : w ≠ "(") (hatom : ∀ rest, term? (.word w :: rest) = none →
      atom? (.word w :: rest) = some (.constant b, rest)) : Reads [.word w] (.constant b) := by
  intro n rest hn hrest
  have hlexemes : lexemes [.word w] = [.word w] := by rw [lexemes, hscan]; rfl
  rw [hlexemes] at hn ⊢
  obtain ⟨n, rfl⟩ := Nat.exists_eq_succ_of_ne_zero (show n ≠ 0 by rintro rfl; simp at hn)
  rw [List.singleton_append, negation_atom (fun h => hnot (Token.plain.inj (Lexeme.token.inj h)))
    fun h => hopen (Token.plain.inj (Lexeme.token.inj h))]
  refine hatom rest ?_
  rw [term?, column?_of_startsOther hrest]
  · rfl
  · nofun

theorem constant_true : Reads [.word "TRUE"] (.constant true) :=
  constant rfl (by decide) (by decide) fun rest hterm => by rw [atom?, hterm]

theorem constant_false : Reads [.word "FALSE"] (.constant false) :=
  constant rfl (by decide) (by decide) fun rest hterm => by rw [atom?, hterm]

/-- Whatever is read in brackets. -/
theorem brackets (hf : ∀ n rest, 3 * f.lexemes.length + 2 ≤ n →
      Lexeme.StartsOther ["OR", "AND", "."] rest →
      disjunction n (f.lexemes ++ rest) = some (x, rest)) :
    Reads (.word "(" :: f ++ [.word ")"]) x := by
  intro n rest hn _
  have hlexemes : lexemes (.word "(" :: f ++ [.word ")"]) = .word "(" :: (f.lexemes ++ [.word ")"]) :=
    congrArg (List.cons _) (lexemes_append f [.word ")"])
  rw [hlexemes, List.length_cons, List.length_append, List.length_singleton] at hn
  obtain ⟨n, rfl⟩ := Nat.exists_eq_succ_of_ne_zero (show n ≠ 0 by omega)
  rw [hlexemes, List.cons_append, List.append_assoc]
  exact negation_brackets (hf n _ (by omega) (Lexeme.startsOther_word (by decide) _))

/-- Conditions in brackets with `AND` between them. -/
theorem all (hne : l ≠ []) (hreads : ∀ a ∈ l, Reads (h a) (g a)) :
    Reads (.word "(" :: separated " AND " (l.map h) ++ [.word ")"])
      (join .and (.constant true) (l.map g)) := by
  refine brackets fun n rest hn hrest => ?_
  obtain ⟨n, rfl⟩ := Nat.exists_eq_succ_of_ne_zero (show n ≠ 0 by omega)
  rw [Lexeme.StartsOther, List.forall_mem_cons] at hrest
  exact disjunction_of_conjunction
    (conjunction_separated hne hreads (by omega) hrest.2) hrest.1

/-- Conditions in brackets with `OR` between them. -/
theorem any (hne : l ≠ []) (hreads : ∀ a ∈ l, Reads (h a) (g a)) :
    Reads (.word "(" :: separated " OR " (l.map h) ++ [.word ")"])
      (join .or (.constant false) (l.map g)) :=
  brackets fun _ _ hn hrest => disjunction_separated hne hreads hn hrest

/-- A negation is read as one, for what it says is in brackets. -/
theorem negation (hf : Reads f x) : Reads (.word "NOT (" :: f ++ [.word ")"]) (.not x) := by
  intro n rest hn hrest
  have hbrackets : Reads (.word "(" :: f ++ [.word ")"]) x :=
    brackets fun _ _ hn hrest => disjunction_of_reads hf hn hrest
  have hlexemes : lexemes (.word "NOT (" :: f ++ [.word ")"]) =
      .word "NOT" :: lexemes (.word "(" :: f ++ [.word ")"]) := rfl
  rw [hlexemes, List.length_cons] at hn
  obtain ⟨n, rfl⟩ := Nat.exists_eq_succ_of_ne_zero (show n ≠ 0 by omega)
  rw [hlexemes]
  exact negation_not (hbrackets n rest (by omega) hrest)

end Fragment.Reads

end EntityFetch
