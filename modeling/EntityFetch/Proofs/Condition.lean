import EntityFetch.Proofs.Positional
import EntityFetch.Filter.Eval

/-!
# Reading conditions

How a database reads the text of a condition, told apart from how the text is made. The text
is scanned, every placeholder is replaced by the value that is bound to it
(`Lexeme.bind`), and what comes out of that is read as SQL reads it: a negation binds more
closely than a conjunction, and that more closely than a disjunction
(`Condition.disjunction`). A condition is true, false or unknown of a row, and a comparison
with null is unknown (`Condition.eval`).

* `Condition.read`: the condition that a text is;
* `Condition.clauses`: the conditions after `ON` and `WHERE` in the text of a statement.
-/

namespace EntityFetch

/-! ### Conditions -/

/-- What is compared in a condition. -/
inductive Term where
  | column (aliasName column : String)
  | value (v : Value)

/-- A condition on the columns of tables with aliases. -/
inductive Condition where
  | constant (b : Bool)
  | compare (op : Comparison) (t u : Term)
  | isNull (t : Term)
  | isNotNull (t : Term)
  | member (t : Term) (values : List Value)
  | notMember (t : Term) (values : List Value)
  | and (x y : Condition)
  | or (x y : Condition)
  | not (x : Condition)

/-- The value of a term in a row, which is a value for every column of every alias. -/
def Term.eval (row : String → String → Value) : Term → Value
  | column a c => row a c
  | value v => v

/-- What a comparison says of two values. It is unknown for null, and where there is no order. -/
def Comparison.truth (op : Comparison) (v w : Value) : Truth :=
  if v.isNull || w.isNull then none
  else match op with
    | eq => v.equal? w
    | ne => Truth.not (v.equal? w)
    | lt => (v.compare? w).map Ordering.isLT
    | le => (v.compare? w).map Ordering.isLE
    | gt => (v.compare? w).map Ordering.isGT
    | ge => (v.compare? w).map Ordering.isGE

/-- Whether a value equals one of some others: the disjunction of the equalities. -/
def Truth.anyEqual (v : Value) (ws : List Value) : Truth :=
  ws.foldr (fun w t => (Comparison.eq.truth v w).or t) (some false)

namespace Condition

/-- The truth of a condition in a row. -/
def eval (row : String → String → Value) : Condition → Truth
  | constant b => some b
  | compare op t u => op.truth (t.eval row) (u.eval row)
  | isNull t => some (t.eval row).isNull
  | isNotNull t => some !(t.eval row).isNull
  | member t vs => Truth.anyEqual (t.eval row) vs
  | notMember t vs => (Truth.anyEqual (t.eval row) vs).not
  | and x y => (x.eval row).and (y.eval row)
  | or x y => (x.eval row).or (y.eval row)
  | not x => (x.eval row).not

end Condition

/-! ### Binding -/

/-- A token of a text of which the placeholders are bound. -/
inductive Lexeme where
  | token (t : Token)
  | value (v : Value)

namespace Lexeme

variable (params : List Value)

/-- The value that is bound to a placeholder: it has a number, or the next one is meant. -/
def parameter? (next : Nat) (placeholder : String) : Option Value :=
  match placeholder.toList with
  | '$' :: digits => params[Nat.ofDigitChars 10 digits 0 - 1]?
  | _ => params[next]?

/-- The token, or the value that is bound to it if it is a placeholder. -/
def ofToken (next : Nat) (t : Token) : Lexeme :=
  ((t.placeholder?.bind (parameter? params next)).map value).getD (token t)

/-- Tokens with their placeholders bound, given the number of placeholders before them. -/
def bind : Nat → List Token → List Lexeme
  | _, [] => []
  | n, t :: ts => ofToken params n t :: bind (if t.placeholder?.isSome then n + 1 else n) ts

end Lexeme

/-! ### Reading -/

namespace Condition

/-- The column of a table at the start of lexemes, and what comes after it. -/
def column? : List Lexeme → Option ((String × String) × List Lexeme)
  | .token t :: .token (.plain ".") :: .token u :: ls => do
    let a ← t.identifier?
    let c ← u.identifier?
    some ((a, c), ls)
  | _ => none

/-- The term at the start of lexemes. -/
def term? : List Lexeme → Option (Term × List Lexeme)
  | .value v :: ls => some (.value v, ls)
  | ls => (column? ls).map fun r => (.column r.1.1 r.1.2, r.2)

/-- The values of a list of which the opening bracket has been read. -/
def values? : List Lexeme → Option (List Value × List Lexeme)
  | .value v :: .token (.plain ")") :: ls => some ([v], ls)
  | .value v :: .token (.plain ",") :: ls => (values? ls).map fun r => (v :: r.1, r.2)
  | _ => none

/-- The comparison that an operator stands for. -/
def operator? (s : String) : Option Comparison :=
  [Comparison.eq, .ne, .lt, .le, .gt, .ge].find? (·.operator == s)

/-- What is said of a term after it. -/
def predicate? (t : Term) : List Lexeme → Option (Condition × List Lexeme)
  | .token (.plain "IS") :: .token (.plain "NULL") :: ls => some (.isNull t, ls)
  | .token (.plain "IS") :: .token (.plain "NOT") :: .token (.plain "NULL") :: ls =>
    some (.isNotNull t, ls)
  | .token (.plain "IN") :: .token (.plain "(") :: ls =>
    (values? ls).map fun r => (.member t r.1, r.2)
  | .token (.plain "NOT") :: .token (.plain "IN") :: .token (.plain "(") :: ls =>
    (values? ls).map fun r => (.notMember t r.1, r.2)
  | .token (.plain s) :: ls => do
    let op ← operator? s
    let (u, ls) ← term? ls
    some (.compare op t u, ls)
  | _ => none

/-- A condition without connectives: a constant, or something said of a term. -/
def atom? (ls : List Lexeme) : Option (Condition × List Lexeme) :=
  match term? ls with
  | some (t, ls) => predicate? t ls
  | none =>
    match ls with
    | .token (.plain "TRUE") :: ls => some (.constant true, ls)
    | .token (.plain "FALSE") :: ls => some (.constant false, ls)
    | _ => none

mutual

/-- Conjunctions with `OR` between them, at the start of lexemes. No text needs more than three
    steps for each of its lexemes. -/
def disjunction : Nat → List Lexeme → Option (Condition × List Lexeme)
  | 0, _ => none
  | n + 1, ls => do
    let (x, ls) ← conjunction n ls
    match ls with
    | .token (.plain "OR") :: ls => do
      let (y, ls) ← disjunction n ls
      some (.or x y, ls)
    | ls => some (x, ls)

/-- Negations with `AND` between them, at the start of lexemes. -/
def conjunction : Nat → List Lexeme → Option (Condition × List Lexeme)
  | 0, _ => none
  | n + 1, ls => do
    let (x, ls) ← negation n ls
    match ls with
    | .token (.plain "AND") :: ls => do
      let (y, ls) ← conjunction n ls
      some (.and x y, ls)
    | ls => some (x, ls)

/-- A condition with any number of `NOT` before it, which is in brackets or has no
    connectives. -/
def negation : Nat → List Lexeme → Option (Condition × List Lexeme)
  | 0, _ => none
  | n + 1, .token (.plain "NOT") :: ls => do
    let (x, ls) ← negation n ls
    some (.not x, ls)
  | n + 1, .token (.plain "(") :: ls => do
    let (x, ls) ← disjunction n ls
    match ls with
    | .token (.plain ")") :: ls => some (x, ls)
    | _ => none
  | _ + 1, ls => atom? ls

end

/-- The condition at the start of lexemes, and what comes after it. -/
def start? (ls : List Lexeme) : Option (Condition × List Lexeme) :=
  disjunction (3 * ls.length + 2) ls

/-- The condition that a text is. -/
def read (text : String) (params : List Value) : Option Condition :=
  match start? (Lexeme.bind params 0 (Token.scan text)) with
  | some (x, []) => some x
  | _ => none

/-- Whether a condition may end before lexemes, as the next part of a statement starts. -/
def endsBefore : List Lexeme → Bool
  | [] => true
  | .token (.plain s) :: _ => ["INNER", "LEFT", "WHERE", "ORDER", "LIMIT", "OFFSET"].contains s
  | _ => false

/-- The conditions of a statement, each with the keyword before it. -/
def clausesOf : List Lexeme → Option (List (String × Condition))
  | [] => some []
  | .token (.plain s) :: ls =>
    if s = "ON" ∨ s = "WHERE" then
      match start? ls with
      | some (x, rest) => if endsBefore rest then (clausesOf ls).map ((s, x) :: ·) else none
      | none => none
    else clausesOf ls
  | _ :: ls => clausesOf ls

/-- The conditions in the text of a statement, each with the keyword before it. -/
def clauses (text : String) (params : List Value) : Option (List (String × Condition)) :=
  clausesOf (Lexeme.bind params 0 (Token.scan text))

/-- Without brackets `AND` binds more closely than `OR`, and `NOT` more closely than both. -/
example (row : String → String → Value) :
    (read "NOT a.x = $2 AND a.y IS NULL OR TRUE" [.int 1, .int 2]).map (eval row) =
      some (.or (.and (.not (Comparison.eq.truth (row "a" "x") (.int 2)))
        (some (row "a" "y").isNull)) (some true)) := by
  rfl

end Condition

end EntityFetch
