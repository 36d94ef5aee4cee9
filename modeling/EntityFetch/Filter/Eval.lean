import EntityFetch.Filter

/-!
# What a filter says of a row

A row is a value for every column. A filter is true, false or unknown of it
(`Filter.eval`); unknown comes from null and is carried through the connectives
as in the three-valued logic of SQL. A row is kept only if the filter is true of
it (`Filter.holds`).
-/

namespace EntityFetch

/-- A truth value of three, `none` being unknown. -/
abbrev Truth := Option Bool

namespace Truth

/-- The conjunction: false if one side is, unknown if that is left open. -/
def and : Truth → Truth → Truth
  | some false, _ => some false
  | _, some false => some false
  | some true, some true => some true
  | _, _ => none

/-- The disjunction: true if one side is, unknown if that is left open. -/
def or : Truth → Truth → Truth
  | some true, _ => some true
  | _, some true => some true
  | some false, some false => some false
  | _, _ => none

/-- The negation. -/
def not (t : Truth) : Truth :=
  t.map (!·)

end Truth

namespace Filter

/-- Whether a list of values has one. The answer for a list without values is
    false even for null; null among the values leaves it open whether one that
    is not found is there. -/
def memberOf? (v : Value) (values : List Value) : Truth :=
  if values.isEmpty then some false
  else if v.isNull then none
  else if values.any (v.equal? · == some true) then some true
  else if values.any Value.isNull then none
  else some false

/-- Whether the characters of a pattern occur in a row in a text. -/
def occursIn (pattern : List Char) : List Char → Bool
  | [] => pattern.isEmpty
  | c :: cs => pattern.isPrefixOf (c :: cs) || occursIn pattern cs

/-- Whether a pattern is found at a position of a text. -/
def foundAt (position : Position) (pattern text : List Char) : Bool :=
  match position with
  | .anywhere => occursIn pattern text
  | .start => pattern.isPrefixOf text
  | .finish => pattern.isSuffixOf text

/-- Whether a value is a text with a pattern. Only null leaves it open. -/
def likeValue? (position : Position) (v pattern : Value) : Truth :=
  match v.str?, pattern.str? with
  | some s, some p => some (foundAt position p.toList s.toList)
  | _, _ => if v.isNull then none else some false

/-- A comparison of two values. Equality with null asks whether the value is
    null, and is never unknown. -/
def compareValues? (op : Comparison) (v w : Value) : Truth :=
  match op with
  | .eq => if w.isNull then some v.isNull else v.equal? w
  | .ne => if w.isNull then some !v.isNull else Truth.not (v.equal? w)
  | .lt => (v.compare? w).map Ordering.isLT
  | .le => (v.compare? w).map Ordering.isLE
  | .gt => (v.compare? w).map Ordering.isGT
  | .ge => (v.compare? w).map Ordering.isGE

mutual

/-- The truth of a filter, given the value of every column. -/
def eval (row : String → Value) : Filter → Truth
  | always => some true
  | compare op c w => compareValues? op (row c) w
  | member c ws => memberOf? (row c) ws
  | notMember c ws => Truth.not (memberOf? (row c) ws)
  | like p c w => likeValue? p (row c) w
  | isNull c => some (row c).isNull
  | isNotNull c => some !(row c).isNull
  | all fs => evalAll row fs
  | any fs => evalAny row fs
  | negation f => Truth.not (eval row f)

/-- The truth of the conjunction of some filters. -/
def evalAll (row : String → Value) : List Filter → Truth
  | [] => some true
  | f :: fs => Truth.and (eval row f) (evalAll row fs)

/-- The truth of the disjunction of some filters. -/
def evalAny (row : String → Value) : List Filter → Truth
  | [] => some false
  | f :: fs => Truth.or (eval row f) (evalAny row fs)

end

/-- Whether a filter is true of a row. -/
def holds (f : Filter) (row : String → Value) : Bool :=
  f.eval row == some true

end Filter

end EntityFetch
