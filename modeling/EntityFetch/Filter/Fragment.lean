import EntityFetch.Filter
import EntityFetch.Sql.Fragment

/-!
# Filters in SQL

A filter becomes a condition of SQL on the columns of a table with an alias, and
the values in it become parameters. What SQL has no words for is written as a
constant: a filter that always holds, and the membership in an empty list.
-/

namespace EntityFetch

/-- The operator of a comparison. -/
def Comparison.operator : Comparison → String
  | eq => "="
  | ne => "<>"
  | lt => "<"
  | le => "<="
  | gt => ">"
  | ge => ">="

/-- The pattern of SQL for a text at a position, the per cent sign standing for
    any characters. A pattern that is no text is left as it is. -/
def Position.pattern (p : Position) : Value → Value
  | .str s =>
    match p with
    | anywhere => .str ("%" ++ s ++ "%")
    | start => .str (s ++ "%")
    | finish => .str ("%" ++ s)
  | v => v

namespace Filter

/-- A comparison in SQL. Equality with null has a form of its own. -/
def compareFragment (aliasName : String) (op : Comparison) (column : String) (v : Value) :
    Fragment :=
  let c := Fragment.column aliasName column
  match op, v.isNull with
  | .eq, true => c ++ [.word " IS NULL"]
  | .ne, true => c ++ [.word " IS NOT NULL"]
  | op, _ => c ++ [.word " ", .word op.operator, .word " ", .param v]

/-- The membership in a list in SQL, which is the given constant if the list is
    empty. -/
def memberFragment (aliasName column word empty : String) (values : List Value) : Fragment :=
  if values.isEmpty then [.word empty]
  else
    Fragment.column aliasName column ++ .word word ::
      (Fragment.separated ", " (values.map fun v => [.param v]) ++ [.word ")"])

/-- Conditions with a connective between them, or the given constant if there
    are none. -/
def connective (word empty : String) (conditions : List Fragment) : Fragment :=
  if conditions.isEmpty then [.word empty]
  else .word "(" :: Fragment.separated word conditions ++ [.word ")"]

mutual

/-- A filter in SQL, on the columns of the table with an alias. -/
def fragment (aliasName : String) : Filter → Fragment
  | always => [.word "TRUE"]
  | compare op c v => compareFragment aliasName op c v
  | member c vs => memberFragment aliasName c " IN (" "FALSE" vs
  | notMember c vs => memberFragment aliasName c " NOT IN (" "TRUE" vs
  | like p c v => Fragment.column aliasName c ++ [.word " LIKE ", .param (p.pattern v)]
  | isNull c => Fragment.column aliasName c ++ [.word " IS NULL"]
  | isNotNull c => Fragment.column aliasName c ++ [.word " IS NOT NULL"]
  | all fs => connective " AND " "TRUE" (fragments aliasName fs)
  | any fs => connective " OR " "FALSE" (fragments aliasName fs)
  | negation f => .word "NOT (" :: fragment aliasName f ++ [.word ")"]

/-- Every one of some filters in SQL. -/
def fragments (aliasName : String) : List Filter → List Fragment
  | [] => []
  | f :: fs => fragment aliasName f :: fragments aliasName fs

end

end Filter

end EntityFetch
